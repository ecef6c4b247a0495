import VideoEditorOffloading.IperfSteps
import VideoEditorOffloading.OwnedCells

/-! # The memory of the native bandwidth test

The same test with addresses: every structure, buffer and timer is a block of its own, and the lists
are linked through the blocks. `malloc` never fails here. What is not a pointer is as in the model
without addresses. What the texts say that the client sends is left out. -/
namespace IperfMemory

open Iperf OwnedCells

structure TestBlock where
  /-- 0 before the arguments have been read. -/
  role : Option Role := none
  reverse : Bool := false
  protocol : ℕ := 0
  server_hostname : ℕ := 0
  bind_address : ℕ := 0
  stats_interval : ℚ := 0
  reporter_interval : ℚ := 0
  timer : ℕ := 0
  stats_timer : ℕ := 0
  reporter_timer : ℕ := 0
  num_streams : ℕ := 0
  /-- `slh_first` of the two lists. -/
  streams : ℕ := 0
  protocols : ℕ := 0
  settings : ℕ := 0
  deriving DecidableEq

structure ProtocolBlock where
  id : Prot
  protocols : ℕ := 0
  deriving DecidableEq

structure StreamBlock where
  socket : ℕ := 0
  id : ℤ := 0
  settings : ℕ := 0
  result : ℕ := 0
  send_timer : ℕ := 0
  buffer : ℕ := 0
  /-- `sle_next` -/
  streams : ℕ := 0
  deriving DecidableEq

structure ResultBlock where
  bytes_received : iperf_size_t := 0
  bytes_sent : iperf_size_t := 0
  bytes_received_this_interval : iperf_size_t := 0
  bytes_sent_this_interval : iperf_size_t := 0
  start_time : Timeval := ⟨0, 0⟩
  end_time : Timeval := ⟨0, 0⟩
  interval_results : ℕ := 0
  last_interval_results : ℕ := 0
  deriving DecidableEq

structure IntervalBlock where
  values : IntervalResults
  next : ℕ := 0
  deriving DecidableEq

inductive Block where
  | test (b : TestBlock)
  | settings (b : Settings)
  | protocol (b : ProtocolBlock)
  | stream (b : StreamBlock)
  | result (b : ResultBlock)
  | interval (b : IntervalBlock)
  | timer
  | buffer (bytes : List UInt8)
  | text (bytes : List UInt8)
  deriving DecidableEq

section Kinds

abbrev testKind : Kind Block TestBlock where
  view | .test b => some b | _ => none
  make := .test
  view_make _ := rfl

abbrev settingsKind : Kind Block Settings where
  view | .settings b => some b | _ => none
  make := .settings
  view_make _ := rfl

abbrev protocolKind : Kind Block ProtocolBlock where
  view | .protocol b => some b | _ => none
  make := .protocol
  view_make _ := rfl

abbrev streamKind : Kind Block StreamBlock where
  view | .stream b => some b | _ => none
  make := .stream
  view_make _ := rfl

abbrev resultKind : Kind Block ResultBlock where
  view | .result b => some b | _ => none
  make := .result
  view_make _ := rfl

abbrev intervalKind : Kind Block IntervalBlock where
  view | .interval b => some b | _ => none
  make := .interval
  view_make _ := rfl

abbrev bufferKind : Kind Block (List UInt8) where
  view | .buffer bytes => some bytes | _ => none
  make := .buffer
  view_make _ := rfl

abbrev textKind : Kind Block (List UInt8) where
  view | .text bytes => some bytes | _ => none
  make := .text
  view_make _ := rfl

end Kinds

section Functions

variable (A : Allocator Block)

def iperf_new_test : Program Block ℕ := do
  let test ← malloc A (.test {})
  let settings ← malloc A (.settings ⟨0, 0, 0, 0, 0, 0⟩)
  update testKind test ({ · with settings })
  return test

/-- The loop ends at the protocol, or at the end of the list. -/
def set_protocol (test : ℕ) (prot_id : Prot) : Program Block Unit := do
  let t ← loadAs testKind test
  let _ ← loopBlocks (fun prot => do
    if prot = 0 then return none
    else
      let b ← loadAs protocolKind prot
      if b.id = prot_id then
        update testKind test ({ · with protocol := prot })
        return none
      else return some b.protocols) t.protocols

def iperf_defaults (testp : ℕ) : Program Block Unit := do
  update testKind testp ({ · with
    stats_interval := 0
    reporter_interval := 0
    num_streams := 1 })
  let t ← loadAs testKind testp
  update settingsKind t.settings fun s => { s with
    socket_bufsize := 0
    blksize := 128 * 1024
    rate := 1024 * 1024
    mss := 0
    bytes := 0 }
  -- SLIST_INIT
  update testKind testp ({ · with streams := 0, protocols := 0 })
  let tcp ← malloc A (.protocol ⟨.Ptcp, 0⟩)
  let udp ← malloc A (.protocol ⟨.Pudp, 0⟩)
  -- SLIST_INSERT_HEAD
  let t ← loadAs testKind testp
  update protocolKind tcp ({ · with protocols := t.protocols })
  update testKind testp ({ · with protocols := tcp })
  -- SLIST_INSERT_AFTER
  let b ← loadAs protocolKind tcp
  update protocolKind udp ({ · with protocols := b.protocols })
  update protocolKind tcp ({ · with protocols := udp })
  set_protocol testp .Ptcp

/-- The option `-c`, at which the function returns. -/
def iperf_parse_arguments (test : ℕ) (optarg : List UInt8) : Program Block Bool := do
  let t ← loadAs testKind test
  if t.role = some .server then return false
  else
    update testKind test ({ · with role := some .client })
    let server_hostname ← malloc A (.text optarg)
    update testKind test ({ · with server_hostname })
    return true

def iperf_add_stream (test sp : ℕ) : Program Block Unit := do
  let t ← loadAs testKind test
  if t.streams = 0 then
    -- SLIST_INSERT_HEAD
    update streamKind sp ({ · with streams := t.streams })
    update testKind test ({ · with streams := sp })
    update streamKind sp ({ · with id := 1 })
  else
    let (prev, i) ← forEach streamKind StreamBlock.streams
      (fun n (_, i) => return (n, i + 1)) t.streams (0, (2 : ℤ))
    -- SLIST_INSERT_AFTER
    let b ← loadAs streamKind prev
    update streamKind sp ({ · with streams := b.streams })
    update streamKind prev ({ · with streams := sp })
    update streamKind sp ({ · with id := i })

/-- `init` says whether `iperf_init_stream` succeeds. If it does not, nothing is freed. -/
def iperf_new_stream (test s : ℕ) (contents : ℕ → UInt8) (init : Bool) : Program Block ℕ := do
  let t ← loadAs testKind test
  let sp ← malloc A (.stream {})
  let settings ← loadAs settingsKind t.settings
  let buffer ← malloc A (.buffer ((List.range settings.blksize).map contents))
  update streamKind sp ({ · with buffer })
  let result ← malloc A (.result {})
  update streamKind sp ({ · with result, settings := t.settings, socket := s })
  let _ ← loadAs protocolKind t.protocol
  if init then
    iperf_add_stream test sp
    return sp
  else return 0

/-- SLIST_FOREACH on the streams. The body also gets their positions, for what the system says. -/
def forStreams (first : ℕ) (body : ℕ → ℕ → Program Block Unit) : Program Block Unit := do
  let _ ← forEach streamKind StreamBlock.streams (fun sp i => do
    body i sp
    return i + 1) first 0

def add_to_interval_list (rp : ℕ) (new : IntervalResults) : Program Block Unit := do
  let ip ← malloc A (.interval ⟨new, 0⟩)
  let r ← loadAs resultKind rp
  if r.interval_results = 0 then
    update resultKind rp ({ · with interval_results := ip, last_interval_results := ip })
  else
    update intervalKind r.last_interval_results ({ · with next := ip })
    update resultKind rp ({ · with last_interval_results := ip })

def TestBlock.direction (t : TestBlock) : Direction :=
  match t.role, t.reverse with
  | some .client, false | some .server, true => .sends
  | _, _ => .receives

/-- `temp` -/
def ResultBlock.interval (rp : ResultBlock) (d : Direction) (now : Timeval) :
    IntervalResults where
  bytes_transferred :=
    match d with
    | .sends => rp.bytes_sent_this_interval
    | .receives => rp.bytes_received_this_interval
  interval_start_time := if rp.interval_results = 0 then rp.start_time else rp.end_time
  interval_end_time := now

def statsPass (d : Direction) (now : Timeval) (sp : ℕ) : Program Block Unit := do
  let s ← loadAs streamKind sp
  let rp ← loadAs resultKind s.result
  update resultKind s.result ({ · with end_time := now })
  add_to_interval_list A s.result (rp.interval d now)
  update resultKind s.result
    ({ · with bytes_sent_this_interval := 0, bytes_received_this_interval := 0 })

def iperf_stats_callback (test : ℕ) (times : ℕ → Timeval) : Program Block Unit := do
  let t ← loadAs testKind test
  forStreams t.streams fun i sp => statsPass A t.direction (times i) sp

/-- `result` is what `Nwrite` returns. It is given `size` bytes of the buffer. -/
def iperf_tcp_send (result : ℤ) (sp : ℕ) : Program Block ℤ := do
  let s ← loadAs streamKind sp
  let settings ← loadAs settingsKind s.settings
  let buffer ← loadAs bufferKind s.buffer
  if buffer.length < settings.blksize then throw .segfault
  else if result < 0 then return -1
  else
    update resultKind s.result fun rp => { rp with
      bytes_sent := rp.bytes_sent + UInt64.ofInt result
      bytes_sent_this_interval := rp.bytes_sent_this_interval + UInt64.ofInt result }
    return result

/-- The loop for TCP. There are results for the streams whose sockets are ready; their sum is in no
block here. -/
def iperf_send (test : ℕ) (results : List (Option ℤ)) : Program Block Unit := do
  let t ← loadAs testKind test
  forStreams t.streams fun i sp =>
    match results.getD i none with
    | some result => do
      let _ ← iperf_tcp_send result sp
    | none => pure ()

/-- `*sp->result->last_interval_results` -/
def lastInterval (sp : ℕ) : Program Block IntervalResults := do
  let s ← loadAs streamKind sp
  let rp ← loadAs resultKind s.result
  let ip ← loadAs intervalKind rp.last_interval_results
  return ip.values

def print_interval_results (test sp : ℕ) : Program Block Unit := do
  let s ← loadAs streamKind sp
  let rp ← loadAs resultKind s.result
  if rp.last_interval_results = 0 then return ()
  else
    let _ ← lastInterval sp
    let t ← loadAs testKind test
    let _ ← loadAs settingsKind t.settings

def iperf_print_intermediate (test : ℕ) : Program Block Unit := do
  let t ← loadAs testKind test
  let bytes ← forEach streamKind StreamBlock.streams (fun sp bytes => do
    print_interval_results test sp
    let ip ← lastInterval sp
    return bytes + ip.bytes_transferred) t.streams (0 : iperf_size_t)
  if bytes ≠ 0 ∧ 1 < t.num_streams then
    let _ ← lastInterval t.streams
    let _ ← loadAs settingsKind t.settings
  else pure ()

def iperf_print_results (test : ℕ) : Program Block Unit := do
  let t ← loadAs testKind test
  -- SLIST_FIRST
  let s ← loadAs streamKind t.streams
  let _ ← loadAs resultKind s.result
  forStreams t.streams fun _ sp => do
    let s ← loadAs streamKind sp
    let rp ← loadAs resultKind s.result
    let _ ← loadAs protocolKind t.protocol
    if 0 < rp.bytes_sent ∨ 0 < rp.bytes_received then
      let _ ← loadAs settingsKind t.settings
    else pure ()
  if 1 < t.num_streams then
    let _ ← loadAs settingsKind t.settings
    let _ ← loadAs protocolKind t.protocol
  else pure ()

/-- `last` says that the results are displayed. In a state that is not reported nothing is done. -/
def iperf_reporter_callback (test : ℕ) (last : Bool) : Program Block Unit := do
  iperf_print_intermediate test
  if last then iperf_print_results test else pure ()

def iperf_udp_init (test : ℕ) : Program Block Unit := do
  let t ← loadAs testKind test
  let settings ← loadAs settingsKind t.settings
  match sendDelay settings with
  | .error _ => throw .aborted
  | .ok _ =>
    forStreams t.streams fun _ sp => do
      let send_timer ← malloc A .timer
      update streamKind sp ({ · with send_timer })

/-- `test->protocol->init` -/
def protocolInit (test : ℕ) : Prot → Program Block Unit
  | .Ptcp => pure ()
  | .Pudp => iperf_udp_init A test

/-- `if (condition) { test->timer = new_timer (…); }`, for one of the timers. -/
def setTimer (test : ℕ) (condition : Bool) (assign : ℕ → TestBlock → TestBlock) :
    Program Block Unit :=
  if condition then do
    let timer ← malloc A .timer
    update testKind test (assign timer)
  else pure ()

def iperf_init_test (test : ℕ) (start_times : ℕ → Timeval) : Program Block Unit := do
  let t ← loadAs testKind test
  let prot ← loadAs protocolKind t.protocol
  protocolInit A test prot.id
  let settings ← loadAs settingsKind t.settings
  setTimer A test (settings.bytes == 0) fun timer b => { b with timer }
  setTimer A test (t.stats_interval != 0) fun stats_timer b => { b with stats_timer }
  setTimer A test (t.reporter_interval != 0) fun reporter_timer b => { b with reporter_timer }
  forStreams t.streams fun i sp => do
    let s ← loadAs streamKind sp
    update resultKind s.result ({ · with start_time := start_times i })

/-- SLIST_FOREACH with `if (sp->id == sid) break;` -/
def findStream (first : ℕ) (sid : ℤ) : Program Block ℕ :=
  loopBlocks (fun sp => do
    if sp = 0 then return none
    else
      let s ← loadAs streamKind sp
      if s.id = sid then return none else return some s.streams) first

def ResultBlock.setResults (d : Direction) (v : Fields) (rp : ResultBlock) : ResultBlock :=
  match d with
  | .sends => { rp with bytes_received := v.bytes_transferred }
  | .receives => { rp with bytes_sent := v.bytes_transferred }

def setStream (d : Direction) (v : Fields) (sp : ℕ) : Program Block Unit := do
  let s ← loadAs streamKind sp
  update resultKind s.result (ResultBlock.setResults d v)

/-- The second loop of `parse_results`. -/
def parseLines (test : ℕ) (v : Fields) (cs : List UInt8) : Program Block Bool :=
  if cs = [] then return true
  else do
    let t ← loadAs testKind test
    let sp ← findStream t.streams (sscanf resultFormat v cs).sid
    if sp = 0 then return false
    else
      setStream t.direction (sscanf resultFormat v cs) sp
      match _h : nextLine cs with
      | none => throw .segfault
      | some cs' => parseLines test (sscanf resultFormat v cs) cs'
termination_by cs.length
decreasing_by exact length_nextLine _h

/-- What is not a line of text makes a pointer that is NULL, or that is behind the text. -/
def parse_results (test results : ℕ) (v : Fields) : Program Block Bool := do
  let memory ← loadAs textKind results
  match cstring memory with
  | .error _ => throw .segfault
  | .ok cs =>
    match nextLine cs with
    | none => throw .segfault
    | some strp =>
      match parseCpu (strtok (cs.takeWhile (· ≠ 10))) 0 with
      | .error _ => throw .segfault
      | .ok _ => parseLines test v strp

/-- The block moves. -/
def realloc (p : ℕ) (b : Block) : Program Block ℕ := do
  let moved ← malloc A b
  free p
  return moved

/-- How far an exchange of results comes: the results of the client are not sent, no size is read,
no text, or a text. `v` is what the stack holds. -/
inductive Exchange where
  | unsent
  | unsized
  | unread (memory : List UInt8)
  | read (v : Fields) (memory : List UInt8)

/-- The results of the client, line by line. What the text says is left out. -/
def packageResults (test : ℕ) : Program Block ℕ := do
  let t ← loadAs testKind test
  let results ← malloc A (.text [])
  forEach streamKind StreamBlock.streams (fun sp results => do
    let s ← loadAs streamKind sp
    let _ ← loadAs resultKind s.result
    realloc A results (.text [])) t.streams results

def iperf_exchange_results (test : ℕ) (e : Exchange) : Program Block Bool := do
  let results ← packageResults A test
  match e with
  | .unsent => return false
  | .unsized =>
    free results
    return false
  | .unread memory =>
    free results
    let _ ← malloc A (.text memory)
    return false
  | .read v memory =>
    free results
    let results ← malloc A (.text memory)
    if ← parse_results test results v then
      free results
      return true
    else return false

def iperf_free_stream (sp : ℕ) : Program Block Unit := do
  let s ← loadAs streamKind sp
  free s.buffer
  let rp ← loadAs resultKind s.result
  freeEach intervalKind IntervalBlock.next rp.interval_results
  free s.result
  free s.send_timer
  free sp

def iperf_free_test (test : ℕ) : Program Block Unit := do
  let _ ← loopBlocks (fun _ => do
    let t ← loadAs testKind test
    if t.streams = 0 then return none
    else
      -- SLIST_REMOVE_HEAD
      let s ← loadAs streamKind t.streams
      update testKind test ({ · with streams := s.streams })
      iperf_free_stream t.streams
      return some ()) ()
  let t ← loadAs testKind test
  free t.server_hostname
  free t.bind_address
  free t.settings
  free t.timer
  free t.stats_timer
  free t.reporter_timer
  let _ ← loopBlocks (fun _ => do
    let t ← loadAs testKind test
    if t.protocols = 0 then return none
    else
      let b ← loadAs protocolKind t.protocols
      update testKind test ({ · with protocols := b.protocols })
      free t.protocols
      return some ()) ()
  free test

end Functions

end IperfMemory
