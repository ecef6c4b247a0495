import VideoEditorOffloading.IperfDatagrams
import VideoEditorOffloading.IperfResults

/-! # The client of the native bandwidth test

`iperf_run_client` reads messages of one byte from the control connection, sends blocks on the
streams while the state is TEST_RUNNING, and returns when the state is IPERF_DONE. How system calls
end in one pass of its loop is given from outside; so is what the timers say. A clock never fails,
and small blocks can always be allocated. -/
namespace Iperf

open DecimalText SegmentedStreams

inductive Select where
  | error (e : Errno)
  | timeout
  /-- Some of the descriptors are ready. -/
  | ready
  deriving DecidableEq, Repr

inductive ConnectionError where
  | IESENDCOOKIE
  | IESETNODELAY
  | IESETMSS
  | IESETBUF
  | IESETTOS
  | IESETCOS
  | IECREATESTREAM
  | IEINITSTREAM
  | IESTREAMCONNECT
  | IESTREAMWRITE
  | IESTREAMREAD
  deriving DecidableEq, Repr

def ConnectionError.code : ConnectionError → ℕ
  | .IESENDCOOKIE => 15
  | .IESETNODELAY => 32
  | .IESETMSS => 33
  | .IESETBUF => 34
  | .IESETTOS => 35
  | .IESETCOS => 36
  | .IECREATESTREAM => 41
  | .IEINITSTREAM => 42
  | .IESTREAMCONNECT => 44
  | .IESTREAMWRITE => 46
  | .IESTREAMREAD => 47

inductive Connection where
  | refused (e : ConnectionError)
  | opened (socket : ℕ) (buffer : ℕ → UInt8)

structure StreamCalls where
  reads : Reads := []
  writes : Writes := []
  /-- `timer_expired (sp->send_timer)` -/
  expired : Bool := false
  before : Timeval := ⟨0, 0⟩
  arrival_time : Timeval := ⟨0, 0⟩

structure Pass where
  select : Select
  ctrl_ready : Bool := false
  memory : Memory := {}
  /-- For `iperf_create_streams`; a missing one never ends. -/
  connections : List Connection := []
  start_times : ℕ → Timeval := fun _ => ⟨0, 0⟩
  stream_select : Select := .timeout
  /-- The sockets of the streams that are ready. -/
  stream_ready : List ℕ := []
  calls : ℕ → StreamCalls := fun _ => {}
  stats_expired : Bool := false
  reporter_expired : Bool := false
  expired : Bool := false
  interval_times : ℕ → Timeval := fun _ => ⟨0, 0⟩
  end_times : ℕ → Timeval := fun _ => ⟨0, 0⟩
  cpu_util : ℚ := 0

section Parameters

/-- `snprintf (optbuf, …, "-c %d ", x)`, if `x` is not 0 -/
def option (c : UInt8) (x : ℤ) : List UInt8 :=
  if x = 0 then [] else [45, c, 32] ++ intText x ++ [32]

def flag (c : UInt8) (b : Bool) : List UInt8 := if b then [45, c, 32] else []

def protocolFlag : Prot → List UInt8
  | .Ptcp => [45, 112, 32]
  | .Pudp => [45, 117, 32]

/-- The options behind the first byte of `pstring`. -/
def parameters (test : Test) : List UInt8 :=
  protocolFlag test.protocol ++
  ([45, 80, 32] ++ intText test.num_streams ++ [32]) ++
  flag 82 test.reverse ++
  option 119 test.settings.socket_bufsize ++
  option 98 test.settings.rate.toNat ++
  option 109 test.settings.mss ++
  flag 78 test.no_delay ++
  option 110 test.settings.bytes.toNat ++
  option 116 test.duration ++
  option 108 test.settings.blksize ++
  option 83 test.settings.tos

/-- The first byte is the length of what follows. The string must fit into `pstring`. -/
def package_parameters : Native Unit := do
  let p ← get
  let options := parameters p.test
  if 256 ≤ options.length + 1 then throw (.stuck .crashed)
  if (← writeCtrl (UInt8.ofNat options.length :: options)) < 0 then fail IESENDPARAMS

def iperf_exchange_parameters : Native Unit := package_parameters

end Parameters

section Streams

def createStreams : ℕ → List Connection → Native Unit
  | 0, _ => return
  | _ + 1, [] => throw (.stuck .blocked)
  | _ + 1, .refused e :: _ => fail e.code
  | n + 1, .opened socket buffer :: connections => do
    modifyTest fun test =>
      let sp := { socket, buffer := (List.range test.settings.blksize).map buffer }
      { test with streams := iperf_add_stream test.streams sp }
    createStreams n connections

def iperf_create_streams (pass : Pass) : Native Unit := do
  let p ← get
  createStreams p.test.num_streams pass.connections

/-- `iperf_udp_init`; there is nothing to do for TCP. -/
def protocolInit : Native Unit := do
  let p ← get
  match p.test.protocol with
  | .Ptcp => return
  | .Pudp =>
    let _ ← lift (sendDelay p.test.settings)
    modifyTest fun test => { test with streams := test.streams.map ({ · with send_timer := true }) }

def Stream.start (now : Timeval) (sp : Stream) : Stream :=
  { sp with result := { sp.result with start_time := now } }

def iperf_init_test (pass : Pass) : Native Unit := do
  protocolInit
  modifyTest fun test => { test with
    timer := test.timer || test.settings.bytes == 0
    stats_timer := test.stats_timer || test.stats_interval != 0
    reporter_timer := test.reporter_timer || test.reporter_interval != 0
    streams := test.streams.mapIdx fun i sp => sp.start (pass.start_times i) }

def snd (prot : Prot) (settings : Settings) (calls : StreamCalls) (sp : Stream) :
    Except Stuck (Stream × ℤ) :=
  match prot with
  | .Ptcp => iperf_tcp_send sp calls.writes
  | .Pudp => iperf_udp_send settings sp calls.expired calls.before calls.writes

def rcv (prot : Prot) (calls : StreamCalls) (sp : Stream) : Except Stuck (Stream × ℤ) :=
  match prot with
  | .Ptcp => iperf_tcp_recv sp calls.reads
  | .Pudp => iperf_udp_recv sp calls.reads calls.arrival_time

/-- The loop over the streams. The result of a call is kept as an unsigned number, and then compared
with 0. The third part says whether the loop has been left for that. -/
def transfer (call : Stream → Except Stuck (Stream × ℤ)) :
    List ℕ → List Stream → iperf_size_t → Except Stuck (List Stream × iperf_size_t × Bool)
  | _, [], bytes_sent => return ([], bytes_sent, false)
  | ready, sp :: streams, bytes_sent =>
    if sp.socket ∈ ready then do
      let (sp, result) ← call sp
      if UInt64.ofInt result < 0 then return (sp :: streams, bytes_sent, true)
      let (streams, bytes_sent, left) ←
        transfer call (ready.filter (· ≠ sp.socket)) streams (bytes_sent + UInt64.ofInt result)
      return (sp :: streams, bytes_sent, left)
    else do
      let (streams, bytes_sent, left) ← transfer call ready streams bytes_sent
      return (sp :: streams, bytes_sent, left)

def transferAll (pass : Pass) (call : Stream → Except Stuck (Stream × ℤ)) (e : ℕ) : Native Unit := do
  let p ← get
  let (streams, bytes_sent, left) ←
    lift (transfer call pass.stream_ready p.test.streams p.test.bytes_sent)
  modifyTest fun test => { test with streams, bytes_sent }
  if left then fail e

def iperf_send (pass : Pass) : Native Unit := do
  let p ← get
  match pass.stream_select with
  | .error e => if e ≠ .EINTR then fail IESELECT
  | .timeout => return
  | .ready =>
    transferAll pass (fun sp => snd p.test.protocol p.test.settings (pass.calls sp.socket) sp)
      IESTREAMWRITE

/-- Here an interrupted `select` is an error. -/
def iperf_recv (pass : Pass) : Native Unit := do
  let p ← get
  match pass.stream_select with
  | .error _ => fail IESELECT
  | .timeout => return
  | .ready =>
    transferAll pass (fun sp => rcv p.test.protocol (pass.calls sp.socket) sp) IESTREAMREAD

def all_data_sent (test : Test) : Bool :=
  0 < test.settings.bytes && UInt64.ofNat test.num_streams * test.settings.bytes ≤ test.bytes_sent

end Streams

section Callbacks

def iperf_stats_callback (times : ℕ → Timeval) : Native Unit :=
  modifyTest fun test =>
    { test with streams := test.streams.mapIdx fun i sp => sp.stats test.direction (times i) }

/-- `'A'` and `'a'` -/
inductive Format where
  | bytes
  | bits
  deriving DecidableEq, Repr

/-- How often `tmpNum` is divided, which is an index of tables with four entries. The condition
`conv <= GIGA_CONV` lets it become 4. -/
def unitIndex (unit : ℚ) : ℕ → ℚ → ℕ
  | 0, _ => 0
  | n + 1, tmpNum => if unit ≤ tmpNum then unitIndex unit n (tmpNum / unit) + 1 else 0

/-- `none` is Infinity. The text is left out. -/
def unit_snprintf (inNum : Option ℚ) (inFormat : Format) : Except Stuck Unit :=
  let conv := match inNum, inFormat with
    | none, _ => 4
    | some inNum, .bytes => unitIndex 1024 4 inNum
    | some inNum, .bits => unitIndex 1000 4 (inNum * 8)
  if conv < 4 then return () else throw .crashed

/-- `bytes / time`. What is no number compares like 0. -/
def perSecond (bytes : iperf_size_t) (time : ℚ) : Option ℚ :=
  if time = 0 ∧ bytes ≠ 0 then none else some (bytes.toNat / time)

/-- The two numbers of a line; `unit_format` is `'a'`. -/
def printLine (bytes : iperf_size_t) (time : ℚ) : Except Stuck Unit := do
  unit_snprintf (some bytes.toNat) .bytes
  unit_snprintf (perSecond bytes time) .bits

def IntervalResults.interval_duration (ir : IntervalResults) : ℚ :=
  timeval_diff ir.interval_start_time ir.interval_end_time

def StreamResult.last_interval_results (rp : StreamResult) : Option IntervalResults :=
  rp.interval_results.getLast?

def print_interval_results (sp : Stream) : Except Stuck Unit :=
  match sp.result.last_interval_results with
  | none => return ()
  | some ir => printLine ir.bytes_transferred ir.interval_duration

def printIntervals : List Stream → iperf_size_t → Except Stuck iperf_size_t
  | [], bytes => return bytes
  | sp :: streams, bytes => do
    print_interval_results sp
    match sp.result.last_interval_results with
    | none => throw .crashed
    | some ir => printIntervals streams (bytes + ir.bytes_transferred)

/-- The sum has the times of the first stream. -/
def printIntermediate (test : Test) : Except Stuck Unit := do
  let bytes ← printIntervals test.streams 0
  if bytes ≠ 0 ∧ 1 < test.num_streams then
    match test.streams.head?.bind (·.result.last_interval_results) with
    | none => throw .crashed
    | some ip => printLine bytes ip.interval_duration

def iperf_print_intermediate : Native Unit := do
  let p ← get
  lift (printIntermediate p.test)

def printTotals (end_time : ℚ) : List Stream → Except Stuck Unit
  | [] => return ()
  | sp :: streams => do
    if 0 < sp.result.bytes_sent then printLine sp.result.bytes_sent end_time
    if 0 < sp.result.bytes_received then printLine sp.result.bytes_received end_time
    printTotals end_time streams

def printResults (test : Test) (end_time : ℚ) : Except Stuck Unit := do
  printTotals end_time test.streams
  if 1 < test.num_streams then
    printLine (sum (·.bytes_sent) test.streams) end_time
    if test.protocol = .Ptcp then printLine (sum (·.bytes_received) test.streams) end_time

/-- It reads the times of the first stream, and sets what the getters return. -/
def iperf_print_results : Native Unit := do
  let p ← get
  match p.test.streams with
  | [] => throw (.stuck .crashed)
  | sp :: _ =>
    let end_time := timeval_diff sp.result.start_time sp.result.end_time
    lift (printResults p.test end_time)
    modifyTest fun test => { test with
      total_sent := sum (·.bytes_sent) test.streams
      total_recv := sum (·.bytes_received) test.streams
      total_time := end_time }

def iperf_reporter_callback : Native Unit := do
  let p ← get
  if p.test.state = TEST_RUNNING ∨ p.test.state = STREAM_RUNNING then iperf_print_intermediate
  else if p.test.state = DISPLAY_RESULTS then
    iperf_print_intermediate
    iperf_print_results

end Callbacks

section Messages

def setState (state : ℕ) : Native Unit := modifyTest fun test => { test with state }

def announce (state : ℕ) : Native Unit := do
  setState state
  if (← writeCtrl [UInt8.ofNat state]) < 0 then fail IESENDMESSAGE

def iperf_client_end : Native Unit := do
  iperf_reporter_callback
  announce IPERF_DONE

def ignore (x : Native Unit) : Native Unit := fun p =>
  match x p with
  | .error .failed p => .ok () p
  | result => result

/-- `read (test->ctrl_sck, &test->state, sizeof(char))`: one call, into the lowest byte of `state`. -/
def readState : Native Unit := do
  let p ← get
  let g := receive 1 p.ctrl.reads
  set { p with ctrl := { p.ctrl with reads := g.left } }
  match g.stop, g.got with
  | .full, [b] => modifyTest fun test => { test with state := test.state / 256 * 256 + b.toNat }
  | .blocked, _ => throw (.stuck .blocked)
  | .closed, _ => fail IECTRLCLOSE
  | _, _ => fail IERECVMESSAGE

def errnoBytes (e : ℕ) : List UInt8 := (htonl e).reverse

/-- The two numbers behind SERVER_ERROR; `errno` itself is left out. -/
def readServerError : Native Unit := do
  let p ← get
  let r ← readCtrl 4
  if r.result < 0 then fail IECTRLREAD
  modify fun p' => { p' with i_errno := ntohl (overlay r.buf (errnoBytes p.i_errno)) }
  let r ← readCtrl 4
  if r.result < 0 then fail IECTRLREAD
  throw .failed

def iperf_handle_message_client (pass : Pass) : Native Unit := do
  readState
  let p ← get
  let state := p.test.state
  if state = PARAM_EXCHANGE then iperf_exchange_parameters
  else if state = CREATE_STREAMS then iperf_create_streams pass
  else if state = TEST_START then iperf_init_test pass
  else if state = TEST_RUNNING then return
  else if state = EXCHANGE_RESULTS then iperf_exchange_results pass.memory
  else if state = DISPLAY_RESULTS then ignore iperf_client_end
  else if state = IPERF_DONE then return
  else if state = SERVER_TERMINATE then fail IESERVERTERM
  else if state = ACCESS_DENIED then fail IEACCESSDENIED
  else if state = SERVER_ERROR then readServerError
  else fail IEMESSAGE

end Messages

section Loop

def transferData (pass : Pass) : Native Unit := do
  let p ← get
  if p.test.reverse then iperf_recv pass else iperf_send pass

def performCallbacks (pass : Pass) : Native Unit := do
  let p ← get
  if p.test.stats_timer && pass.stats_expired then iperf_stats_callback pass.interval_times
  if p.test.reporter_timer && pass.reporter_expired then iperf_reporter_callback

def sendTestEnd (pass : Pass) : Native Unit := do
  let p ← get
  if all_data_sent p.test || (p.test.timer && pass.expired) then
    modifyTest fun test => { test with cpu_util := pass.cpu_util }
    iperf_stats_callback pass.end_times
    announce TEST_END

def whileRunning (pass : Pass) : Native Unit := do
  transferData pass
  performCallbacks pass
  sendTestEnd pass

def loopBody (pass : Pass) : Native Unit := do
  match pass.select with
  | .error e => if e ≠ .EINTR then fail IESELECT
  | .timeout => return
  | .ready =>
    if pass.ctrl_ready then iperf_handle_message_client pass
    let p ← get
    if p.test.state = TEST_RUNNING then whileRunning pass

/-- `cookie` has 37 bytes; without one `netdial` fails. -/
def iperf_connect (cookie : Option (List UInt8)) : Native Unit :=
  match cookie with
  | none => fail IECONNECT
  | some cookie => do
    modifyTest fun test => { test with cookie }
    if (← writeCtrl cookie) < 0 then fail IESENDCOOKIE

inductive Status where
  | starting
  | running
  /-- `iperf_run_client` has returned 0. -/
  | returned
  | ended (e : Ending)
  deriving DecidableEq, Repr

structure Client where
  process : Process
  status : Status := .starting
  deriving DecidableEq

def Client.after (result : EStateM.Result Ending Process Unit) : Client :=
  match result with
  | .ok _ p => ⟨p, if p.test.state = IPERF_DONE then .returned else .running⟩
  | .error e p => ⟨p, .ended e⟩

inductive Event where
  | connect (cookie : Option (List UInt8))
  | pass (pass : Pass)

def next (x : Client) : Event → Option Client
  | .connect cookie =>
    if x.status = .starting then some (.after (iperf_connect cookie x.process)) else none
  | .pass pass => if x.status = .running then some (.after (loopBody pass x.process)) else none

end Loop

end Iperf
