import VideoEditorOffloading.IperfStreams

/-! # The test structure and its control connection

A function of the native test works on the structure `iperf_test`, on the global `i_errno` and on
the control connection. It returns, or returns -1, or has no result. -/
namespace Iperf

open SegmentedStreams

inductive Role where
  | client
  | server
  deriving DecidableEq, Repr

structure Settings where
  blksize : ℕ := 128 * 1024
  socket_bufsize : ℤ := 0
  rate : UInt64 := 1024 * 1024
  mss : ℤ := 0
  tos : ℤ := 0
  bytes : iperf_size_t := 0
  deriving DecidableEq, Repr

structure Test where
  role : Role
  protocol : Prot := .Ptcp
  /-- An `int`, as an unsigned number. -/
  state : ℕ := 0
  duration : ℤ := 5
  no_delay : Bool := false
  reverse : Bool := false
  stats_interval : ℚ := 0
  reporter_interval : ℚ := 0
  /-- Whether there are timers. -/
  timer : Bool := false
  stats_timer : Bool := false
  reporter_timer : Bool := false
  cpu_util : ℚ := 0
  remote_cpu_util : ℚ := 0
  num_streams : ℕ := 1
  bytes_sent : iperf_size_t := 0
  total_sent : iperf_size_t := 0
  total_recv : iperf_size_t := 0
  total_time : ℚ := 0
  cookie : List UInt8 := []
  streams : List Stream := []
  settings : Settings := {}
  deriving DecidableEq, Repr

def Test.direction (test : Test) : Direction :=
  match test.role, test.reverse with
  | .client, false | .server, true => .sends
  | _, _ => .receives

section States

def TEST_START : ℕ := 1
def TEST_RUNNING : ℕ := 2
def TEST_END : ℕ := 4
def STREAM_RUNNING : ℕ := 6
def PARAM_EXCHANGE : ℕ := 9
def CREATE_STREAMS : ℕ := 10
def SERVER_TERMINATE : ℕ := 11
def EXCHANGE_RESULTS : ℕ := 13
def DISPLAY_RESULTS : ℕ := 14
def IPERF_DONE : ℕ := 16
/-- -1 -/
def ACCESS_DENIED : ℕ := 2 ^ 32 - 1
/-- -2 -/
def SERVER_ERROR : ℕ := 2 ^ 32 - 2

end States

section Errors

def IECONNECT : ℕ := 13
def IESENDCOOKIE : ℕ := 15
def IECTRLREAD : ℕ := 18
def IECTRLCLOSE : ℕ := 19
def IEMESSAGE : ℕ := 20
def IESENDMESSAGE : ℕ := 21
def IERECVMESSAGE : ℕ := 22
def IESENDPARAMS : ℕ := 23
def IESENDRESULTS : ℕ := 26
def IERECVRESULTS : ℕ := 27
def IESELECT : ℕ := 28
def IESERVERTERM : ℕ := 30
def IEACCESSDENIED : ℕ := 31
def IESTREAMWRITE : ℕ := 46
def IESTREAMREAD : ℕ := 47
def IESTREAMID : ℕ := 49

end Errors

/-- The control connection: what reads and writes on it will meet, and what has been written. -/
structure Control where
  reads : Reads
  writes : Writes
  sent : List UInt8 := []
  deriving DecidableEq

structure Process where
  test : Test
  ctrl : Control
  i_errno : ℕ := 0
  deriving DecidableEq

/-- How a function ends that does not return. -/
inductive Ending where
  | failed
  | stuck (e : Stuck)
  deriving DecidableEq, Repr

abbrev Native := EStateM Ending Process

section Statements

/-- `i_errno = e; return (-1)` -/
def fail {α : Type} (e : ℕ) : Native α := do
  modify fun p => { p with i_errno := e }
  throw .failed

def lift {α : Type} (x : Except Stuck α) : Native α :=
  match x with
  | .ok a => return a
  | .error e => throw (.stuck e)

def modifyTest (f : Test → Test) : Native Unit := modify fun p => { p with test := f p.test }

/-- `Nread` on the control connection, with the bytes it has put into the buffer. -/
def readCtrl (count : ℤ) : Native Read := do
  let p ← get
  let r ← lift (Nread count p.ctrl.reads)
  set { p with ctrl := { p.ctrl with reads := r.left } }
  return r

/-- `Nwrite` on the control connection. What has gone out has gone out, even if it fails. -/
def writeCtrl (buf : List UInt8) : Native ℤ := do
  let p ← get
  let w ← lift (Nwrite .Ptcp buf p.ctrl.writes)
  set { p with ctrl := { p.ctrl with writes := w.left, sent := p.ctrl.sent ++ w.sent } }
  return w.result

variable {p : Process} {α β : Type}

theorem bind_ok {x : Native α} {f : α → Native β} {a : α} {p' : Process} (h : x p = .ok a p') :
    (x >>= f) p = f a p' := by
  simp only [bind, EStateM.bind, h]

theorem bind_error {x : Native α} {f : α → Native β} {e : Ending} {p' : Process}
    (h : x p = .error e p') : (x >>= f) p = .error e p' := by
  simp only [bind, EStateM.bind, h]

theorem get_bind {f : Process → Native α} : (get >>= f) p = f p p := rfl

theorem lift_bind_ok {x : Except Stuck α} {f : α → Native β} {a : α} (h : x = .ok a) :
    (lift x >>= f) p = f a p := by
  rw [h]
  rfl

theorem modifyTest_bind {g : Test → Test} {f : Unit → Native β} :
    (modifyTest g >>= f) p = f () { p with test := g p.test } := rfl

theorem readCtrl_eq (count : ℤ) : readCtrl count p =
    match Nread count p.ctrl.reads with
    | .ok r => .ok r { p with ctrl := { p.ctrl with reads := r.left } }
    | .error e => .error (.stuck e) p := by
  simp only [readCtrl, bind, EStateM.bind, get, getThe, MonadStateOf.get, EStateM.get]
  cases Nread count p.ctrl.reads <;> rfl

theorem writeCtrl_eq (buf : List UInt8) : writeCtrl buf p =
    match Nwrite .Ptcp buf p.ctrl.writes with
    | .ok w => .ok w.result
        { p with ctrl := { p.ctrl with writes := w.left, sent := p.ctrl.sent ++ w.sent } }
    | .error e => .error (.stuck e) p := by
  simp only [writeCtrl, bind, EStateM.bind, get, getThe, MonadStateOf.get, EStateM.get]
  cases Nwrite .Ptcp buf p.ctrl.writes <;> rfl

/-- Every write on the control connection goes through, for `n` bytes. -/
abbrev Control.Open (c : Control) (n : ℕ) : Prop := Willing (writeAgain .Ptcp) n c.writes

theorem open_replicate {c : Control} {n k l : ℕ} (h : c.writes = List.replicate k (.took (l + 1)))
    (hn : n ≤ k) : c.Open n := by
  constructor
  · intro a ha
    rw [h] at ha
    rw [List.eq_of_mem_replicate ha]
    simp
  · rw [h, List.countP_replicate, if_pos rfl]
    exact hn

/-- The process after it has sent `buf`. -/
def Process.sends (p : Process) (buf : List UInt8) (left : Writes) : Process :=
  { p with ctrl := { p.ctrl with writes := left, sent := p.ctrl.sent ++ buf } }

/-- The process after a part of what has arrived has been read. -/
def Process.reads (p : Process) (left : Reads) : Process :=
  { p with ctrl := { p.ctrl with reads := left } }

theorem Process.sends_sends (p : Process) (buf buf' : List UInt8) (left left' : Writes) :
    (p.sends buf left).sends buf' left' = p.sends (buf ++ buf') left' := by
  simp only [Process.sends, List.append_assoc]

theorem writeCtrl_spec {buf : List UInt8} {n : ℕ} (h : p.ctrl.Open (buf.length + n)) :
    ∃ left, writeCtrl buf p = .ok buf.length (p.sends buf left) ∧
      (p.sends buf left).ctrl.Open n := by
  obtain ⟨left, hleft, hwilling⟩ := Nwrite_message h
  refine ⟨left, ?_, hwilling⟩
  rw [writeCtrl_eq, hleft]
  rfl

theorem readCtrl_spec {buf rest : List UInt8} (hsteady : Steady readAgain p.ctrl.reads)
    (hpay : payload p.ctrl.reads = buf ++ rest) :
    ∃ left, readCtrl buf.length p = .ok ⟨buf.length, buf, left⟩ (p.reads left) ∧
      payload left = rest ∧ Steady readAgain left := by
  obtain ⟨left, hleft, hpay', hsteady'⟩ := Nread_message hsteady hpay
  refine ⟨left, ?_, hpay', hsteady'⟩
  rw [readCtrl_eq, hleft]
  rfl

end Statements

end Iperf
