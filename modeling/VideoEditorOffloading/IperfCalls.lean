import VideoEditorOffloading.IperfLaunches

/-! # Calls on linked lists

A sequence of calls without addresses determines the operations on the blocks. -/
namespace IperfMemory

open Iperf OwnedCells

section Calls

variable (A : Allocator Block) {p p' : Process} {test : ℕ} {c : Cells Block} {t : Test}

/-- The functions of the model without addresses. -/
inductive Call where
  | create (pass : Pass)
  | init (pass : Pass)
  | send (pass : Pass)
  | stats (times : ℕ → Timeval)
  | report

def Call.native : Call → Native Unit
  | .create pass => Iperf.iperf_create_streams pass
  | .init pass => Iperf.iperf_init_test pass
  | .send pass => Iperf.iperf_send pass
  | .stats times => Iperf.iperf_stats_callback times
  | .report => Iperf.iperf_reporter_callback

def Call.isInit : Call → Bool
  | .init _ => true
  | _ => false

def callAll : List Call → Native Unit
  | [] => pure ()
  | call :: calls => do
    call.native
    callAll calls

def created : Connection → Option Operation
  | .opened s contents => some (.create s contents)
  | .refused _ => none

/-- What `iperf_tcp_send` returns, stream after stream. A socket is sent to once. -/
def sendResults (calls : ℕ → StreamCalls) : List ℕ → List Stream → List (Option ℤ)
  | _, [] => []
  | ready, sp :: streams =>
    if sp.socket ∈ ready then
      (Iperf.iperf_tcp_send sp (calls sp.socket).writes).toOption.map Prod.snd ::
        sendResults calls (ready.filter (· ≠ sp.socket)) streams
    else none :: sendResults calls ready streams

/-- What a call does to the memory of a test, if it succeeds. -/
def Call.operations (t : Test) : Call → List Operation
  | .create pass => (pass.connections.take t.num_streams).filterMap created
  | .init pass => [.init pass.start_times]
  | .send pass =>
    match pass.stream_select with
    | .ready => [.send (sendResults pass.calls pass.stream_ready t.streams)]
    | _ => []
  | .stats times => [.stats times]
  | .report =>
    if t.state = TEST_RUNNING ∨ t.state = STREAM_RUNNING then [.report false]
    else if t.state = DISPLAY_RESULTS then [.report true]
    else []

/-- Each call finds the test as the calls before it have left it. -/
def operations : Test → List Call → List Operation
  | _, [] => []
  | t, call :: calls => call.operations t ++ operations (effects (call.operations t) t) calls

theorem native_bind_ok {α β : Type} {x : Native α} {f : α → Native β} {b : β}
    (h : (x >>= f) p = .ok b p') : ∃ a q, x p = .ok a q ∧ f a q = .ok b p' := by
  cases hx : x p with
  | ok a q =>
    rw [bind_ok hx] at h
    exact ⟨a, q, rfl, h⟩
  | error e q =>
    rw [bind_error hx] at h
    cases h

/-- The operations make of the test what the call makes of it. -/
structure Performs (t t' : Test) (ops : List Operation) : Prop where
  effects : t' = effects ops t
  sound : Sound t ops

theorem createStreams_performs {n : ℕ} {connections : List Connection}
    (h : createStreams n connections p = .ok () p') :
    Performs p.test p'.test ((connections.take n).filterMap created) := by
  induction n generalizing connections p with
  | zero =>
    cases h
    exact ⟨rfl, trivial⟩
  | succ n ih =>
    rcases connections with _ | ⟨⟨e⟩ | ⟨s, contents⟩, connections⟩
    · cases h
    · cases h
    · rw [createStreams, modifyTest_bind] at h
      obtain ⟨htest, hsound⟩ := ih h
      exact ⟨htest, trivial, hsound⟩

/-- One pass of the loop of `iperf_send` over the streams. -/
theorem transfer_results {calls : ℕ → StreamCalls} {ready : List ℕ}
    {streams streams' : List Stream} {n n' : iperf_size_t} {left : Bool}
    (h : transfer (fun sp => Iperf.iperf_tcp_send sp (calls sp.socket).writes) ready streams n =
      .ok (streams', n', left)) :
    streams' = streams.mapIdx (fun i sp =>
      sentBlock ((sendResults calls ready streams).getD i none) sp) ∧
      n' = (sendResults calls ready streams).foldl addResult n := by
  induction streams generalizing ready n streams' with
  | nil =>
    cases h
    exact ⟨rfl, rfl⟩
  | cons sp streams ih =>
    rw [transfer] at h
    rw [sendResults, List.mapIdx_cons]
    split at h
    · next hready =>
      obtain ⟨⟨sp₁, r⟩, hsp, h⟩ := bind_eq_ok.mp h
      have hsent : sp₁ = sentBlock (some r) sp := by
        rcases iperf_tcp_send_spec hsp with ⟨rfl, rfl⟩ | ⟨hr, hsp₁⟩
        · rfl
        · rw [hsp₁, sentBlock, if_neg (by omega)]
      have hsocket : sp₁.socket = sp.socket := by
        rw [hsent]
        exact (sentBlock_same _ sp).1
      dsimp only at h
      rw [if_neg UInt64.not_lt_zero, hsocket] at h
      obtain ⟨⟨rest, bytes, left₁⟩, hrest, h⟩ := bind_eq_ok.mp h
      cases h
      obtain ⟨hstreams, hbytes⟩ := ih hrest
      rw [if_pos hready, hsp, hstreams, hbytes, hsent]
      exact ⟨rfl, rfl⟩
    · next hready =>
      obtain ⟨⟨rest, bytes, left₁⟩, hrest, h⟩ := bind_eq_ok.mp h
      cases h
      obtain ⟨hstreams, hbytes⟩ := ih hrest
      rw [if_neg hready, hstreams, hbytes]
      exact ⟨rfl, rfl⟩

theorem iperf_send_performs {pass : Pass} (hprot : p.test.protocol = .Ptcp)
    (h : Iperf.iperf_send pass p = .ok () p') :
    Performs p.test p'.test ((Call.send pass).operations p.test) := by
  rw [Iperf.iperf_send, get_bind] at h
  rw [Call.operations]
  cases hselect : pass.stream_select with
  | error e =>
    simp only [hselect] at h ⊢
    split at h
    · cases h
    · cases h
      exact ⟨rfl, trivial⟩
  | timeout =>
    simp only [hselect] at h ⊢
    cases h
    exact ⟨rfl, trivial⟩
  | ready =>
    simp only [hselect] at h ⊢
    rw [transferAll, get_bind] at h
    obtain ⟨⟨streams, bytes_sent, left⟩, q, hmoved, hend⟩ := native_bind_ok h
    obtain ⟨htransfer, rfl⟩ := lift_process hmoved
    simp only [snd, hprot] at htransfer
    obtain ⟨hstreams, hbytes⟩ := transfer_results htransfer
    dsimp only at hend
    rw [modifyTest_bind] at hend
    split at hend
    · cases hend
    · cases hend
      refine ⟨?_, trivial, trivial⟩
      rw [hstreams, hbytes]
      rfl

theorem iperf_init_test_performs {pass : Pass} (hprot : p.test.protocol = .Ptcp)
    (h : Iperf.iperf_init_test pass p = .ok () p') :
    Performs p.test p'.test [.init pass.start_times] := by
  have hinit : Iperf.protocolInit p = .ok () p := by
    rw [Iperf.protocolInit, get_bind, hprot]
    rfl
  rw [Iperf.iperf_init_test, bind_ok hinit] at h
  cases h
  refine ⟨?_, trivial, trivial⟩
  simp only [effects, List.foldl_cons, List.foldl_nil, Operation.effect, initialized,
    protocolInitialized, hprot]

/-- A report that has not crashed has found what it dereferences. -/
theorem reporter_performs (h : Iperf.iperf_reporter_callback p = .ok () p') :
    Performs p.test p'.test (Call.report.operations p.test) := by
  rw [Call.operations]
  by_cases hrunning : p.test.state = TEST_RUNNING ∨ p.test.state = STREAM_RUNNING
  · rw [Iperf.iperf_reporter_callback, get_bind, if_pos hrunning, Iperf.iperf_print_intermediate,
      get_bind] at h
    obtain ⟨hprint, rfl⟩ := lift_process h
    obtain ⟨bytes, hintervals, -⟩ := bind_eq_ok.mp hprint
    rw [if_pos hrunning]
    refine ⟨rfl, ⟨printIntervals_some hintervals, ?_⟩, trivial⟩
    intro hlast
    cases hlast
  · rw [if_neg hrunning]
    by_cases hdisplay : p.test.state = DISPLAY_RESULTS
    · rw [if_pos hdisplay]
      rcases reporter_cases hdisplay with ⟨e, hstuck⟩ | ⟨sp, rest, hstreams, hintervals, hok⟩
      · rw [hstuck] at h
        cases h
      · rw [hok] at h
        cases h
        refine ⟨?_, ⟨hintervals, fun _ => ?_⟩, trivial⟩
        · simp only [effects, List.foldl_cons, List.foldl_nil, Operation.effect, if_true,
            summarized, hstreams, Process.summarize]
        · rw [hstreams]
          exact List.cons_ne_nil sp rest
    · rw [Iperf.iperf_reporter_callback, get_bind, if_neg hrunning, if_neg hdisplay] at h
      cases h
      rw [if_neg hdisplay]
      exact ⟨rfl, trivial⟩

theorem native_performs {call : Call} (hprot : p.test.protocol = .Ptcp)
    (h : call.native p = .ok () p') : Performs p.test p'.test (call.operations p.test) := by
  cases call with
  | create pass => exact createStreams_performs h
  | init pass => exact iperf_init_test_performs hprot h
  | send pass => exact iperf_send_performs hprot h
  | stats times =>
    cases h
    exact ⟨rfl, trivial, trivial⟩
  | report => exact reporter_performs h

theorem countP_created (connections : List Connection) :
    (connections.filterMap created).countP Operation.isInit = 0 := by
  induction connections with
  | nil => rfl
  | cons connection connections ih =>
    cases connection with
    | refused e => exact ih
    | opened s contents => exact ih

/-- Only `iperf_init_test` initializes. -/
theorem countP_operations (call : Call) (t : Test) :
    (call.operations t).countP Operation.isInit = if call.isInit then 1 else 0 := by
  cases call with
  | create pass => exact countP_created _
  | init pass => rfl
  | send pass =>
    rw [Call.operations]
    split <;> rfl
  | stats times => rfl
  | report =>
    rw [Call.operations]
    split
    · rfl
    · split <;> rfl

theorem effects_protocol {ops : List Operation} {t : Test} (hprot : t.protocol = .Ptcp) :
    (effects ops t).protocol = .Ptcp := by
  induction ops generalizing t with
  | nil => exact hprot
  | cons op ops ih => exact ih (effect_protocol hprot)

theorem callAll_performs {calls : List Call} (hprot : p.test.protocol = .Ptcp)
    (h : callAll calls p = .ok () p') :
    Performs p.test p'.test (operations p.test calls) ∧
      (operations p.test calls).countP Operation.isInit = calls.countP Call.isInit := by
  induction calls generalizing p with
  | nil =>
    cases h
    exact ⟨⟨rfl, trivial⟩, rfl⟩
  | cons call calls ih =>
    obtain ⟨⟨⟩, q, hcall, hcalls⟩ := native_bind_ok h
    obtain ⟨hq, hsound⟩ := native_performs hprot hcall
    have hprot' : q.test.protocol = .Ptcp := by
      rw [hq]
      exact effects_protocol hprot
    obtain ⟨⟨hp', hsound'⟩, hcount⟩ := ih hprot' hcalls
    rw [hq] at hp' hsound' hcount
    refine ⟨⟨?_, sound_append hsound hsound'⟩, ?_⟩
    · rw [hp', operations, effects, effects, effects, List.foldl_append]
    · rw [operations, List.countP_append, hcount, countP_operations, List.countP_cons, add_comm]

/-- What a sequence of calls makes of a test, their operations make of the blocks that hold it,
without a fault, and of nothing else. -/
theorem calls_refined (calls : List Call) (hprot : p.test.protocol = .Ptcp)
    (huntimed : Untimed p.test) (honce : calls.countP Call.isInit ≤ 1)
    (h : callAll calls p = .ok () p') (hc : Holds test p.test c) :
    p'.test = effects (operations p.test calls) p.test ∧
      Spec c (executeAll A test (operations p.test calls)) fun _ c' => Holds test p'.test c' := by
  obtain ⟨⟨htest, hsound⟩, hcount⟩ := callAll_performs hprot h
  refine ⟨htest, ?_⟩
  rw [htest]
  exact spec_executeAll A _ ⟨hprot, hcount.trans_le honce, .inl huntimed, hsound⟩ hc

def exampleProcess : Process where
  test := { role := .client, state := DISPLAY_RESULTS, settings := { blksize := 2 } }
  ctrl := { reads := [], writes := [] }

/-- One block of two bytes goes out, and a report is made. -/
def exampleCalls : List Call :=
  [.create { select := .timeout, connections := [.opened 7 fun _ => 0] },
    .init { select := .timeout },
    .send { select := .timeout, stream_select := .ready, stream_ready := [7],
            calls := fun _ => { writes := [.took 1, .took 1] } },
    .stats fun _ => ⟨1, 0⟩, .report]

theorem calls_refined_example : ∃ c p', callAll exampleCalls exampleProcess = .ok () p' ∧
    p'.test.total_sent = 2 ∧ (operations exampleProcess.test exampleCalls).length = 5 ∧
    Spec c (executeAll (Allocator.above Block) 1 (operations exampleProcess.test exampleCalls))
      fun _ c' => Holds 1 p'.test c' := by
  have hsent : EStateM.run' (do callAll exampleCalls; return (← get).test.total_sent)
      exampleProcess = some 2 := by decide +kernel
  cases hrun : callAll exampleCalls exampleProcess with
  | error e p' =>
    rw [EStateM.run', EStateM.run, bind_error hrun] at hsent
    cases hsent
  | ok u p' =>
    rw [EStateM.run', EStateM.run, bind_ok hrun] at hsent
    obtain ⟨c, hc⟩ : ∃ c, Holds 1 exampleProcess.test c :=
      ⟨_, ⟨2, 3, 4, 5, 0, 0, 0, 0, [49], [], []⟩, ⟨by decide, rfl, rfl, List.forall_mem_nil _,
        List.forall_mem_nil _, rfl, rfl, rfl⟩, rfl⟩
    have hrefined := calls_refined (Allocator.above Block) exampleCalls rfl
      ⟨rfl, rfl, rfl, List.forall_mem_nil _⟩ (by decide) hrun hc
    exact ⟨c, p', rfl, Option.some.inj hsent, by decide +kernel, hrefined.2⟩

end Calls

end IperfMemory
