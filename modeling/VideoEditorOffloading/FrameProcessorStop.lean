import VideoEditorOffloading.SealedQueues

/-! # What is left after FrameProcessor.stop

One caller uses a `FrameProcessor` with one pipeline while the effect threads run. `stop` does
not wait for the threads and clears only the two queues at the ends. -/
namespace FrameProcessorStop

open SharedStatePrograms PipelineObjects PipelineOperationSpecs PipelineRuns PipelineWiring
  PipelineThreadLifecycle EffectThreads ServerProtocol ServerReconfiguration SealedQueues

variable {M : Type}

@[simps -fullyApplied]
def World.clear (w : World M) (q : ℕ) : World M :=
  { w with items := Function.update w.items q [] }

/-- Where the caller stands. `stop` executes `pipeline.stop()` and then clears the two queues. -/
inductive Activity where
  | idle
  | editing (code : Code Unit)
  | stopping (code : Code Unit)
  | clearingUnprocessed
  | clearingProcessed

/-- A frame gets the number of frames `submitted` before it. `bound` and `mark` are histories:
the number of frames submitted and the length of the log when the last `stop` returned. -/
structure FrameProcessor (M : Type) where
  world : World M
  activity : Activity
  submitted : ℕ
  bound : ℕ
  mark : ℕ

inductive Call (M : Type) where
  | addFrame (image : M)
  | addEffect (cls : EffectClass)
  | clearEffects
  | start
  | stop

inductive Event (M : Type) where
  | call (c : Call M)
  | caller
  | thread (th : ℕ)
  | getFrame

abbrev unprocessed (x : FrameProcessor M) : ℕ := x.world.state.pipe.unprocessedFrameQueue
abbrev processed (x : FrameProcessor M) : ℕ := x.world.state.pipe.processedFrameQueue

/-- A call begins; `addFrame` is one step. Effects are added as the callers of the server do it,
with a new task each. -/
def accept (x : FrameProcessor M) : Call M → FrameProcessor M
  | .addFrame image =>
    { x with
      world := x.world.offer (unprocessed x) ⟨x.submitted, image⟩
      submitted := x.submitted + 1 }
  | .addEffect cls => { x with activity := .editing (addNewEffect cls) }
  | .clearEffects => { x with activity := .editing PipelineOperations.clearEffects }
  | .start => { x with activity := .editing PipelineOperations.start }
  | .stop => { x with activity := .stopping PipelineOperations.stop }

/-- The next statement of the call. `Pipeline.stop` throws nothing. -/
def callerStep (x : FrameProcessor M) : Option (FrameProcessor M) :=
  match x.activity with
  | .idle => none
  | .editing code =>
    match code.advance World.state World.exec x.world with
    | some (code, world) => some { x with world := world, activity := .editing code }
    | none => some { x with activity := .idle }
  | .stopping code =>
    match code.advance World.state World.exec x.world with
    | some (code, world) => some { x with world := world, activity := .stopping code }
    | none => some { x with activity := .clearingUnprocessed }
  | .clearingUnprocessed =>
    some { x with world := World.clear x.world (unprocessed x), activity := .clearingProcessed }
  | .clearingProcessed =>
    some { x with
      world := World.clear x.world (processed x)
      activity := .idle
      bound := x.submitted
      mark := x.world.log.length }

section System

variable (applyTo : Effect → M → M)

def next (x : FrameProcessor M) : Event M → Option (FrameProcessor M)
  | .call c =>
    match x.activity with
    | .idle => some (accept x c)
    | _ => none
  | .caller => callerStep x
  | .thread th => (threadStep applyTo x.world th).map fun w => { x with world := w }
  | .getFrame =>
    match x.world.items (processed x) with
    | [] => none
    | _ :: _ => some { x with world := x.world.removeFirst (processed x) }

abbrev Execution (ok : FrameProcessor M → Event M → Prop) (x₀ x : FrameProcessor M) : Prop :=
  TransitionSystems.Execution (next applyTo) ok x₀ x

end System

def createTasks : List EffectClass → Code (List ℕ)
  | [] => pure []
  | cls :: classes => do
    let effect ← ref (.newEffect cls)
    let task ← ref (.newTask ⟨effect, cls⟩)
    let tasks ← createTasks classes
    pure (task :: tasks)

def constructor (effects : List EffectClass) : Code Unit := do
  let tasks ← createTasks effects
  let _ ← ref (.newQueue 20)
  let _ ← ref (.newQueue 20)
  PipelineOperations.constructor tasks

def blankWorld : World M where
  state := ⟨emptyHeap, PipelineOperations.blank 0 1⟩
  items _ := []
  capacity _ := 0
  pc _ := .unstarted
  flag _ := false
  log := []

def newFrameProcessor (effects : List EffectClass) : FrameProcessor M where
  world := ((constructor effects).run World.state World.exec blankWorld).2
  activity := .idle
  submitted := 0
  bound := 0
  mark := 0

/-- After `stop` and before the next frame nothing is processed, and what has been put into the
processed queue since `stop` was submitted since `stop`. -/
structure Silenced (x : FrameProcessor M) : Prop where
  empty : x.submitted = x.bound → x.world.items (processed x) = []
  delivered : ∀ f ∈ acceptedAt (processed x) (x.world.log.drop x.mark), x.bound ≤ f.number

/-- A task that a thread will run: the last one, for which every `addEffect` creates a new thread,
and those whose threads have not been started. -/
def Open (s : State) (t : ℕ) : Prop :=
  s.pipe.effectTasks.getLast? = some t ∨
    ∃ th ∈ s.pipe.effectThreads, stateOf s th = .new ∧ taskOf s.heap th = t

/-- A queue from which frames may still get on: the processed queue and what an open task reads. -/
def Outlet (s : State) (q : ℕ) : Prop :=
  q = s.pipe.processedFrameQueue ∨ ∃ t, Open s t ∧ (s.heap.task t).inputQueue = some q

/-- No frame is on its way to the processed queue or into the hands of a later thread: open tasks
find nothing to read, and no thread that has passed its interrupt check will offer its frame to
such a queue. -/
structure Stranded (w : World M) : Prop where
  items : ∀ t q, Open w.state t → (w.state.heap.task t).inputQueue = some q → w.items q = []
  passed : ∀ th g q, w.pc th = .passed g → (w.taskOf th).outputQueue = some q →
    ¬ Outlet w.state q
  offering : ∀ th q g, w.pc th = .offering q g → ¬ Outlet w.state q

/-- At the last statement of every `stop` all frames are stranded. -/
def Careful (x : FrameProcessor M) (e : Event M) : Prop :=
  match x.activity, e with
  | .clearingProcessed, .caller => Stranded x.world
  | _, _ => True

def Closed (Q : ℕ → Prop) (s : State) : Prop :=
  ∀ t q, Open s t → (s.heap.task t).inputQueue = some q → ¬ Q q

structure Orderly (Q : ℕ → Prop) (s : State) : Prop where
  shape : Shape s
  wiring : Wiring s
  unborn : Unborn s
  listed : ∀ th, stateOf s th = .started → th ∈ s.pipe.effectThreads
  entry : ¬ Q s.pipe.unprocessedFrameQueue
  exit : ¬ Q s.pipe.processedFrameQueue
  allocated : ∀ q, Q q → q < s.heap.nextQueue
  closed : Closed Q s

abbrev Respects (Q : ℕ → Prop) (code : Code Unit) (s : State) : Prop :=
  Guarded PipelineObjects.exec Eq (Permitted Q) (fun _ _ => True) code s

/-- The code completes, leaves what is wanted and opens no queue of the set. -/
def Leads (Q : ℕ → Prop) (post : State → Prop) (code : Code Unit) (s : State) : Prop :=
  ∃ m, call code s = (.ok (), m) ∧ post m ∧ Respects Q code s

abbrev Keeps (Q : ℕ → Prop) (code : Code Unit) (s : State) : Prop := Leads Q (Orderly Q) code s

structure Halted (Q : ℕ → Prop) (s : State) : Prop extends Orderly Q s where
  halted : ∀ th, stateOf s th ≠ .started

section Calls

variable {Q : ℕ → Prop} {s m : State} {h : Heap} {p : Pipeline} {t : ℕ}

theorem Open.mem (hs : Shape s) (ho : Open s t) : t ∈ s.pipe.effectTasks := by
  rcases ho with hlast | ⟨th, hth, -, rfl⟩
  · exact List.mem_of_getLast? hlast
  · exact hs.taskOf_mem hth

theorem open_restarted (ho : Open (restarted m) t) : Open m t := by
  rw [Open, restarted_pipe, taskOf_restarted] at ho
  refine ho.imp id ?_
  rintro ⟨th, hth, hnew, ht⟩
  refine ⟨th, hth, ?_, ht⟩
  rw [restarted_state] at hnew
  split at hnew
  · cases hnew
  · exact hnew

theorem Closed.restarted (hc : Closed Q m) : Closed Q (restarted m) := by
  intro t q ho hq
  rw [(restarted_heap m).1] at hq
  exact hc t q (open_restarted ho) hq

theorem orderly_change {code : Code Unit} {kind : Kind} (ho : Orderly Q s)
    (hm : call code s = (.ok (), m)) (hc : Change s [] kind m) (hf : Fresh s kind)
    (hclosed : Closed Q m) : Orderly Q m := by
  have hshape := change_shape hc hf ho.shape
  have ht := change_touch ho.shape.toStaffed hc
  obtain ⟨hu, hp, hn⟩ := call_frame code s
  rw [hm] at hu hp hn
  refine ⟨hshape, change_wiring ho.shape hf hc ho.wiring,
    touch_unborn ht hshape.toStaffed ho.unborn, fun th hst => ?_, by rw [hu]; exact ho.entry,
    by rw [hp]; exact ho.exit, fun q hq => (ho.allocated q hq).trans_le hn, hclosed⟩
  by_contra hout
  rcases (touch_stray ht ho.unborn th).mp ⟨hst, hout⟩ with ⟨hst', hout'⟩ | ⟨hl, -⟩
  · exact hout' (ho.listed th hst')
  · cases hl

def Startable (Q : ℕ → Prop) (h : Heap) (th : ℕ) : Prop :=
  (h.task (taskOf h th)).outputQueue ≠ none ∧
    ∀ p, (h.task (taskOf h th)).inputQueue = some p → ¬ Q p

theorem respects_start
    (hs : ∀ th ∈ s.pipe.effectThreads, stateOf s th = .new → Startable Q s.heap th) :
    Respects Q PipelineOperations.start s := by
  have hloop : Guarded PipelineObjects.exec Eq (Permitted Q)
      (fun _ m => ∀ th ∈ s.pipe.effectThreads, stateOf m th = .new → Startable Q m.heap th)
      (s.pipe.effectThreads.forM PipelineOperations.startIfNew) s := by
    refine guarded_forM (fun th hth m hm => ?_) hs
    by_cases hn : (m.heap.thread th).state = .new
    · simp only [PipelineOperations.startIfNew, field, void, Program.bind_eq, Program.read_bind,
        Program.done_bind, guarded_read, hn, if_true, guarded_act]
      refine ⟨hm th hth hn, ?_⟩
      simp only [PipelineObjects.exec, hn, if_true, guarded_done]
      intro x hx hnew
      have htask : taskOf (m.heap.start th) = taskOf m.heap := by
        funext y
        by_cases hy : y = th <;> simp [taskOf, hy]
      have hold : stateOf m x = .new := by
        by_cases hy : x = th
        · subst x
          exact hn
        · simpa [stateOf, hy] using hnew
      simpa [Startable, htask] using hm x hx hold
    · simpa [PipelineOperations.startIfNew, field, hn] using hm
  simp only [Respects, PipelineOperations.start, field, Program.bind_eq, Program.read_bind,
    Program.done_bind, guarded_read]
  refine guarded_bind (guarded_mono (fun _ m _ => ?_) hloop)
  simp [void, Permitted, PipelineObjects.exec]

theorem respects_startIfRunning
    (hs : ∀ th ∈ s.pipe.effectThreads, stateOf s th = .new → Startable Q s.heap th) :
    Respects Q PipelineOperations.startIfRunning s := by
  by_cases hr : s.pipe.running
  · simpa [Respects, PipelineOperations.startIfRunning, field, hr] using respects_start hs
  · simp [Respects, PipelineOperations.startIfRunning, field, hr]

theorem respects_stop (s : State) : Respects Q PipelineOperations.stop s := by
  have hloop : Guarded PipelineObjects.exec Eq (Permitted Q) (fun _ _ => True)
      (s.pipe.effectThreads.forM fun th => void (.interruptThread th)) s :=
    guarded_forM (fun th _ m _ => by simp [void, Permitted, PipelineObjects.exec]) trivial
  simp only [Respects, PipelineOperations.stop, field, Program.bind_eq, Program.read_bind,
    Program.done_bind, guarded_read]
  refine guarded_bind (guarded_mono (fun _ m _ => ?_) hloop)
  simp [void, Permitted, PipelineObjects.exec]

theorem startable_of_closed (hs : Shape s) (hw : Wiring s) (hc : Closed Q s) {th : ℕ}
    (hth : th ∈ s.pipe.effectThreads) (hnew : stateOf s th = .new) : Startable Q s.heap th :=
  ⟨(ready_of_wiring hs hw hth).2.2, fun q hq => hc _ q (Or.inr ⟨th, hth, hnew, rfl⟩) hq⟩

theorem startable_of_restarted (ho : Orderly Q (restarted m)) (hc : Closed Q m) {th : ℕ}
    (hth : th ∈ m.pipe.effectThreads) (hnew : stateOf m th = .new) : Startable Q m.heap th := by
  have hr := ready_of_wiring ho.shape ho.wiring (by rwa [restarted_pipe] : th ∈ _)
  refine ⟨?_, fun q hq => hc _ q (Or.inr ⟨th, hth, hnew, rfl⟩) hq⟩
  simpa [(restarted_heap m).1] using hr.2.2

theorem orderly_newEffect (ho : Orderly Q ⟨h, p⟩) : Orderly Q ⟨h.newEffect, p⟩ :=
  ⟨⟨⟨ho.shape.aligned, ho.shape.threads_distinct, ho.shape.threads_allocated⟩,
      ho.shape.tasks_distinct, ho.shape.tasks_allocated⟩,
    ⟨ho.wiring.ends, ho.wiring.unprocessed_allocated, ho.wiring.processed_allocated,
      ho.wiring.path⟩,
    ho.unborn, ho.listed, ho.entry, ho.exit, ho.allocated, ho.closed⟩

theorem orderly_newTask (ho : Orderly Q ⟨h, p⟩) (e : Effect) : Orderly Q ⟨h.newTask e, p⟩ := by
  have hcall : call (void (.newTask e)) ⟨h, p⟩ = (.ok (), ⟨h.newTask e, p⟩) := by
    simp [void, exec]
  refine orderly_change ho hcall (.newTask h p e) (plain_fresh _) fun t q hopen hq => ?_
  have hold : Open ⟨h, p⟩ t := hopen
  have ht := ho.shape.tasks_allocated t (hold.mem ho.shape)
  exact ho.closed t q hold (by simpa [ht.ne] using hq)

theorem closed_addLast {uq pq a u : ℕ} {r : Bool} {us xs : List ℕ}
    (ho : Orderly Q ⟨h, ⟨uq, pq, r, us ++ [u], xs ++ [a]⟩⟩) :
    Closed Q ⟨(((((((h.setOutput t (some pq)).interrupt u).newQueue).setOutput a
        (some h.nextQueue)).newThread a).setInput t (some h.nextQueue)).newThread t),
      ⟨uq, pq, r, us ++ [h.nextThread, h.nextThread + 1], xs ++ [a, t]⟩⟩ := by
  intro t₀ q hopen hq hQ
  have hlt := ho.allocated q hQ
  simp only at hlt
  by_cases ht : t₀ = t
  · subst t₀
    obtain rfl : h.nextQueue = q := by simpa using hq
    exact absurd hlt (lt_irrefl _)
  have hq' : (h.task t₀).inputQueue = some q := by
    by_cases ha : t₀ = a
    · subst t₀
      simpa [ht] using hq
    · simpa [ht, ha] using hq
  refine ho.closed t₀ q ?_ hq' hQ
  rcases hopen with hlast | ⟨th, hth, hnew, htask⟩
  · exact absurd (by simpa using hlast) (Ne.symm ht)
  have hcases : th ∈ us ∨ th = h.nextThread ∨ th = h.nextThread + 1 := by simpa using hth
  rcases hcases with hus | rfl | rfl
  · -- a thread that the call leaves in the list
    have hmem : th ∈ us ++ [u] := List.mem_append_left _ hus
    have hlt := ho.shape.threads_allocated th hmem
    have hne : th ≠ u := by
      have hd := ho.shape.threads_distinct
      rintro rfl
      exact (List.nodup_append.mp hd).2.2 th hus th (List.mem_singleton_self th) rfl
    simp only at hlt
    have hlt' : th ≠ h.nextThread + 1 := by omega
    refine Or.inr ⟨th, hmem, ?_, ?_⟩
    · simpa [stateOf, hlt.ne, hlt', hne] using hnew
    · simpa [hlt.ne, hlt'] using htask
  · refine Or.inl ?_
    simpa using htask
  · exact absurd (by simpa using htask.symm) ht

theorem keeps_start (ho : Orderly Q s) : Keeps Q PipelineOperations.start s := by
  have hrespects := respects_start fun th hth hnew =>
    startable_of_closed ho.shape ho.wiring ho.closed hth hnew
  obtain ⟨h, p⟩ := s
  refine ⟨_, call_start h p, ?_, hrespects⟩
  refine orderly_change ho (call_start h p) (.start h p) (plain_fresh _) fun t q hopen hq => ?_
  rcases hopen with hlast | ⟨th, hth, hnew, -⟩
  · exact ho.closed t q (Or.inl hlast) hq
  · -- no thread of the list is new any more
    simp only [stateOf, startAll_thread, hth, if_true, start_state] at hnew
    split at hnew <;> contradiction

theorem leads_stop (ho : Orderly Q s) : Leads Q (Halted Q) PipelineOperations.stop s := by
  have hrespects : Respects Q PipelineOperations.stop s := respects_stop s
  obtain ⟨h, p⟩ := s
  refine ⟨_, call_stop h p, ⟨?_, fun th hst => ?_⟩, hrespects⟩
  · refine orderly_change ho (call_stop h p) (.stop h p) nofun fun t q hopen hq => ?_
    refine ho.closed t q (hopen.imp id ?_) hq
    rintro ⟨th, hth, hnew, htask⟩
    refine ⟨th, hth, ?_, by simpa using htask⟩
    simp only [stateOf, interruptAll_thread, show th ∈ p.effectThreads from hth, if_true,
      interrupt_state] at hnew
    split at hnew
    · cases hnew
    · exact hnew
  · by_cases hth : th ∈ p.effectThreads
    · simp only [stateOf, interruptAll_thread, hth, if_true] at hst
      exact interrupt_not_started _ hst
    · simp only [stateOf, interruptAll_thread, hth, if_false] at hst
      exact hth (ho.listed th hst)

theorem keeps_addLast {uq pq a u : ℕ} {r : Bool} {us xs : List ℕ}
    (ho : Orderly Q ⟨h, ⟨uq, pq, r, us ++ [u], xs ++ [a]⟩⟩)
    (hf : Fresh ⟨h, ⟨uq, pq, r, us ++ [u], xs ++ [a]⟩⟩ (.adds t))
    (hnull : (h.task t).outputQueue = none) :
    Keeps Q (PipelineOperations.addEffect t) ⟨h, ⟨uq, pq, r, us ++ [u], xs ++ [a]⟩⟩ := by
  have hlen := ho.shape.length
  have hcall := call_addEffect_last h uq pq r xs us a u t
  have hclosed := closed_addLast (t := t) ho
  have hm := orderly_change ho hcall
    (.addLast h uq pq r us u xs a t (by simpa using hlen)) hf hclosed.restarted
  refine ⟨_, hcall, hm, ?_⟩
  have hstart := respects_startIfRunning fun th hth hnew =>
    startable_of_restarted hm hclosed hth hnew
  have hta : t ≠ a := by
    rintro rfl
    exact (hf t rfl).2 (by simp)
  have hlast : (h.task a).outputQueue = some pq :=
    (wiring_wellWired ho.wiring (by simp)).last_output a (by simp)
  have hexit : ¬ Q pq := ho.exit
  have hpq : pq ≠ uq := ho.wiring.ends.symm
  have hpq' : pq < h.nextQueue := ho.wiring.processed_allocated
  have huq : h.nextQueue ≠ uq := ho.wiring.unprocessed_allocated.ne'
  have hfresh : ¬ Q h.nextQueue := fun hQ => lt_irrefl _ (ho.allocated _ hQ)
  simpa [Respects, PipelineOperations.addEffect, field, void, ref, PipelineObjects.exec,
    remove_append, effectTasksGet, get_append, State.setTasks, State.setThreads, Permitted,
    Fillable, hnull, hta.symm, hlast, hexit, hpq, hpq', huq, hfresh] using hstart

theorem keeps_addFirst {uq pq : ℕ} {r : Bool} (ho : Orderly Q ⟨h, ⟨uq, pq, r, [], []⟩⟩)
    (hf : Fresh ⟨h, ⟨uq, pq, r, [], []⟩⟩ (.adds t)) (hnull : (h.task t).outputQueue = none) :
    Keeps Q (PipelineOperations.addEffect t) ⟨h, ⟨uq, pq, r, [], []⟩⟩ := by
  have hcall := call_addEffect_empty h uq pq r t
  have hentry : ¬ Q uq := ho.entry
  have hclosed : Closed Q ⟨((h.setOutput t (some pq)).setInput t (some uq)).newThread t,
      ⟨uq, pq, r, [h.nextThread], [t]⟩⟩ := by
    intro t₀ q hopen hq
    obtain rfl : t = t₀ := by
      rcases hopen with hlast | ⟨th, hth, -, htask⟩
      · simpa using hlast
      · obtain rfl : th = h.nextThread := by simpa using hth
        simpa using htask
    obtain rfl : uq = q := by simpa using hq
    exact hentry
  have hm := orderly_change ho hcall (.addFirst h uq pq r t) hf hclosed.restarted
  refine ⟨_, hcall, hm, ?_⟩
  have hstart := respects_startIfRunning fun th hth hnew =>
    startable_of_restarted hm hclosed hth hnew
  have hpq : pq ≠ uq := ho.wiring.ends.symm
  have hpq' : pq < h.nextQueue := ho.wiring.processed_allocated
  simpa [Respects, PipelineOperations.addEffect, field, void, ref, PipelineObjects.exec,
    State.setTasks, State.setThreads, Permitted, Fillable, hnull, hentry, hpq, hpq'] using hstart

theorem keeps_addEffect (ho : Orderly Q s) (hf : Fresh s (.adds t))
    (hnull : (s.heap.task t).outputQueue = none) : Keeps Q (PipelineOperations.addEffect t) s := by
  obtain ⟨h, uq, pq, r, ths, ts⟩ := s
  have hlen := ho.shape.length
  rcases eq_or_ne ts [] with rfl | hne
  · obtain rfl : ths = [] := by simpa using hlen
    exact keeps_addFirst ho hf hnull
  · obtain ⟨xs, a, rfl⟩ := split_last hne
    obtain ⟨us, u, rfl⟩ := split_last (l := ths) (by rintro rfl; simp at hlen)
    exact keeps_addLast ho hf hnull

theorem keeps_addNewEffect (ho : Orderly Q s) (cls : EffectClass) :
    Keeps Q (addNewEffect cls) s := by
  obtain ⟨h, p⟩ := s
  have ho₁ := orderly_newTask (orderly_newEffect ho) ⟨h.nextEffect, cls⟩
  have hf : Fresh ⟨h.newEffect.newTask ⟨h.nextEffect, cls⟩, p⟩ (.adds h.nextTask) := by
    rintro _ ⟨⟩
    refine ⟨by simp, fun hm => ?_⟩
    exact absurd (ho.shape.tasks_allocated _ hm) (lt_irrefl _)
  obtain ⟨m, hm, hom, hrespects⟩ := keeps_addEffect ho₁ hf (by simp)
  refine ⟨m, ?_, hom, ?_⟩
  · simpa [addNewEffect, ref, PipelineObjects.exec] using hm
  · simp only [Respects, addNewEffect, ref, PipelineObjects.exec, Program.bind_eq,
      Program.act_bind, Program.done_bind, guarded_act]
    exact ⟨trivial, trivial, hrespects⟩

theorem respects_createThreads {uq pq : ℕ} {r : Bool} {ths ts : List ℕ}
    (hnew : ∀ th ∈ List.range' h.nextThread ts.length,
      Startable Q (spawn (interruptAll h ths) ts) th) :
    Respects Q PipelineOperations.createThreads ⟨h, ⟨uq, pq, r, ths, ts⟩⟩ := by
  have h1 := call_stop h ⟨uq, pq, r, ths, ts⟩
  have h2 := call_create_loop ts (interruptAll h ths) ⟨uq, pq, false, [], ts⟩
  have hcreate : Guarded PipelineObjects.exec Eq (Permitted Q) (fun _ _ => True)
      (ts.forM PipelineOperations.createThread)
      ⟨interruptAll h ths, ⟨uq, pq, false, [], ts⟩⟩ :=
    guarded_forM (fun th _ t _ => by
      simp [PipelineOperations.createThread, ref, void, Permitted, PipelineObjects.exec]) trivial
  simp only [Respects, PipelineOperations.createThreads, field, Program.bind_eq,
    Program.read_bind, Program.done_bind, guarded_read]
  refine guarded_bind_run (respects_stop _) h1 ?_
  simp only [void, Program.act_bind, guarded_act, PipelineObjects.exec, State.setThreads,
    Program.done_bind, guarded_read]
  refine ⟨trivial, guarded_bind_run hcreate h2 ?_⟩
  cases r with
  | false => simp
  | true => exact respects_start fun th hth _ => hnew th (by simpa [interruptAll] using hth)

theorem keeps_clearEffects (ho : Orderly Q s) : Keeps Q PipelineOperations.clearEffects s := by
  obtain ⟨h, uq, pq, r, ths, ts⟩ := s
  have hcall := call_clearEffects h uq pq r ths ts
  have hentry : ¬ Q uq := ho.entry
  have hclosed : Closed Q ⟨(interruptAll
      (((h.newEffect.newTask ⟨h.nextEffect, .identity⟩).setInput h.nextTask (some uq)).setOutput
        h.nextTask (some pq)) ths).newThread h.nextTask,
      ⟨uq, pq, r, [h.nextThread], [h.nextTask]⟩⟩ := by
    intro t q hopen hq
    obtain rfl : h.nextTask = t := by
      rcases hopen with hlast | ⟨th, hth, -, htask⟩
      · simpa using hlast
      · obtain rfl : th = h.nextThread := by simpa using hth
        simpa using htask
    obtain rfl : uq = q := by simpa using hq
    exact hentry
  refine ⟨_, hcall, orderly_change ho hcall (.clear h uq pq r ths ts) (plain_fresh _)
    hclosed.restarted, ?_⟩
  have hcreate : Respects Q PipelineOperations.createThreads
      ⟨((h.newEffect.newTask ⟨h.nextEffect, .identity⟩).setInput h.nextTask
        (some uq)).setOutput h.nextTask (some pq), ⟨uq, pq, r, ths, [h.nextTask]⟩⟩ := by
    refine respects_createThreads fun th hth => ?_
    obtain rfl : th = h.nextThread := by simpa using hth
    simp [Startable, spawn, hentry]
  have hpq : pq ≠ uq := ho.wiring.ends.symm
  have hpq' : pq < h.nextQueue := ho.wiring.processed_allocated
  simpa [Respects, PipelineOperations.clearEffects, field, void, ref, PipelineObjects.exec,
    State.setTasks, Permitted, Fillable, hentry, hpq, hpq'] using hcreate

end Calls

section Steps

variable {Q : ℕ → Prop} {post : State → Prop} {code code' : Code Unit} {s s' : State}

theorem Leads.advance (h : Leads Q post code s)
    (hadv : code.advance id exec s = some (code', s')) : Leads Q post code' s' := by
  obtain ⟨m, hm, hpost, hrespects⟩ := h
  exact ⟨m, (Program.run_advance hadv).trans hm, hpost, guarded_advance hrespects rfl hadv⟩

theorem Leads.finish (h : Leads Q post code s) {w : World M}
    (hadv : code.advance World.state World.exec w = none) : post s := by
  obtain ⟨m, hm, hpost, -⟩ := h
  cases code with
  | done a =>
    obtain rfl : s = m := congrArg Prod.snd hm
    exact hpost
  | fail e => cases hm
  | read k => cases hadv
  | act i k => cases hadv

structure Tight (Q : ℕ → Prop) (submitted bound : ℕ) (w : World M) : Prop where
  sound : Sound w
  below : Below submitted w
  sealed : Sealed Q bound w

variable {submitted bound : ℕ} {w w' : World M}

theorem tight_advance (ht : Tight Q submitted bound w) (h : Leads Q post code w.state)
    (hadv : code.advance World.state World.exec w = some (code', w')) :
    Tight Q submitted bound w' ∧ w'.log = w.log ∧
      w'.state.pipe.processedFrameQueue = w.state.pipe.processedFrameQueue := by
  obtain ⟨-, -, -, hrespects⟩ := h
  cases code with
  | done a => cases hadv
  | fail e => cases hadv
  | read k =>
    cases hadv
    exact ⟨ht, rfl, rfl⟩
  | act i k =>
    cases hadv
    have hi := (guarded_act i k).mp hrespects
    exact ⟨⟨sound_exec ht.sound hi.1, below_exec ht.below i,
      sealed_exec ht.sound ht.sealed hi.1⟩, rfl, (exec_frame i w.state).2.1⟩

theorem tight_turn {applyTo : Effect → M → M} {th : ℕ} (ht : Tight Q submitted bound w)
    (h : Turn applyTo w th w') : Tight Q submitted bound w' :=
  ⟨sound_turn ht.sound h, below_turn ht.below h, sealed_turn ht.sealed h⟩

/-- What is offered while old frames are shut in, and by whom. -/
theorem turn_log {applyTo : Effect → M → M} {th : ℕ} (h : Turn applyTo w th w') :
    w'.log = w.log ∨ ∃ q g, w.pc th = .offering q g ∧
      (w'.log = w.log ++ [.accepted q g] ∨ w'.log = w.log ++ [.refused q g]) := by
  cases turn_effects h with
  | quiet _ hlog => exact Or.inl hlog
  | took _ _ _ _ _ _ _ _ hlog => exact Or.inl hlog
  | gave q g hpc _ _ _ hlog => exact Or.inr ⟨q, g, hpc, Or.inl hlog⟩
  | refused q g hpc _ _ _ hlog => exact Or.inr ⟨q, g, hpc, Or.inr hlog⟩
  | lost _ _ _ _ hlog => exact Or.inl hlog

theorem tight_removeFirst (ht : Tight Q submitted bound w) (q : ℕ) :
    Tight Q submitted bound (w.removeFirst q) := by
  have hitems := removeFirst_items w q
  refine ⟨ht.sound.of_items rfl rfl rfl fun p hp => ?_,
    ht.below.of_items le_rfl rfl fun p f hf => Or.inl (hitems p f hf),
    ht.sealed.of_items rfl rfl rfl fun p f hf => Or.inl (hitems p f hf)⟩
  obtain ⟨f, hf⟩ := List.exists_mem_of_ne_nil _ hp
  exact Or.inl (List.ne_nil_of_mem (hitems p f hf))

theorem clear_items (w : World M) (q p : ℕ) : ∀ f ∈ (World.clear w q).items p, f ∈ w.items p := by
  intro f hf
  by_cases hx : p = q
  · simp [hx] at hf
  · simpa [hx] using hf

theorem tight_clear (ht : Tight Q submitted bound w) (q : ℕ) :
    Tight Q submitted bound (World.clear w q) := by
  have hitems := clear_items w q
  refine ⟨ht.sound.of_items rfl rfl rfl fun p hp => ?_,
    ht.below.of_items le_rfl rfl fun p f hf => Or.inl (hitems p f hf),
    ht.sealed.of_items rfl rfl rfl fun p f hf => Or.inl (hitems p f hf)⟩
  obtain ⟨f, hf⟩ := List.exists_mem_of_ne_nil _ hp
  exact Or.inl (List.ne_nil_of_mem (hitems p f hf))

theorem tight_addFrame (ht : Tight Q submitted bound w) (hle : bound ≤ submitted) (image : M) :
    Tight Q (submitted + 1) bound
      (w.offer w.state.pipe.unprocessedFrameQueue ⟨submitted, image⟩) := by
  have hitems := offer_items w w.state.pipe.unprocessedFrameQueue ⟨submitted, image⟩
  refine ⟨ht.sound.of_items (by simp) (by simp) (by simp) fun p hp => ?_,
    ht.below.of_items (Nat.le_succ _) (by simp) fun p f hf => ?_,
    ht.sealed.of_items (by simp) (by simp) (by simp) fun p f hf => ?_⟩
  · obtain ⟨f, hf⟩ := List.exists_mem_of_ne_nil _ hp
    rcases hitems p f hf with hf | ⟨rfl, -⟩
    · exact Or.inl (List.ne_nil_of_mem hf)
    · exact Or.inr ht.sound.entry
  · refine (hitems p f hf).imp id ?_
    rintro ⟨-, rfl⟩
    exact Nat.lt_succ_self _
  · refine (hitems p f hf).imp id ?_
    rintro ⟨-, rfl⟩
    exact hle

/-- The queues in which frames stay for good when `stop` returns. -/
def Shut (s : State) (q : ℕ) : Prop :=
  q < s.heap.nextQueue ∧ q ≠ s.pipe.unprocessedFrameQueue ∧ ¬ Outlet s q

/-- The last statement of `stop`: from here on all frames submitted so far are old. -/
theorem sealed_shut (ht : Tight Q submitted bound w) (hh : ∀ th, stateOf w.state th ≠ .started)
    (hempty : w.items w.state.pipe.unprocessedFrameQueue = []) (hstranded : Stranded w) :
    Sealed (Shut w.state) submitted (World.clear w w.state.pipe.processedFrameQueue) := by
  have hflag : ∀ th, Live (w.pc th) → w.flag th = true := by
    intro th hl
    by_contra hf
    exact hh th ((ht.sound.threads th).marked hl (eq_false_of_ne_true hf))
  refine ⟨fun q f hf _ => ⟨?_, ?_, ?_⟩, fun th => ?_⟩
  · exact ht.sound.items q (List.ne_nil_of_mem (clear_items w _ q f hf))
  · rintro rfl
    have hf' := clear_items w _ _ f hf
    rw [hempty] at hf'
    cases hf'
  · rintro (rfl | ⟨t, hopen, hq⟩)
    · simp at hf
    · have hf' := clear_items w _ q f hf
      rw [hstranded.items t q hopen hq] at hf'
      cases hf'
  · refine ⟨fun f hf _ => hflag th ?_, fun g hg _ q hq => ?_, fun q g hg _ => ?_,
      fun hl hf => ?_, fun q hq hf => ?_⟩
    · rcases hf with hf | hf | hf <;>
        exact (show w.pc th = _ from hf) ▸ ⟨nofun, nofun⟩
    · obtain ⟨hne, hlt⟩ := ht.sound.outputs _ q hq
      exact ⟨hlt, hne, hstranded.passed th g q hg hq⟩
    · obtain ⟨hne, hlt⟩ := (ht.sound.threads th).offering q g hg
      exact ⟨hlt, hne, hstranded.offering th q g hg⟩
    · exact absurd hf (by simp [hflag th hl])
    · have hl : Live (w.pc th) := (show w.pc th = _ from hq) ▸ ⟨nofun, nofun⟩
      exact absurd hf (by simp [hflag th hl])

theorem orderly_shut (ho : Orderly Q s) : Orderly (Shut s) s :=
  ⟨ho.shape, ho.wiring, ho.unborn, ho.listed, fun h => h.2.1 rfl, fun h => h.2.2 (Or.inl rfl),
    fun _ h => h.1, fun t _ hopen hq h => h.2.2 (Or.inr ⟨t, hopen, hq⟩)⟩

end Steps

section Runs

variable {applyTo : Effect → M → M} {Q : ℕ → Prop} {x x' : FrameProcessor M}

def Standing (Q : ℕ → Prop) (x : FrameProcessor M) : Prop :=
  match x.activity with
  | .idle => Orderly Q x.world.state
  | .editing code => Keeps Q code x.world.state
  | .stopping code => Leads Q (Halted Q) code x.world.state
  | .clearingUnprocessed => Halted Q x.world.state
  | .clearingProcessed => Halted Q x.world.state ∧ x.world.items (unprocessed x) = []

structure Invariant (Q : ℕ → Prop) (x : FrameProcessor M) : Prop where
  tight : Tight Q x.submitted x.bound x.world
  exit : ¬ Q (processed x)
  bound : x.bound ≤ x.submitted
  mark : x.mark ≤ x.world.log.length
  delivered : ∀ f ∈ acceptedAt (processed x) (x.world.log.drop x.mark), x.bound ≤ f.number
  standing : Standing Q x

theorem Invariant.silenced (h : Invariant Q x) : Silenced x := by
  refine ⟨fun he => List.eq_nil_iff_forall_not_mem.mpr fun f hf => ?_, h.delivered⟩
  have hlt := h.tight.below.items _ f hf
  rw [he] at hlt
  exact h.exit (h.tight.sealed.items _ f hf hlt)

theorem Standing.world {w' : World M} (h : Standing Q x) (hst : w'.state = x.world.state)
    (hitems : ∀ f ∈ w'.items (unprocessed x), f ∈ x.world.items (unprocessed x)) :
    Standing Q { x with world := w' } := by
  obtain ⟨w, activity, submitted, bound, mark⟩ := x
  cases activity with
  | clearingProcessed =>
    refine ⟨by rw [hst]; exact h.1, List.eq_nil_iff_forall_not_mem.mpr fun f hf => ?_⟩
    simp only [unprocessed, hst] at hf
    have hf' := hitems f hf
    rw [h.2] at hf'
    cases hf'
  | _ => simpa only [Standing, hst] using h

theorem invariant_thread {th : ℕ} {w' : World M} (h : Invariant Q x)
    (hturn : Turn applyTo x.world th w') : Invariant Q { x with world := w' } := by
  obtain ⟨hst, -, -⟩ := turn_frame hturn
  refine ⟨tight_turn h.tight hturn, by simpa only [processed, hst] using h.exit, h.bound, ?_, ?_, ?_⟩
  · rcases turn_log hturn with hlog | ⟨q, g, -, hlog | hlog⟩ <;> simp only [hlog]
    · exact h.mark
    all_goals
      rw [List.length_append]
      exact h.mark.trans (Nat.le_add_right _ _)
  · intro f hf
    simp only [processed, hst] at hf
    rcases turn_log hturn with hlog | ⟨q, g, hpc, hlog | hlog⟩ <;> rw [hlog] at hf
    · exact h.delivered f hf
    · rw [List.drop_append_of_le_length h.mark, acceptedAt_accepted, List.mem_append] at hf
      rcases hf with hf | hf
      · exact h.delivered f hf
      · by_cases hq : q = x.world.state.pipe.processedFrameQueue
        · obtain rfl : f = g := by simpa [hq] using hf
          subst q
          by_contra hlt
          exact h.exit ((h.tight.sealed.threads th).offering _ f hpc (not_le.mp hlt))
        · simp [hq] at hf
    · rw [List.drop_append_of_le_length h.mark, acceptedAt_refused] at hf
      exact h.delivered f hf
  · refine h.standing.world hst fun f hf => ?_
    rcases turn_items hturn _ f hf with hf | hpc
    · exact hf
    · exact absurd rfl ((h.tight.sound.threads th).offering _ f hpc).1

theorem invariant_call (h : Invariant Q x) (hidle : x.activity = .idle) (c : Call M) :
    Invariant Q (accept x c) := by
  have ho : Orderly Q x.world.state := by
    have hs := h.standing
    rwa [Standing, hidle] at hs
  cases c with
  | addFrame image =>
    have hlog : (x.world.offer (unprocessed x) ⟨x.submitted, image⟩).log =
          x.world.log ++ [.accepted (unprocessed x) ⟨x.submitted, image⟩] ∨
        (x.world.offer (unprocessed x) ⟨x.submitted, image⟩).log =
          x.world.log ++ [.refused (unprocessed x) ⟨x.submitted, image⟩] := by
      unfold World.offer
      split
      · exact Or.inl rfl
      · exact Or.inr rfl
    refine ⟨tight_addFrame h.tight h.bound image,
      by simpa only [accept, processed, World.offer_state] using h.exit, h.bound.trans (Nat.le_succ _), ?_, ?_, ?_⟩
    · have hm := h.mark
      rcases hlog with hlog | hlog <;> simp only [accept, hlog, List.length_append] <;> omega
    · intro f hf
      simp only [accept, processed, World.offer_state] at hf
      rcases hlog with hlog | hlog <;>
        rw [hlog, List.drop_append_of_le_length h.mark] at hf
      · rw [acceptedAt_accepted, if_neg ho.wiring.ends, List.append_nil] at hf
        exact h.delivered f hf
      · rw [acceptedAt_refused] at hf
        exact h.delivered f hf
    · simpa [Standing, accept, hidle] using ho
  | addEffect cls =>
    exact ⟨h.tight, h.exit, h.bound, h.mark, h.delivered, keeps_addNewEffect ho cls⟩
  | clearEffects =>
    exact ⟨h.tight, h.exit, h.bound, h.mark, h.delivered, keeps_clearEffects ho⟩
  | start => exact ⟨h.tight, h.exit, h.bound, h.mark, h.delivered, keeps_start ho⟩
  | stop => exact ⟨h.tight, h.exit, h.bound, h.mark, h.delivered, leads_stop ho⟩

theorem invariant_statement {post : State → Prop} {code code' : Code Unit} {w' : World M}
    {activity : Activity} (h : Invariant Q x) (hl : Leads Q post code x.world.state)
    (hadv : code.advance World.state World.exec x.world = some (code', w'))
    (hs : Leads Q post code' w'.state → Standing Q { x with world := w', activity := activity }) :
    Invariant Q { x with world := w', activity := activity } := by
  obtain ⟨ht, hlog, hp⟩ := tight_advance h.tight hl hadv
  refine ⟨ht, by simpa only [processed, hp] using h.exit, h.bound, by simpa only [hlog] using h.mark,
    ?_, hs (hl.advance (advance_state hadv))⟩
  simpa only [processed, hp, hlog] using h.delivered

theorem invariant_caller (h : Invariant Q x) (hnext : callerStep x = some x')
    (hcareful : x.activity = .clearingProcessed → Stranded x.world) : ∃ Q', Invariant Q' x' := by
  have hs := h.standing
  unfold Standing at hs
  unfold callerStep at hnext
  split at hnext
  case h_1 => cases hnext
  case h_2 code hact =>
    simp only [hact] at hs
    split at hnext <;> cases hnext
    case h_1 code' w' hadv => exact ⟨Q, invariant_statement h hs hadv id⟩
    case h_2 hadv => exact ⟨Q, h.tight, h.exit, h.bound, h.mark, h.delivered, hs.finish hadv⟩
  case h_3 code hact =>
    simp only [hact] at hs
    split at hnext <;> cases hnext
    case h_1 code' w' hadv => exact ⟨Q, invariant_statement h hs hadv id⟩
    case h_2 hadv => exact ⟨Q, h.tight, h.exit, h.bound, h.mark, h.delivered, hs.finish hadv⟩
  case h_4 hact =>
    simp only [hact] at hs
    cases hnext
    refine ⟨Q, tight_clear h.tight _, h.exit, h.bound, h.mark, h.delivered, hs, ?_⟩
    simp [World.clear]
  case h_5 hact =>
    simp only [hact] at hs
    cases hnext
    have hclear := tight_clear h.tight (processed x)
    refine ⟨Shut x.world.state, ⟨hclear.sound, hclear.below,
      sealed_shut h.tight hs.1.halted hs.2 (hcareful hact)⟩, fun hQ => hQ.2.2 (Or.inl rfl), le_rfl,
      le_rfl, ?_, orderly_shut hs.1.toOrderly⟩
    intro f hf
    simp [acceptedAt] at hf

theorem invariant_next {e : Event M} (h : Invariant Q x) (hnext : next applyTo x e = some x')
    (hcareful : Careful x e) : ∃ Q', Invariant Q' x' := by
  cases e with
  | call c =>
    simp only [next] at hnext
    split at hnext <;> cases hnext
    exact ⟨Q, invariant_call h ‹_› c⟩
  | caller =>
    refine invariant_caller h hnext fun hact => ?_
    simpa only [Careful, hact] using hcareful
  | thread th =>
    obtain ⟨w', hw, rfl⟩ := Option.map_eq_some_iff.mp hnext
    exact ⟨Q, invariant_thread h (threadStep_turn hw)⟩
  | getFrame =>
    simp only [next] at hnext
    split at hnext <;> cases hnext
    exact ⟨Q, tight_removeFirst h.tight _, h.exit, h.bound, h.mark, h.delivered,
      h.standing.world rfl (removeFirst_items _ _ _)⟩

end Runs

section Construction

structure Blank (w : World M) : Prop where
  items : ∀ q, w.items q = []
  pc : ∀ th, w.pc th = .unstarted ∨ stateOf w.state th ≠ .new
  log : w.log = []

theorem blank_exec {w : World M} (h : Blank w) (i : Instr) : Blank (World.exec i w).2 := by
  refine ⟨fun q => ?_, fun th => ?_, h.log⟩
  · exact (exec_items i w q).elim (fun he => he.trans (h.items q)) id
  · have hold := h.pc th
    cases i with
    | newThread t =>
      by_cases hx : th = w.state.heap.nextThread
      · exact Or.inl (by simp [World.exec, hx])
      · simpa [World.exec, stateOf, exec, hx] using hold
    | startThread t =>
      by_cases hnew : (w.state.heap.thread t).state = .new
      · by_cases hx : th = t
        · exact Or.inr (by simp [World.exec, stateOf, exec, hx, hnew, start_state])
        · simpa [World.exec, stateOf, exec, hx, hnew] using hold
      · simpa [World.exec, stateOf, exec, hnew] using hold
    | interruptThread t =>
      by_cases hx : th = t
      · subst th
        refine hold.imp id fun hst => ?_
        simp only [World.exec_state, stateOf, exec, Heap.interrupt_thread, Function.update_self,
          interrupt_state]
        split
        · simp
        · exact hst
      · simpa [World.exec, stateOf, exec, hx] using hold
    | tasksAdd k t | tasksRemove k | threadsAdd k t | threadsRemove k =>
      simp only [World.exec, exec]
      split <;> exact hold
    | _ => exact hold

theorem blank_run {α : Type} (p : Code α) {w : World M} (h : Blank w) :
    Blank (p.run World.state World.exec w).2 := by
  induction p generalizing w with
  | done a => exact h
  | fail e => exact h
  | read k ih => exact ih _ h
  | act i k ih => exact ih _ (blank_exec h i)

theorem call_createTasks (classes : List EffectClass) (h : Heap) (p : Pipeline) :
    ∃ h', call (createTasks classes) ⟨h, p⟩ =
        (.ok (List.range' h.nextTask classes.length), ⟨h', p⟩) ∧
      h'.thread = h.thread ∧ h'.nextQueue = h.nextQueue ∧
      h'.nextTask = h.nextTask + classes.length ∧
      ((∀ t, (h.task t).outputQueue = none) → ∀ t, (h'.task t).outputQueue = none) := by
  induction classes generalizing h with
  | nil => exact ⟨h, rfl, rfl, rfl, rfl, id⟩
  | cons cls classes ih =>
    obtain ⟨h', hcall, hthread, hqueue, htask, hout⟩ :=
      ih (h.newEffect.newTask ⟨h.nextEffect, cls⟩)
    refine ⟨h', ?_, hthread, hqueue, ?_, fun hnull => hout fun t => ?_⟩
    · simp only [createTasks, ref, exec, Program.bind_eq, Program.act_bind, Program.done_bind,
        call, Program.run_act] at hcall ⊢
      rw [Program.run_bind_of_ok hcall]
      simp [List.range'_succ]
    · rw [htask, List.length_cons]
      simp only [Heap.newTask_nextTask, Heap.newEffect_nextTask]
      omega
    · by_cases hx : t = h.nextTask <;> simp [hx, hnull]

theorem wire_outputs (pq q : ℕ) (effects : List ℕ) (h : Heap) {t p : ℕ}
    (hp : ((wire pq q effects h).task t).outputQueue = some p) :
    h.nextQueue ≤ (wire pq q effects h).nextQueue ∧
      ((h.task t).outputQueue = some p ∨ p = pq ∨
        h.nextQueue ≤ p ∧ p < (wire pq q effects h).nextQueue) := by
  induction effects generalizing q h with
  | nil => exact ⟨le_rfl, Or.inl hp⟩
  | cons a ts ih =>
    cases ts with
    | nil =>
      refine ⟨le_rfl, ?_⟩
      by_cases hx : t = a
      · exact Or.inr (Or.inl (by simpa [wire, hx] using hp.symm))
      · exact Or.inl (by simpa [wire, hx] using hp)
    | cons b ts =>
      obtain ⟨hle, hcases⟩ := ih h.nextQueue _ hp
      simp only [Heap.setOutput_nextQueue, Heap.newQueue_nextQueue,
        Heap.setInput_nextQueue] at hle hcases
      refine ⟨by simp only [wire]; omega, ?_⟩
      rcases hcases with hold | rfl | hnew
      · by_cases hx : t = a
        · obtain rfl : h.nextQueue = p := by simpa [hx] using hold
          exact Or.inr (Or.inr ⟨le_rfl, by simp only [wire]; omega⟩)
        · exact Or.inl (by simpa [hx] using hold)
      · exact Or.inr (Or.inl rfl)
      · exact Or.inr (Or.inr ⟨by omega, by simpa only [wire] using hnew.2⟩)

theorem constructed (effects : List EffectClass) :
    ∃ h ts, (call (constructor effects) ⟨emptyHeap, PipelineOperations.blank 0 1⟩).2 =
        built h 0 1 ts ∧ Arguments h 0 1 ts ∧ (∀ th, (h.thread th).state = .new) ∧
      h.nextQueue = 2 ∧ ∀ t, (h.task t).outputQueue = none := by
  obtain ⟨h', hcall, hthread, hqueue, htask, hout⟩ :=
    call_createTasks effects emptyHeap (PipelineOperations.blank 0 1)
  have hnew : ∀ th, (h'.thread th).state = .new := fun th => by rw [hthread]; rfl
  refine ⟨h'.newQueue.newQueue, List.range' 0 effects.length, ?_, ?_, hnew, ?_,
    hout fun t => rfl⟩
  · simp only [constructor, call, Program.bind_eq] at hcall ⊢
    rw [Program.run_bind_of_ok hcall]
    rfl
  · refine ⟨by decide, ?_, ?_, List.nodup_range', fun t ht => ?_, fun th _ => hnew th⟩
    · simp
    · simp
    · have hlt : t < effects.length := by simpa using ht
      simpa [htask] using hlt.trans_le (Nat.le_add_left _ _)
  · simp [hqueue, emptyHeap]

theorem built_outputs {h : Heap} {ts : List ℕ} (hq : h.nextQueue = 2)
    (hout : ∀ t, (h.task t).outputQueue = none) {t q : ℕ}
    (ht : ((built h 0 1 ts).heap.task t).outputQueue = some q) :
    Fillable (built h 0 1 ts) q := by
  rcases eq_or_ne ts [] with rfl | hne
  · rw [built_nil] at ht
    simp [hout] at ht
  · rw [built_cons h 0 1 hne] at ht ⊢
    obtain ⟨htask, -, hqueue, -⟩ := spawn_fields (wire 1 0 ts h) ts
    rw [htask] at ht
    obtain ⟨hle, hcases⟩ := wire_outputs 1 0 ts h ht
    simp only [hout, hq] at hcases hle
    rw [Fillable, hqueue]
    rcases hcases with hcases | hcases | hcases
    · cases hcases
    · exact ⟨by simp [hcases], by omega⟩
    · exact ⟨by simp only; omega, hcases.2⟩

theorem new_invariant (effects : List EffectClass) :
    Invariant (fun _ => False) (newFrameProcessor effects : FrameProcessor M) := by
  obtain ⟨h, ts, hbuilt, ha, hnew, hq, hout⟩ := constructed effects
  have hblank : Blank (newFrameProcessor effects : FrameProcessor M).world :=
    blank_run _ ⟨fun _ => rfl, fun _ => Or.inl rfl, rfl⟩
  have hstate : (newFrameProcessor effects : FrameProcessor M).world.state = built h 0 1 ts :=
    (run_state _ _).trans hbuilt
  have hstates : ∀ th, stateOf (built h 0 1 ts) th = .new := by
    intro th
    rcases eq_or_ne ts [] with rfl | hne
    · rw [built_nil]
      exact hnew th
    · rw [built_cons h 0 1 hne]
      refine spawn_new _ ts ?_
      rw [(wire_frame 1 0 ts h).1]
      exact hnew th
  have hpc : ∀ th, (newFrameProcessor effects : FrameProcessor M).world.pc th = .unstarted :=
    fun th => (hblank.pc th).resolve_right (by rw [hstate]; simp [hstates])
  have hwiring := built_wiring ha
  have hresting : ∀ th, ¬ Live ((newFrameProcessor effects : FrameProcessor M).world.pc th) :=
    fun th => by rw [hpc]; exact not_live_unstarted
  have hidle : Orderly (fun _ => False) (newFrameProcessor effects : FrameProcessor M).world.state := by
    rw [hstate]
    refine ⟨built_shape ha, hwiring, fun th _ => hstates th, fun th hst => ?_, id, id, nofun, ?_⟩
    · rw [hstates] at hst
      cases hst
    · exact fun _ _ _ _ => id
  refine ⟨⟨⟨?_, ?_, ?_, fun th => employed_resting (hresting th)⟩, ⟨?_, ?_⟩, ⟨?_, ?_⟩⟩, id, le_rfl,
    Nat.zero_le _, ?_, hidle⟩
  · exact hidle.wiring.unprocessed_allocated
  · intro q hne
    exact absurd (hblank.items q) hne
  · rw [hstate]
    exact fun t q ht => built_outputs hq hout ht
  · intro q f hf
    simp [hblank.items] at hf
  · intro th f hf
    simp [hpc, Pc.inHand] at hf
  · intro q f hf
    simp [hblank.items] at hf
  · exact fun th => tied_resting (hresting th)
  · intro f hf
    simp [hblank.log, acceptedAt] at hf

end Construction

/-- No frame survives `stop` as long as, whenever `stop` executes its last statement, the frames
that it has not cleared away are stranded. -/
theorem no_frame_survives_stop {applyTo : Effect → M → M} {effects : List EffectClass}
    {x : FrameProcessor M} (h : Execution applyTo Careful (newFrameProcessor effects) x) :
    Silenced x := by
  have hrun : ∃ Q, Invariant Q x := by
    refine h.invariant (P := fun x => ∃ Q, Invariant Q x) ⟨_, new_invariant effects⟩ ?_
    rintro x x' e hcareful hnext ⟨Q, hQ⟩
    exact invariant_next hQ hnext hcareful
  obtain ⟨Q, hQ⟩ := hrun
  exact hQ.silenced

def called (c : Call M) (n : ℕ) : List (Event M) := .call c :: List.replicate n .caller

def turns (th n : ℕ) : List (Event M) := List.replicate n (.thread th)

def ordinary (x : FrameProcessor M) (e : Event M) : Bool :=
  match x.activity, e with
  | .clearingProcessed, .caller => false
  | _, _ => true

theorem careful_of_ordinary (x : FrameProcessor M) (e : Event M) (h : ordinary x e = true) :
    Careful x e := by
  unfold ordinary at h
  unfold Careful
  split at h
  · cases h
  · trivial

theorem careful_of_stranded {x : FrameProcessor M} (h : Stranded x.world) (e : Event M) :
    Careful x e := by
  unfold Careful
  split
  · exact h
  · trivial

/-- `stop` finds the only frame in the hands of a thread that has not yet looked at its
interrupt. -/
theorem interrupted_frame_gone : ∃ x : FrameProcessor ℕ,
    Execution sampleCv.applyTo Careful (newFrameProcessor [.negative]) x ∧
    (x.world.pc 0).inHand = [⟨0, 14⟩] ∧ x.bound = 1 ∧ Silenced x := by
  have hrun : ∃ x : FrameProcessor ℕ, TransitionSystems.runEvents
      (fun y e => if ordinary y e then next sampleCv.applyTo y e else none)
      (newFrameProcessor [.negative])
      (called .start 5 ++ called (.addFrame 7) 0 ++ turns 0 4 ++ called .stop 5) = some x ∧
      Stranded x.world ∧ (∃ y, next sampleCv.applyTo x .caller = some y ∧
        (y.world.pc 0).inHand = [⟨0, 14⟩] ∧ y.bound = 1) := by
    refine ⟨_, rfl, ⟨fun t q _ _ => ?_, fun th g q hpc => ?_, fun th q g hpc => ?_⟩, _, rfl, rfl, rfl⟩
    · rcases q with _ | _ | q <;> rfl
    · rcases th with _ | th <;> cases hpc
    · rcases th with _ | th <;> cases hpc
  obtain ⟨x, h, hstranded, y, hy, hhand, hbound⟩ := hrun
  have hx : Execution sampleCv.applyTo Careful (newFrameProcessor [.negative]) x :=
    .checked careful_of_ordinary .refl h
  have hx' := hx.step (careful_of_stranded hstranded .caller) hy
  exact ⟨y, hx', hhand, hbound, no_frame_survives_stop hx'⟩

/-- A thread that has passed its interrupt check puts its frame into the processed queue after
`stop`. A frame between two effects stays there, and the threads that the next `addEffect`
creates bring it to the processed queue. -/
theorem frames_survive_stop :
    (∃ x : FrameProcessor ℕ,
      Execution sampleCv.applyTo (fun _ _ => True) (newFrameProcessor [.negative]) x ∧
      x.submitted = x.bound ∧ x.world.items (processed x) = [⟨0, 14⟩] ∧ ¬ Silenced x) ∧
    ∃ x : FrameProcessor ℕ,
      Execution sampleCv.applyTo (fun _ _ => True) (newFrameProcessor [.negative, .sepia]) x ∧
      acceptedAt (processed x) (x.world.log.drop x.mark) = [⟨0, 56⟩] ∧ x.bound = 1 ∧
      ¬ Silenced x := by
  have hpassed : (TransitionSystems.runEvents (next sampleCv.applyTo)
      (newFrameProcessor [.negative])
      (called .start 5 ++ called (.addFrame 7) 0 ++ turns 0 5 ++ called .stop 6 ++
        turns 0 2)).map (fun x => (x.submitted, x.bound, x.world.items (processed x))) =
          some (1, 1, [⟨0, 14⟩]) := by
    decide +kernel
  have hbetween : (TransitionSystems.runEvents (next sampleCv.applyTo)
      (newFrameProcessor [.negative, .sepia])
      (called .start 7 ++ called (.addFrame 7) 0 ++ turns 0 7 ++ called .stop 7 ++
        called (.addEffect .xray) 20 ++ called .start 8 ++ turns 2 7 ++ turns 3 7)).map
          (fun x => (acceptedAt (processed x) (x.world.log.drop x.mark), x.bound)) =
        some ([⟨0, 56⟩], 1) := by
    decide +kernel
  constructor
  · obtain ⟨x, h, hx⟩ := Option.map_eq_some_iff.mp hpassed
    obtain ⟨hsubmitted, hbound, hitems⟩ : x.submitted = 1 ∧ x.bound = 1 ∧
        x.world.items (processed x) = [⟨0, 14⟩] := by simpa using hx
    have hall : x.submitted = x.bound := hsubmitted.trans hbound.symm
    refine ⟨x, .append .refl (by simp) h, hall, hitems, fun hs => ?_⟩
    have hempty := hs.empty hall
    rw [hitems] at hempty
    cases hempty
  · obtain ⟨x, h, hx⟩ := Option.map_eq_some_iff.mp hbetween
    obtain ⟨haccepted, hbound⟩ := Prod.mk.inj hx
    refine ⟨x, .append .refl (by simp) h, haccepted, hbound, fun hs => ?_⟩
    have hle := hs.delivered ⟨0, 56⟩ (by simp [haccepted])
    simp [hbound] at hle

end FrameProcessorStop
