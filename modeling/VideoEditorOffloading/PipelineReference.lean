import VideoEditorOffloading.PipelineThreadLifecycle

/-! # A plain list behind the two lists of a Pipeline

A `Pipeline` edits `effectTasks` and `effectThreads` by separate calls, at indices that shift in
between. Here the same operations run on one plain list of tasks, and the pipeline refines it. -/
namespace PipelineReference

open SharedStatePrograms PipelineObjects PipelineOperations PipelineOperationSpecs PipelineRuns
  PipelineThreadLifecycle

/-- A list of tasks, the number of the next new task, and the identity tasks created so far. -/
structure Reference where
  tasks : List ℕ
  nextTask : ℕ
  identities : List ℕ
  deriving DecidableEq, Repr

namespace Reference

def append (r : Reference) (t : ℕ) : Reference := { r with tasks := r.tasks ++ [t] }

def insert (r : Reference) (index : ℤ) (t : ℕ) : Reference :=
  { r with tasks := r.tasks.insertIdx (min index.toNat r.tasks.length) t }

def clear (r : Reference) : Reference :=
  ⟨[r.nextTask], r.nextTask + 1, r.nextTask :: r.identities⟩

/-- Deletes if in range. An emptied list gets a new identity task. -/
def remove (r : Reference) (index : ℤ) : Reference :=
  if 0 ≤ index ∧ index < r.tasks.length then
    match r.tasks.eraseIdx index.toNat with
    | [] => r.clear
    | t :: ts => { r with tasks := t :: ts }
  else r

def move (r : Reference) (startIndex endIndex : ℤ) : Reference :=
  match ArrayList.get r.tasks startIndex with
  | some t => (r.remove startIndex).insert endIndex t
  | none => r

def step (r : Reference) : Op → Reference
  | .newTask _ => { r with nextTask := r.nextTask + 1 }
  | .addEffect t => r.append t
  | .addEffectAt i t => r.insert i t
  | .removeEffect i => r.remove i
  | .moveEffect i j => r.move i j
  | .clearEffects => r.clear
  | .start | .stop => r

def run (r : Reference) (ops : List Op) : Reference := ops.foldl step r

/-- The constructor takes the tasks as they are. -/
def initial (effects : List ℕ) (nextTask : ℕ) : Reference := ⟨effects, nextTask, []⟩

theorem remove_only {r : Reference} {index : ℤ} (h₀ : 0 ≤ index) (hlt : index < r.tasks.length)
    (h₁ : r.tasks.length = 1) : r.remove index = r.clear := by
  obtain ⟨a, ha⟩ := List.length_eq_one_iff.mp h₁
  obtain rfl : index = 0 := by omega
  rw [remove, if_pos ⟨h₀, hlt⟩, ha]
  rfl

theorem remove_inside {r : Reference} {index : ℤ} (h₀ : 0 ≤ index) (hlt : index < r.tasks.length)
    (h₁ : r.tasks.length ≠ 1) :
    r.remove index = { r with tasks := r.tasks.eraseIdx index.toNat } := by
  have hlen := List.length_eraseIdx_add_one (l := r.tasks) (i := index.toNat) (by omega)
  rw [remove, if_pos ⟨h₀, hlt⟩]
  split
  · next hnil =>
    rw [hnil] at hlen
    exact absurd hlen.symm h₁
  · next t ts hcons => rw [hcons]

end Reference

structure Refines (s : State) (r : Reference) : Prop where
  tasks : s.pipe.effectTasks = r.tasks
  nextTask : s.heap.nextTask = r.nextTask
  identities : ∀ t ∈ r.identities, t < r.nextTask ∧ (s.heap.task t).effect.cls = .identity

section Steps

variable {s m : State} {r : Reference} {l : List ℕ} {kind : Kind}

theorem Refines.identities_change (hr : Refines s r) (hc : Change s l kind m) {t : ℕ}
    (ht : t ∈ r.identities) :
    t < m.heap.nextTask ∧ (m.heap.task t).effect.cls = .identity := by
  obtain ⟨hkeep, hle, -⟩ := change_effect hc
  obtain ⟨hlt, hcls⟩ := hr.identities t ht
  rw [← hr.nextTask] at hlt
  exact ⟨hlt.trans_le hle, by rw [hkeep t hlt, hcls]⟩

theorem Refines.edit (hr : Refines s r) (hc : Change s l kind m)
    (hn : m.heap.nextTask = s.heap.nextTask) {ts : List ℕ} (ht : m.pipe.effectTasks = ts) :
    Refines m { r with tasks := ts } := by
  refine ⟨ht, hn.trans hr.nextTask, fun t hm => ?_⟩
  rw [← hr.nextTask, ← hn]
  exact hr.identities_change hc hm

theorem Refines.clear (hr : Refines s r) (hc : Change s l kind m) (hcl : Cleared s m) :
    Refines m r.clear := by
  obtain ⟨ht, hn, hid⟩ := hcl
  rw [hr.nextTask] at ht hn hid
  refine ⟨ht, hn, fun t hm => ?_⟩
  rcases List.mem_cons.mp hm with rfl | hm
  · exact ⟨Nat.lt_succ_self _, hid⟩
  · have hkept := hr.identities_change hc hm
    rwa [hn] at hkept

theorem refines_addEffect (hs : Staffed s) (hr : Refines s r) (t : ℕ) :
    ∃ m, call (addEffect t) s = (.ok (), m) ∧ Refines m (r.append t) := by
  obtain ⟨m, hm, hc, ht⟩ := addEffect_change hs.length t
  refine ⟨_, hm, hr.edit hc ((change_effect hc).2.2 t rfl) ?_⟩
  rw [restarted_pipe, ht, hr.tasks]

theorem refines_addEffectAt (hs : Staffed s) (hr : Refines s r) {index : ℤ} (hi : 0 ≤ index)
    (t : ℕ) : ∃ m, call (addEffectAt index t) s = (.ok (), m) ∧ Refines m (r.insert index t) := by
  obtain ⟨m, hm, hc, ht⟩ := addEffectAt_change hs.length hi t
  refine ⟨m, hm, hr.edit hc ((change_effect hc).2.2 t rfl) ?_⟩
  rw [ht, hr.tasks]

theorem refines_removeEffect_inside (hs : Staffed s) (hr : Refines s r) {index : ℤ}
    (h₀ : 0 ≤ index) (hlt : index < s.pipe.effectTasks.length) :
    ∃ m, call (removeEffect index) s = (.ok (), m) ∧ Staffed m ∧ Refines m (r.remove index) := by
  obtain ⟨m, a, hm, hc, -, hedit, -⟩ := removeEffect_change hs.length h₀ hlt
  refine ⟨m, hm, change_staffed hc hs, ?_⟩
  rw [hr.tasks] at hlt hedit
  split at hedit
  · next h₁ =>
    rw [Reference.remove_only h₀ hlt h₁]
    exact hr.clear hc hedit
  · next h₁ =>
    rw [Reference.remove_inside h₀ hlt h₁]
    exact hr.edit hc hedit.2 hedit.1

theorem refines_removeEffect (hs : Staffed s) (hr : Refines s r) (index : ℤ) :
    ∃ m, call (removeEffect index) s = (.ok (), m) ∧ Refines m (r.remove index) := by
  by_cases hi : 0 ≤ index ∧ index < s.pipe.effectTasks.length
  · obtain ⟨m, hm, -, hr'⟩ := refines_removeEffect_inside hs hr hi.1 hi.2
    exact ⟨m, hm, hr'⟩
  · refine ⟨s, removeEffect_outside s hi, ?_⟩
    rw [hr.tasks] at hi
    rwa [Reference.remove, if_neg hi]

theorem get_inside {ts : List ℕ} {index : ℤ} (h₀ : 0 ≤ index) (hlt : index < ts.length) :
    ∃ a, ArrayList.get ts index = some a := by
  have hi : index.toNat < ts.length := by omega
  exact ⟨ts[index.toNat], by simp [ArrayList.get, not_lt.mpr h₀, hi]⟩

theorem refines_moveEffect (hs : Staffed s) (hr : Refines s r) {startIndex endIndex : ℤ}
    (h₀ : 0 ≤ startIndex) (hlt : startIndex < s.pipe.effectTasks.length) (he : 0 ≤ endIndex) :
    ∃ m, call (moveEffect startIndex endIndex) s = (.ok (), m) ∧
      Refines m (r.move startIndex endIndex) := by
  obtain ⟨a, hg⟩ := get_inside h₀ hlt
  obtain ⟨m, hm, hs', hr'⟩ := refines_removeEffect_inside hs hr h₀ hlt
  obtain ⟨m', hm', hr''⟩ := refines_addEffectAt hs' hr' he a
  refine ⟨m', (call_moveEffect hg hm endIndex).trans hm', ?_⟩
  rw [hr.tasks] at hg
  rwa [Reference.move, hg]

theorem refines_clearEffects (hr : Refines s r) :
    ∃ m, call clearEffects s = (.ok (), m) ∧ Refines m r.clear := by
  obtain ⟨h, uq, pq, running, ths, ts⟩ := s
  refine ⟨_, call_clearEffects h uq pq running ths ts,
    hr.clear (.clear h uq pq running ths ts) (.restarted ⟨rfl, rfl, by simp⟩)⟩

theorem refines_step (hs : Staffed s) (hr : Refines s r) {op : Op} (hv : op.Valid s) :
    ∃ m, call op.code s = (.ok (), m) ∧ Refines m (r.step op) := by
  cases op with
  | newTask e =>
    obtain ⟨h, p⟩ := s
    refine ⟨⟨h.newTask e, p⟩, by simp [Op.code, ref, exec], hr.tasks, ?_, fun t ht => ?_⟩
    · exact congrArg (· + 1) hr.nextTask
    · have hkept := hr.identities_change (.newTask h p e) ht
      rwa [Heap.newTask_nextTask, hr.nextTask] at hkept
  | addEffect t => exact refines_addEffect hs hr t
  | addEffectAt i t => exact refines_addEffectAt hs hr hv.1 t
  | removeEffect i => exact refines_removeEffect hs hr i
  | moveEffect i j => exact refines_moveEffect hs hr hv.1 hv.2.1 hv.2.2
  | clearEffects => exact refines_clearEffects hr
  | start =>
    obtain ⟨h, p⟩ := s
    exact ⟨_, call_start h p, hr.edit (.start h p) rfl hr.tasks⟩
  | stop =>
    obtain ⟨h, p⟩ := s
    exact ⟨_, call_stop h p, hr.edit (.stop h p) rfl hr.tasks⟩

end Steps

def Started (s : State) : Prop :=
  s.pipe.running = true → ∀ th ∈ s.pipe.effectThreads, stateOf s th ≠ .new

theorem started_restarted (m : State) : Started (restarted m) := by
  intro hrun th hth
  rw [restarted_pipe] at hrun hth
  rw [restarted_state]
  split
  · simp
  · next hnot => exact fun hnew => hnot ⟨hrun, hth, hnew⟩

theorem change_started {s s' : State} {l : List ℕ} {kind : Kind} (hc : Change s l kind s')
    (h : Started s) : Started s' := by
  cases hc with
  | newTask h' p e => exact h
  | start h' p =>
    intro _ th hth
    simp only at hth
    simp only [stateOf, startAll_thread, hth, if_true, start_state]
    split
    · simp
    · assumption
  | stop h' p =>
    intro hrun
    exact absurd hrun Bool.false_ne_true
  | _ => exact started_restarted _

/-- The tasks are those of the reference, position by position with a thread that runs the
task, and the next operation will find everything it looks up. -/
structure Follows (s : State) (r : Reference) : Prop extends Refines s r where
  length : s.pipe.effectThreads.length = s.pipe.effectTasks.length
  runs : ∀ (i th : ℕ), s.pipe.effectThreads[i]? = some th →
    s.pipe.effectTasks[i]? = some (taskOf s.heap th)
  started : s.pipe.running = true → ∀ th ∈ s.pipe.effectThreads, stateOf s th ≠ .new
  returns : ∀ op : Op, op.Valid s → (call op.code s).1 = .ok ()

theorem Refines.follows {s : State} {r : Reference} (hr : Refines s r) (hs : Staffed s)
    (hst : Started s) : Follows s r := by
  refine ⟨hr, hs.length, fun i th hth => ?_, hst, fun op hv => ?_⟩
  · rw [← hs.aligned, List.getElem?_map, hth]
    rfl
  · obtain ⟨m, hm, -⟩ := refines_step hs hr hv
    rw [hm]

theorem built_refines (h : Heap) (uq pq : ℕ) (effects : List ℕ) :
    (call (constructor effects) ⟨h, blank uq pq⟩).1 = .ok () ∧
      Refines (built h uq pq effects) (.initial effects h.nextTask) ∧
      Started (built h uq pq effects) := by
  rcases eq_or_ne effects [] with rfl | hne
  · refine ⟨by simp [constructor, field], ?_, ?_⟩ <;> rw [built_nil]
    · exact ⟨rfl, rfl, by simp [Reference.initial]⟩
    · intro hrun
      exact absurd hrun Bool.false_ne_true
  · obtain ⟨-, -, htask⟩ := wire_frame pq uq effects h
    obtain ⟨-, hnext, -, -⟩ := spawn_fields (wire pq uq effects h) effects
    refine ⟨by rw [call_constructor h uq pq hne], ?_, ?_⟩ <;> rw [built_cons h uq pq hne]
    · exact ⟨rfl, hnext.trans htask, by simp [Reference.initial]⟩
    · intro hrun
      exact absurd hrun Bool.false_ne_true

theorem run_refines {s₀ s : State} {r : Reference} {ops : List Op} (hrun : Run s₀ ops s)
    (hs : Shape s₀) (hr : Refines s₀ r) : Refines s (r.run ops) := by
  induction hrun with
  | nil => exact hr
  | snoc hprev hv ih =>
    obtain ⟨m, hm, hr'⟩ := refines_step (hprev.shape hs).toStaffed ih hv
    rw [Reference.run, List.foldl_append, step, hm]
    exact hr'

/-- Whatever sequence of operations the pipeline has gone through, its two lists are the plain
list and a thread for each element of it, and no operation of the sequence threw. -/
theorem pipeline_refines_reference {h : Heap} {uq pq : ℕ} {effects : List ℕ} {ops : List Op}
    {s : State} (hr : Reachable h uq pq effects ops s) :
    (call (constructor effects) ⟨h, blank uq pq⟩).1 = .ok () ∧
      Follows s ((Reference.initial effects h.nextTask).run ops) := by
  obtain ⟨hok, href, hstart⟩ := built_refines h uq pq effects
  have hrun := run_refines hr.run (built_shape hr.arguments) href
  have hstarted : Started s :=
    hr.invariant hstart fun _ _ _ _ _ _ hc hst => change_started hc hst
  exact ⟨hok, hrun.follows hr.shape.toStaffed hstarted⟩

theorem refilled_pipeline_follows :
    Follows (after (built sampleHeap 0 1 [0, 1]) [.start, .moveEffect 0 1, .removeEffect 0,
      .removeEffect 7, .removeEffect 0, .addEffectAt 0 1]) ⟨[1, 2], 3, [2]⟩ :=
  (pipeline_refines_reference ⟨sample_two_arguments, run_after (by decide)⟩).2

section Failures

def IsIndexed : Op → Prop
  | .addEffectAt _ _ | .removeEffect _ | .moveEffect _ _ => True
  | _ => False

def Throws (s : State) (op : Op) : Prop := ∃ e, (call op.code s).1 = .error e

structure Unchanged (s s' : State) : Prop where
  effectTasks : s'.pipe.effectTasks = s.pipe.effectTasks
  effectThreads : s'.pipe.effectThreads = s.pipe.effectThreads
  running : s'.pipe.running = s.pipe.running
  inputQueues : ∀ t, (s'.heap.task t).inputQueue = (s.heap.task t).inputQueue
  outputQueues : ∀ t, (s'.heap.task t).outputQueue = (s.heap.task t).outputQueue
  threads : ∀ th, stateOf s' th = stateOf s th

theorem unchanged_refl (s : State) : Unchanged s s := by
  constructor <;> intros <;> rfl

/-- An effect is to be moved in front of the list. -/
def MovesBefore (s : State) : Op → Prop
  | .moveEffect i j => 0 ≤ i ∧ i < s.pipe.effectTasks.length ∧ j < 0
  | _ => False

theorem returns_not_throws {s m : State} {op : Op} (h : call op.code s = (.ok (), m)) :
    ¬ Throws s op := by
  rintro ⟨e, he⟩
  rw [h] at he
  cases he

theorem addEffectAt_throws (s : State) {index : ℤ} (hi : index < 0) (t : ℕ) :
    (call (addEffectAt index t) s).1 = .error .indexOutOfBounds := by
  have hlt : ¬ (s.pipe.effectTasks.length : ℤ) ≤ index := by omega
  simp [addEffectAt, field, effectTasksGet, ArrayList.get, hlt, hi, hi.ne]

/-- The effect is taken out before the target index is looked at. -/
theorem moveEffect_before {s : State} (hs : Shape s) {startIndex endIndex : ℤ}
    (hm : MovesBefore s (.moveEffect startIndex endIndex)) :
    Throws s (.moveEffect startIndex endIndex) ∧
      (step s (.moveEffect startIndex endIndex)).pipe.effectTasks ≠ s.pipe.effectTasks := by
  obtain ⟨h₀, hlt, hj⟩ := hm
  obtain ⟨m, a, hcall, -, hg, hedit, -⟩ := removeEffect_change hs.length h₀ hlt
  have hmove := call_moveEffect hg hcall endIndex
  constructor
  · exact ⟨.indexOutOfBounds, by rw [Op.code, hmove, addEffectAt_throws m hj]⟩
  · have hstep : step s (.moveEffect startIndex endIndex) = m := by
      rw [step, Op.code, hmove, addEffectAt_negative m hj]
    rw [hstep]
    intro hsame
    split at hedit
    · -- the one task of the list would have to be the new one
      rw [hedit.tasks] at hsame
      have hbound := hs.tasks_allocated s.heap.nextTask (by simp [← hsame])
      exact absurd hbound (lt_irrefl _)
    · have hlen := congrArg List.length (hedit.1.symm.trans hsame)
      rw [List.length_eraseIdx_of_lt (by omega)] at hlen
      omega

/-- In every reachable state an edit that throws changes nothing, with one exception. -/
theorem failed_edit_unchanged_iff {h : Heap} {uq pq : ℕ} {effects : List ℕ} {ops : List Op}
    {s : State} (hr : Reachable h uq pq effects ops s) {op : Op} (hop : IsIndexed op) :
    (Throws s op → Unchanged s (step s op)) ↔ ¬ MovesBefore s op := by
  have hs := hr.shape
  cases op with
  | addEffectAt i t =>
    refine ⟨fun _ hbefore => hbefore, fun _ hthrows => ?_⟩
    rcases lt_or_ge i 0 with hi | hi
    · rw [step, Op.code, addEffectAt_negative s hi]
      exact unchanged_refl s
    · obtain ⟨m, hm, -⟩ := addEffectAt_change hs.length hi t
      exact absurd hthrows (returns_not_throws hm)
  | removeEffect i =>
    refine ⟨fun _ hbefore => hbefore, fun _ hthrows => ?_⟩
    by_cases hi : 0 ≤ i ∧ i < s.pipe.effectTasks.length
    · obtain ⟨m, a, hm, -⟩ := removeEffect_change hs.length hi.1 hi.2
      exact absurd hthrows (returns_not_throws hm)
    · exact absurd hthrows (returns_not_throws (removeEffect_outside s hi))
  | moveEffect i j =>
    constructor
    · intro hkeep hbefore
      obtain ⟨hthrows, hdiff⟩ := moveEffect_before hs hbefore
      exact hdiff (hkeep hthrows).effectTasks
    · intro hnot hthrows
      by_cases hi : 0 ≤ i ∧ i < s.pipe.effectTasks.length
      · have hj : 0 ≤ j := by
          by_contra hneg
          exact hnot ⟨hi.1, hi.2, by omega⟩
        obtain ⟨a, hg⟩ := get_inside hi.1 hi.2
        obtain ⟨m, b, hm, hc, -⟩ := removeEffect_change hs.length hi.1 hi.2
        obtain ⟨m', hm', -⟩ := addEffectAt_change (change_staffed hc hs.toStaffed).length hj a
        exact absurd hthrows (returns_not_throws ((call_moveEffect hg hm j).trans hm'))
      · rw [step, Op.code, moveEffect_outside s hi]
        exact unchanged_refl s
  | _ => exact hop.elim

theorem failed_move_unchanged :
    Throws (built sampleHeap 0 1 [0, 1]) (.moveEffect 2 5) ∧
      Unchanged (built sampleHeap 0 1 [0, 1]) (step (built sampleHeap 0 1 [0, 1])
        (.moveEffect 2 5)) := by
  have hthrows : Throws (built sampleHeap 0 1 [0, 1]) (.moveEffect 2 5) :=
    ⟨.indexOutOfBounds, by decide⟩
  have hbefore : ¬ MovesBefore (built sampleHeap 0 1 [0, 1]) (.moveEffect 2 5) :=
    fun hm => absurd hm.2.1 (by decide)
  have hop : IsIndexed (.moveEffect 2 5) := trivial
  exact ⟨hthrows, (failed_edit_unchanged_iff ⟨sample_two_arguments, .nil⟩ hop).mpr
    hbefore hthrows⟩

/-- The second task is moved to index -1 and is gone. -/
theorem moved_task_lost :
    ¬ ∀ h uq pq effects ops s, Reachable h uq pq effects ops s → ∀ op, IsIndexed op →
      Throws s op → Unchanged s (step s op) := by
  intro hall
  have hkept := hall _ _ _ _ _ _ ⟨sample_two_arguments, .nil⟩ (.moveEffect 1 (-1)) trivial
    ⟨.indexOutOfBounds, by decide⟩
  exact absurd hkept.effectTasks (by decide)

end Failures

end PipelineReference
