import VideoEditorOffloading.PipelineOperationSpecs

/-! # Sequences of Pipeline operations

A pipeline is built by its constructor and then receives calls in any order and number. Client
code may create effect tasks in between (`newTask`). -/
namespace PipelineRuns

open SharedStatePrograms PipelineObjects PipelineOperations PipelineOperationSpecs ListPositions

theorem exec_frame (i : Instr) (s : State) :
    (exec i s).2.pipe.unprocessedFrameQueue = s.pipe.unprocessedFrameQueue ∧
      (exec i s).2.pipe.processedFrameQueue = s.pipe.processedFrameQueue ∧
      s.heap.nextQueue ≤ (exec i s).2.heap.nextQueue ∧
      s.heap.nextTask ≤ (exec i s).2.heap.nextTask := by
  cases i with
  | startThread th | tasksAdd i t | tasksRemove i | threadsAdd i t | threadsRemove i =>
    simp only [exec]
    split <;> exact ⟨rfl, rfl, le_rfl, le_rfl⟩
  | _ => simp [exec, State.setTasks, State.setThreads]

theorem exec_task (i : Instr) (s : State) {t : ℕ} (ht : t < s.heap.nextTask) :
    (exec i s).2.heap.task t = s.heap.task t ∨
      (∃ q, i = .setInputQueue t q ∧
        (exec i s).2.heap.task t = { s.heap.task t with inputQueue := q }) ∨
      ∃ q, i = .setOutputQueue t q ∧
        (exec i s).2.heap.task t = { s.heap.task t with outputQueue := q } := by
  cases i with
  | newTask e => exact Or.inl (by simp [exec, ht.ne])
  | setInputQueue t' q =>
    by_cases hx : t = t'
    · subst t'
      exact Or.inr (Or.inl ⟨q, rfl, by simp [exec]⟩)
    · exact Or.inl (by simp [exec, hx])
  | setOutputQueue t' q =>
    by_cases hx : t = t'
    · subst t'
      exact Or.inr (Or.inr ⟨q, rfl, by simp [exec]⟩)
    · exact Or.inl (by simp [exec, hx])
  | startThread th | tasksAdd k x | tasksRemove k | threadsAdd k x | threadsRemove k =>
    left
    simp only [exec]
    split <;> rfl
  | _ => exact Or.inl rfl

theorem call_frame {α : Type} (p : Code α) (s : State) :
    (call p s).2.pipe.unprocessedFrameQueue = s.pipe.unprocessedFrameQueue ∧
      (call p s).2.pipe.processedFrameQueue = s.pipe.processedFrameQueue ∧
      s.heap.nextQueue ≤ (call p s).2.heap.nextQueue := by
  induction p generalizing s with
  | done a => exact ⟨rfl, rfl, le_rfl⟩
  | fail e => exact ⟨rfl, rfl, le_rfl⟩
  | read k ih => exact ih s s
  | act i k ih =>
    obtain ⟨hu, hp, hn, -⟩ := exec_frame i s
    obtain ⟨hu', hp', hn'⟩ := ih (exec i s).1 (exec i s).2
    exact ⟨hu'.trans hu, hp'.trans hp, hn.trans hn'⟩

inductive Op where
  | newTask (effect : Effect)
  | addEffect (task : ℕ)
  | addEffectAt (index : ℤ) (task : ℕ)
  | removeEffect (index : ℤ)
  | moveEffect (startIndex endIndex : ℤ)
  | clearEffects
  | start
  | stop
  deriving DecidableEq, Repr

def Op.code : Op → Code Unit
  | .newTask e => do let _ ← ref (.newTask e)
  | .addEffect t => PipelineOperations.addEffect t
  | .addEffectAt i t => PipelineOperations.addEffectAt i t
  | .removeEffect i => PipelineOperations.removeEffect i
  | .moveEffect i j => PipelineOperations.moveEffect i j
  | .clearEffects => PipelineOperations.clearEffects
  | .start => PipelineOperations.start
  | .stop => PipelineOperations.stop

/-- An added task exists and is not in the pipeline, indices are those that callers may use. -/
def Op.Valid (s : State) : Op → Prop
  | .addEffect t => t < s.heap.nextTask ∧ t ∉ s.pipe.effectTasks
  | .addEffectAt i t => 0 ≤ i ∧ t < s.heap.nextTask ∧ t ∉ s.pipe.effectTasks
  | .moveEffect i j => 0 ≤ i ∧ i < s.pipe.effectTasks.length ∧ 0 ≤ j
  | _ => True

instance (s : State) (op : Op) : Decidable (op.Valid s) := by
  cases op <;> unfold Op.Valid <;> infer_instance

def step (s : State) (op : Op) : State := (call op.code s).2

/-- What the constructor is given: allocated, pairwise distinct tasks and two different queues.
Thread objects beyond the counter have never been started. -/
structure Arguments (h : Heap) (uq pq : ℕ) (effects : List ℕ) : Prop where
  ends : uq ≠ pq
  uq_allocated : uq < h.nextQueue
  pq_allocated : pq < h.nextQueue
  distinct : effects.Nodup
  allocated : ∀ t ∈ effects, t < h.nextTask
  unborn : ∀ th, h.nextThread ≤ th → (h.thread th).state = .new

def built (h : Heap) (uq pq : ℕ) (effects : List ℕ) : State :=
  (call (constructor effects) ⟨h, blank uq pq⟩).2

def after (s : State) (ops : List Op) : State := ops.foldl step s

@[simp] theorem after_nil (s : State) : after s [] = s := rfl
@[simp] theorem after_cons (s : State) (op : Op) (ops : List Op) :
    after s (op :: ops) = after (step s op) ops := rfl
@[simp] theorem after_append (s : State) (ops ops' : List Op) :
    after s (ops ++ ops') = after (after s ops) ops' := List.foldl_append

inductive Run (s₀ : State) : List Op → State → Prop where
  | nil : Run s₀ [] s₀
  | snoc {ops s op} : Run s₀ ops s → op.Valid s → Run s₀ (ops ++ [op]) (step s op)

/-- Each call of the list is valid where it is made. -/
def ValidFrom (s : State) : List Op → Prop
  | [] => True
  | op :: ops => op.Valid s ∧ ValidFrom (step s op) ops

instance decidableValidFrom : (s : State) → (ops : List Op) → Decidable (ValidFrom s ops)
  | _, [] => inferInstanceAs (Decidable True)
  | s, op :: ops =>
    haveI := decidableValidFrom (step s op) ops
    inferInstanceAs (Decidable (op.Valid s ∧ ValidFrom (step s op) ops))

theorem Run.append {s₀ s : State} {ops ops' : List Op} (hr : Run s₀ ops s)
    (hv : ValidFrom s ops') : Run s₀ (ops ++ ops') (after s ops') := by
  induction ops' generalizing ops s with
  | nil => simpa using hr
  | cons op ops' ih => simpa using ih (hr.snoc hv.1) hv.2

theorem run_after {s : State} {ops : List Op} (hv : ValidFrom s ops) : Run s ops (after s ops) :=
  Run.append .nil hv

def wire (pq : ℕ) : ℕ → List ℕ → Heap → Heap
  | _, [], h => h
  | q, [t], h => (h.setInput t (some q)).setOutput t (some pq)
  | q, t :: t' :: ts, h =>
    wire pq h.nextQueue (t' :: ts)
      (((h.setInput t (some q)).newQueue).setOutput t (some h.nextQueue))

theorem call_constructorLoop (pq q : ℕ) (effects : List ℕ) (h : Heap) (p : Pipeline) :
    call (constructorLoop pq q effects) ⟨h, p⟩ =
      (.ok (), ⟨wire pq q effects h, { p with effectTasks := p.effectTasks ++ effects }⟩) := by
  induction effects generalizing q h p with
  | nil => simp [constructorLoop, wire]
  | cons t ts ih =>
    cases ts with
    | nil => simp [constructorLoop, wire, void, exec, State.setTasks]
    | cons t' ts =>
      have hi := ih h.nextQueue
        (((h.setInput t (some q)).newQueue).setOutput t (some h.nextQueue))
        { p with effectTasks := p.effectTasks ++ [t] }
      simpa [constructorLoop, wire, void, ref, exec, State.setTasks] using hi

theorem built_nil (h : Heap) (uq pq : ℕ) : built h uq pq [] = ⟨h, blank uq pq⟩ := by
  simp [built, constructor, field]

theorem wire_frame (pq q : ℕ) (effects : List ℕ) (h : Heap) :
    (wire pq q effects h).thread = h.thread ∧
    (wire pq q effects h).nextThread = h.nextThread ∧
    (wire pq q effects h).nextTask = h.nextTask := by
  induction effects generalizing q h with
  | nil => exact ⟨rfl, rfl, rfl⟩
  | cons t ts ih =>
    cases ts with
    | nil => simp [wire]
    | cons t' ts =>
      simpa [wire] using ih h.nextQueue
        (((h.setInput t (some q)).newQueue).setOutput t (some h.nextQueue))

theorem call_constructor (h : Heap) (uq pq : ℕ) {effects : List ℕ} (he : effects ≠ []) :
    call (constructor effects) ⟨h, blank uq pq⟩ = (.ok (),
      ⟨spawn (wire pq uq effects h) effects,
        ⟨uq, pq, false, List.range' h.nextThread effects.length, effects⟩⟩) := by
  have hl := call_constructorLoop pq uq effects h (blank uq pq)
  have hc := call_createThreads (wire pq uq effects h) uq pq false [] effects
  have hi : interruptAll (wire pq uq effects h) [] = wire pq uq effects h := by
    simp [interruptAll]
  simp only [call, constructor, field, Program.bind_eq, Program.read_bind,
    Program.done_bind, Program.run_read, id, blank, ne_eq, he, not_false_eq_true, if_true] at hl ⊢
  rw [Program.run_bind_of_ok hl]
  change call createThreads _ = _
  simp only [List.nil_append]
  rw [hc, hi, (wire_frame pq uq effects h).2.1]
  simp [restarted]

theorem built_cons (h : Heap) (uq pq : ℕ) {effects : List ℕ} (he : effects ≠ []) :
    built h uq pq effects =
      ⟨spawn (wire pq uq effects h) effects,
        ⟨uq, pq, false, List.range' h.nextThread effects.length, effects⟩⟩ := by
  rw [built, call_constructor h uq pq he]

theorem restarted_pipe (s : State) : (restarted s).pipe = s.pipe := by
  unfold restarted
  split <;> rfl

theorem restarted_heap (s : State) :
    (restarted s).heap.task = s.heap.task ∧ (restarted s).heap.nextTask = s.heap.nextTask ∧
    (restarted s).heap.nextThread = s.heap.nextThread ∧
    (restarted s).heap.nextQueue = s.heap.nextQueue := by
  unfold restarted
  split <;> simp

/-- Whether a change adds a task or interrupts threads that it keeps. -/
inductive Kind where
  | plain
  | adds (task : ℕ)
  | halts

/-- All that an operation can do to a pipeline, in one or two changes. The list names the
threads that leave `effectThreads` without an interrupt. -/
inductive Change : State → List ℕ → Kind → State → Prop where
  | newTask (h p e) : Change ⟨h, p⟩ [] .plain ⟨h.newTask e, p⟩
  | start (h p) :
    Change ⟨h, p⟩ [] .plain ⟨startAll h p.effectThreads, { p with running := true }⟩
  | stop (h p) :
    Change ⟨h, p⟩ [] .halts ⟨interruptAll h p.effectThreads, { p with running := false }⟩
  | clear (h uq pq r ths ts) :
    Change ⟨h, ⟨uq, pq, r, ths, ts⟩⟩ [] .plain (restarted ⟨(interruptAll
        (((h.newEffect.newTask ⟨h.nextEffect, .identity⟩).setInput h.nextTask (some uq)).setOutput
          h.nextTask (some pq)) ths).newThread h.nextTask,
      ⟨uq, pq, r, [h.nextThread], [h.nextTask]⟩⟩)
  | addFirst (h uq pq r t) :
    Change ⟨h, ⟨uq, pq, r, [], []⟩⟩ [] (.adds t) (restarted
      ⟨((h.setOutput t (some pq)).setInput t (some uq)).newThread t,
        ⟨uq, pq, r, [h.nextThread], [t]⟩⟩)
  | addLast (h uq pq r us u xs a t) (hl : us.length = xs.length) :
    Change ⟨h, ⟨uq, pq, r, us ++ [u], xs ++ [a]⟩⟩ [] (.adds t) (restarted
      ⟨(((((((h.setOutput t (some pq)).interrupt u).newQueue).setOutput a
          (some h.nextQueue)).newThread a).setInput t (some h.nextQueue)).newThread t),
        ⟨uq, pq, r, us ++ [h.nextThread, h.nextThread + 1], xs ++ [a, t]⟩⟩)
  | addHead (h uq pq r us u xs a t) (hl : us.length = xs.length) :
    Change ⟨h, ⟨uq, pq, r, u :: us, a :: xs⟩⟩ [] (.adds t) (restarted
      ⟨(((((((h.setInput t (h.task a).inputQueue).newQueue).setOutput t
          (some h.nextQueue)).setInput a (some h.nextQueue)).newThread t).interrupt u).newThread a),
        ⟨uq, pq, r, h.nextThread :: (h.nextThread + 1) :: us, t :: a :: xs⟩⟩)
  | addMiddle (h uq pq r us u v vs xs a b ys t) (hl : us.length = xs.length)
      (hm : vs.length = ys.length) :
    Change ⟨h, ⟨uq, pq, r, us ++ u :: v :: vs, xs ++ a :: b :: ys⟩⟩ [u, v] (.adds t) (restarted
      ⟨(((((((h.setInput t (h.task a).outputQueue).newQueue).setOutput t
          (some h.nextQueue)).setInput b (some h.nextQueue)).newThread t).newThread a).newThread b),
        ⟨uq, pq, r, us ++ (h.nextThread + 1) :: h.nextThread :: (h.nextThread + 2) :: vs,
          xs ++ a :: t :: b :: ys⟩⟩)
  | removeInner (h uq pq r us u v vs xs a b ys) (hl : us.length = xs.length)
      (hm : vs.length = ys.length) :
    Change ⟨h, ⟨uq, pq, r, us ++ u :: v :: vs, xs ++ a :: b :: ys⟩⟩ [] .plain (restarted
      ⟨((((h.interrupt u).setInput b (h.task a).inputQueue).interrupt v).newThread b),
        ⟨uq, pq, r, us ++ h.nextThread :: vs, xs ++ b :: ys⟩⟩)
  | removeLast (h uq pq r us u v xs a b) (hl : us.length = xs.length) :
    Change ⟨h, ⟨uq, pq, r, us ++ [u, v], xs ++ [a, b]⟩⟩ [] .plain (restarted
      ⟨((((h.interrupt v).setOutput a (h.task b).outputQueue).interrupt u).newThread a),
        ⟨uq, pq, r, us ++ [h.nextThread], xs ++ [a]⟩⟩)
  | removeOnly (h uq pq r u a) :
    Change ⟨h, ⟨uq, pq, r, [u], [a]⟩⟩ [] .plain (restarted ⟨(interruptAll
        ((((h.interrupt u).newEffect.newTask ⟨h.nextEffect, .identity⟩).setInput h.nextTask
          (some uq)).setOutput h.nextTask (some pq)) []).newThread h.nextTask,
      ⟨uq, pq, r, [h.nextThread], [h.nextTask]⟩⟩)

/-- The threads around an insertion strictly inside the list. -/
def displaced (s : State) (index : ℤ) : List ℕ :=
  if 0 < index ∧ index < s.pipe.effectTasks.length then
    (s.pipe.effectThreads.drop (index.toNat - 1)).take 2
  else []

theorem split_at {l : List ℕ} {i : ℕ} (hi : i < l.length) :
    ∃ xs a ys, l = xs ++ a :: ys ∧ xs.length = i :=
  ⟨l.take i, l[i], l.drop (i + 1), by simp, by simp; omega⟩

theorem split_last {l : List ℕ} (hl : l ≠ []) : ∃ xs a, l = xs ++ [a] :=
  ⟨l.dropLast, l.getLast hl, (List.dropLast_append_getLast hl).symm⟩

theorem addEffect_change {s : State} (hs : s.pipe.effectThreads.length = s.pipe.effectTasks.length)
    (t : ℕ) :
    ∃ m, call (addEffect t) s = (.ok (), restarted m) ∧ Change s [] (.adds t) (restarted m) ∧
      m.pipe.effectTasks = s.pipe.effectTasks ++ [t] := by
  obtain ⟨h, uq, pq, r, ths, ts⟩ := s
  rcases eq_or_ne ts [] with rfl | hne
  · obtain rfl : ths = [] := by simpa using hs
    exact ⟨_, call_addEffect_empty h uq pq r t, .addFirst h uq pq r t, rfl⟩
  · obtain ⟨xs, a, rfl⟩ := split_last hne
    obtain ⟨us, u, rfl⟩ := split_last (l := ths) (by rintro rfl; simp at hs)
    exact ⟨_, call_addEffect_last h uq pq r xs us a u t,
      .addLast h uq pq r us u xs a t (by simpa using hs), by simp⟩

/-- The last branch looks up both neighbours before it changes anything. -/
theorem addEffectAt_negative (s : State) {index : ℤ} (hi : index < 0) (t : ℕ) :
    (call (addEffectAt index t) s).2 = s := by
  have hlt : ¬ (s.pipe.effectTasks.length : ℤ) ≤ index := by omega
  simp [addEffectAt, field, effectTasksGet, ArrayList.get, hlt, hi, hi.ne]

theorem removeEffect_outside (s : State) {index : ℤ}
    (ho : ¬ (0 ≤ index ∧ index < s.pipe.effectTasks.length)) :
    call (removeEffect index) s = (.ok (), s) := by
  obtain ⟨h, uq, pq, running, ths, ts⟩ := s
  exact call_removeEffect_outside h uq pq running ths ts index (by simp only at ho; omega)

theorem moveEffect_outside (s : State) {startIndex endIndex : ℤ}
    (ho : ¬ (0 ≤ startIndex ∧ startIndex < s.pipe.effectTasks.length)) :
    (call (moveEffect startIndex endIndex) s).2 = s := by
  -- the first statement throws
  have hg : ArrayList.get s.pipe.effectTasks startIndex = none := by
    unfold ArrayList.get
    split
    · rfl
    · apply List.getElem?_eq_none
      omega
  simp [moveEffect, effectTasksGet, hg]

/-- `moveEffect` is a removal and an insertion, with the task looked up before both. -/
theorem call_moveEffect {s m : State} {startIndex : ℤ} {a : ℕ}
    (hg : ArrayList.get s.pipe.effectTasks startIndex = some a)
    (hm : call (removeEffect startIndex) s = (.ok (), m)) (endIndex : ℤ) :
    call (moveEffect startIndex endIndex) s = call (addEffectAt endIndex a) m := by
  simp only [call, moveEffect, effectTasksGet, Program.bind_eq, Program.read_bind,
    Program.run_read, id, hg, Program.done_bind] at hm ⊢
  rw [Program.run_bind_of_ok hm]

theorem addEffectAt_change {s : State}
    (hs : s.pipe.effectThreads.length = s.pipe.effectTasks.length)
    {index : ℤ} (hi : 0 ≤ index) (t : ℕ) :
    ∃ m, call (addEffectAt index t) s = (.ok (), m) ∧
      Change s (displaced s index) (.adds t) m ∧
      m.pipe.effectTasks =
        s.pipe.effectTasks.insertIdx (min index.toNat s.pipe.effectTasks.length) t := by
  by_cases hend : (s.pipe.effectTasks.length : ℤ) ≤ index
  · obtain ⟨m, hm, hc, ht⟩ := addEffect_change hs t
    have hd : displaced s index = [] := by
      unfold displaced
      rw [if_neg (by omega)]
    obtain ⟨h, uq, pq, r, ths, ts⟩ := s
    refine ⟨_, call_addEffectAt_end h uq pq r ths ts t index hend hm, hd ▸ hc, ?_⟩
    rw [restarted_pipe, ht, min_eq_right (by simp only at hend ⊢; omega)]
    simp
  obtain ⟨h, uq, pq, r, ths, ts⟩ := s
  simp only [not_le] at hend hs
  rcases eq_or_lt_of_le hi with rfl | hpos
  · obtain ⟨xs, a, ys, rfl, hxs⟩ := split_at (l := ts) (i := 0) (by omega)
    obtain ⟨us, u, vs, rfl, hus⟩ := split_at (l := ths) (i := 0) (by omega)
    obtain rfl : xs = [] := by simpa using hxs
    obtain rfl : us = [] := by simpa using hus
    exact ⟨_, call_addEffectAt_head h uq pq r vs ys a u t,
      .addHead h uq pq r vs u ys a t (by simpa using hs), by simp [restarted_pipe]⟩
  · obtain ⟨i, rfl⟩ : ∃ i : ℕ, index = i + 1 := ⟨(index - 1).toNat, by omega⟩
    obtain ⟨xs, a, ys, rfl, hxs⟩ := split_at (l := ts) (i := i) (by omega)
    obtain ⟨us, u, vs, rfl, hus⟩ := split_at (l := ths) (i := i) (by omega)
    match ys, vs with
    | [], _ => simp at hend; omega
    | _ :: _, [] => simp at hs; omega
    | b :: ys, v :: vs =>
      have hl : us.length = xs.length := hus.trans hxs.symm
      have hd : displaced ⟨h, ⟨uq, pq, r, us ++ u :: v :: vs, xs ++ a :: b :: ys⟩⟩ (i + 1) =
          [u, v] := by
        unfold displaced
        rw [if_pos ⟨hpos, hend⟩]
        rw [show ((i : ℤ) + 1).toNat - 1 = us.length by omega]
        simp
      rw [hd, ← hxs]
      refine ⟨_, call_addEffectAt_middle h uq pq r us vs xs ys hl a b u v t,
        .addMiddle h uq pq r us u v vs xs a b ys t hl (by simp [hl] at hs; omega), ?_⟩
      have hi := insertIdx_append (xs ++ [a]) (b :: ys) t
      rw [restarted_pipe, min_eq_left (by simp), Int.toNat_natCast_add_one]
      simpa using hi.symm

/-- One new identity task stands in the list. -/
structure Cleared (s m : State) : Prop where
  tasks : m.pipe.effectTasks = [s.heap.nextTask]
  nextTask : m.heap.nextTask = s.heap.nextTask + 1
  identity : (m.heap.task s.heap.nextTask).effect.cls = .identity

theorem Cleared.restarted {s m : State} (h : Cleared s m) : Cleared s (restarted m) := by
  obtain ⟨ht, hn, -, -⟩ := restarted_heap m
  obtain ⟨h1, h2, h3⟩ := h
  constructor
  · rw [restarted_pipe, h1]
  · rw [hn, h2]
  · rw [ht, h3]

theorem removeEffect_change {s : State}
    (hs : s.pipe.effectThreads.length = s.pipe.effectTasks.length) {index : ℤ}
    (hi : 0 ≤ index) (hlt : index < s.pipe.effectTasks.length) :
    ∃ m a, call (removeEffect index) s = (.ok (), m) ∧ Change s [] .plain m ∧
      ArrayList.get s.pipe.effectTasks index = some a ∧
      (if s.pipe.effectTasks.length = 1 then Cleared s m else
        m.pipe.effectTasks = s.pipe.effectTasks.eraseIdx index.toNat ∧
          m.heap.nextTask = s.heap.nextTask) ∧
      (s.pipe.effectTasks.Nodup → (∀ t ∈ s.pipe.effectTasks, t < s.heap.nextTask) →
        a < m.heap.nextTask ∧ a ∉ m.pipe.effectTasks) := by
  obtain ⟨h, uq, pq, r, ths, ts⟩ := s
  obtain ⟨i, rfl⟩ : ∃ i : ℕ, index = i := ⟨index.toNat, by omega⟩
  simp only [Nat.cast_lt] at hlt hs
  obtain ⟨xs, a, ys, rfl, rfl⟩ := split_at hlt
  obtain ⟨us, u, vs, rfl, hus⟩ := split_at (l := ths) (i := xs.length) (by omega)
  have hg := get_append xs a ys
  match ys, vs with
  | [], _ :: _ => simp [hus] at hs
  | _ :: _, [] => simp [hus] at hs
  | b :: ys, v :: vs =>
    refine ⟨_, a, call_removeEffect_inner h uq pq r us vs xs ys hus a b u v,
      .removeInner h uq pq r us u v vs xs a b ys hus (by simp [hus] at hs; omega), hg, ?_, ?_⟩
    · rw [if_neg (by simp; omega), restarted_pipe, (restarted_heap _).2.1, Int.toNat_natCast,
        List.eraseIdx_append_of_length_le le_rfl]
      simp
    intro hn ha
    rw [restarted_pipe, (restarted_heap _).2.1]
    simp only [Heap.newThread_nextTask, Heap.interrupt_nextTask, Heap.setInput_nextTask]
    exact ⟨ha a (by simp), by grind⟩
  | [], [] =>
    rcases eq_or_ne xs [] with rfl | hne
    · obtain rfl : us = [] := by simpa using hus
      refine ⟨_, a, (call_removeEffect_only h uq pq r a u).trans
        (call_clearEffects (h.interrupt u) uq pq r [] []), .removeOnly h uq pq r u a, hg,
        ?_, ?_⟩
      · rw [if_pos (by simp)]
        exact .restarted ⟨rfl, rfl, by simp⟩
      intro _ ha
      rw [restarted_pipe, (restarted_heap _).2.1]
      have hlt : a < h.nextTask := ha a (by simp)
      exact ⟨by simp; omega, by simp; omega⟩
    · obtain ⟨xs, c, rfl⟩ := split_last hne
      obtain ⟨us, w, rfl⟩ := split_last (l := us) (by rintro rfl; simp at hus)
      have hl : us.length = xs.length := by simpa using hus
      have hc := call_removeEffect_last h uq pq r us xs hl c a w u
      simp only [List.append_assoc, List.cons_append, List.nil_append, List.length_append,
        List.length_cons, List.length_nil, Nat.cast_add, Nat.cast_one, zero_add] at hc hg ⊢
      refine ⟨_, a, hc, .removeLast h uq pq r us w u xs c a hl, hg, ?_, ?_⟩
      · have he : (xs ++ [c, a]).eraseIdx (xs.length + 1) = xs ++ [c] := by
          rw [List.eraseIdx_append_of_length_le (by omega)]
          simp
        rw [if_neg (by simp), restarted_pipe, (restarted_heap _).2.1,
          Int.toNat_natCast_add_one, he]
        exact ⟨rfl, rfl⟩
      intro hn ha
      rw [restarted_pipe, (restarted_heap _).2.1]
      simp only [Heap.newThread_nextTask, Heap.interrupt_nextTask, Heap.setOutput_nextTask]
      exact ⟨ha a (by simp), by grind⟩

/-- The task that a thread runs. No statement ever changes it. -/
def taskOf (h : Heap) (th : ℕ) : ℕ := (h.thread th).task

section TaskOf

variable (h : Heap) (l : List ℕ) (th : ℕ) (t : ℕ) (q : Option ℕ)

@[simp] theorem taskOf_setInput : taskOf (h.setInput t q) = taskOf h := rfl
@[simp] theorem taskOf_setOutput : taskOf (h.setOutput t q) = taskOf h := rfl
@[simp] theorem taskOf_newQueue : taskOf h.newQueue = taskOf h := rfl
@[simp] theorem taskOf_newEffect : taskOf h.newEffect = taskOf h := rfl
@[simp] theorem taskOf_newTask (e : Effect) : taskOf (h.newTask e) = taskOf h := rfl

@[simp] theorem taskOf_newThread :
    taskOf (h.newThread t) = Function.update (taskOf h) h.nextThread t := by
  funext x
  by_cases hx : x = h.nextThread
  · subst x
    simp [taskOf]
  · simp [taskOf, hx]

@[simp] theorem taskOf_interrupt : taskOf (h.interrupt th) = taskOf h := by
  funext x
  by_cases hx : x = th
  · subst x
    simp [taskOf]
  · simp [taskOf, hx]

@[simp] theorem taskOf_startAll : taskOf (startAll h l) = taskOf h := by
  funext x
  by_cases hx : x ∈ l <;> simp [taskOf, hx]

@[simp] theorem taskOf_interruptAll : taskOf (interruptAll h l) = taskOf h := by
  funext x
  by_cases hx : x ∈ l <;> simp [taskOf, hx]

@[simp] theorem taskOf_restarted (s : State) : taskOf (restarted s).heap = taskOf s.heap := by
  unfold restarted
  split <;> simp

theorem map_update_fresh {f : ℕ → ℕ} {l : List ℕ} {n x : ℕ} (hn : n ∉ l) :
    l.map (Function.update f n x) = l.map f :=
  List.map_congr_left fun a ha => Function.update_of_ne (by rintro rfl; exact hn ha) _ _

end TaskOf

/-- Position by position a thread of its own for each task. -/
structure Staffed (s : State) : Prop where
  aligned : s.pipe.effectThreads.map (taskOf s.heap) = s.pipe.effectTasks
  threads_distinct : s.pipe.effectThreads.Nodup
  threads_allocated : ∀ th ∈ s.pipe.effectThreads, th < s.heap.nextThread

/-- A staffed pipeline of pairwise distinct tasks. -/
structure Shape (s : State) : Prop extends Staffed s where
  tasks_distinct : s.pipe.effectTasks.Nodup
  tasks_allocated : ∀ t ∈ s.pipe.effectTasks, t < s.heap.nextTask

theorem Staffed.length {s : State} (h : Staffed s) :
    s.pipe.effectThreads.length = s.pipe.effectTasks.length := by
  rw [← h.aligned, List.length_map]

theorem Staffed.taskOf_mem {s : State} (h : Staffed s) {th : ℕ}
    (hth : th ∈ s.pipe.effectThreads) : taskOf s.heap th ∈ s.pipe.effectTasks := by
  rw [← h.aligned]
  exact List.mem_map_of_mem hth

theorem Staffed.restarted {s : State} (h : Staffed s) : Staffed (restarted s) := by
  obtain ⟨-, -, hm, -⟩ := restarted_heap s
  obtain ⟨h1, h2, h3⟩ := h
  constructor <;> rw [restarted_pipe] <;> simp_all

/-- Threads are only ever replaced by threads that were just created. -/
theorem replace_fresh (us old news vs : List ℕ) {n n' : ℕ} (hd : (us ++ (old ++ vs)).Nodup)
    (hb : ∀ x ∈ us ++ (old ++ vs), x < n) (hn : news.Nodup)
    (hf : ∀ x ∈ news, n ≤ x ∧ x < n') (hle : n ≤ n') :
    (us ++ (news ++ vs)).Nodup ∧ ∀ x ∈ us ++ (news ++ vs), x < n' := by
  simp only [List.nodup_append, List.mem_append] at hd hb ⊢
  refine ⟨⟨hd.1, ⟨hn, hd.2.1.2.1, ?_⟩, ?_⟩, ?_⟩
  · intro x hx y hy
    have := (hf x hx).1
    have := hb y (by simp [hy])
    omega
  · rintro x hx y (hy | hy)
    · have := (hf y hy).1
      have := hb x (by simp [hx])
      omega
    · exact hd.2.2 x hx y (Or.inr hy)
  · rintro x (hx | hx | hx)
    · exact (hb x (by simp [hx])).trans_le hle
    · exact (hf x hx).2
    · exact (hb x (by simp [hx])).trans_le hle

theorem not_mem_of_bound {l : List ℕ} {n : ℕ} (h : ∀ x ∈ l, x < n) (x : ℕ) (hx : n ≤ x) :
    x ∉ l :=
  fun hm => absurd (h x hm) (by omega)

theorem change_staffed {s s' : State} {l : List ℕ} {kind : Kind}
    (hc : Change s l kind s') (h : Staffed s) : Staffed s' := by
  obtain ⟨ha, hd', hb'⟩ := h
  cases hc with
  | newTask h p e => exact ⟨by simpa using ha, hd', hb'⟩
  | start h p => exact ⟨by simpa using ha, hd', hb'⟩
  | stop h p => exact ⟨by simpa using ha, hd', hb'⟩
  | clear h uq pq r ths ts => exact .restarted ⟨by simp, by simp, by simp⟩
  | addFirst h uq pq r t => exact .restarted ⟨by simp, by simp, by simp⟩
  | addLast h uq pq r us u xs a t hl =>
    dsimp only at ha hd' hb'
    simp only [List.map_append, List.map_cons, List.map_nil] at ha
    obtain ⟨hxs, -⟩ := List.append_inj ha (by simpa using hl)
    obtain ⟨hf, hf'⟩ := replace_fresh us [u] [h.nextThread, h.nextThread + 1] [] hd' hb'
      (by simp) (by simp : ∀ x ∈ _, _ ≤ x ∧ x < h.nextThread + 2) (by omega)
    have hus := not_mem_of_bound fun x (hx : x ∈ us) => hb' x (by simp [hx])
    refine .restarted ⟨?_, hf, hf'⟩
    simp [map_update_fresh, hus, hxs]
  | addHead h uq pq r us u xs a t hl =>
    dsimp only at ha hd' hb'
    simp only [List.map_cons, List.cons.injEq] at ha
    obtain ⟨hf, hf'⟩ := replace_fresh [] [u] [h.nextThread, h.nextThread + 1] us hd' hb'
      (by simp) (by simp : ∀ x ∈ _, _ ≤ x ∧ x < h.nextThread + 2) (by omega)
    have hus := not_mem_of_bound fun x (hx : x ∈ us) => hb' x (by simp [hx])
    refine .restarted ⟨?_, hf, hf'⟩
    simp [map_update_fresh, hus, ha.2]
  | addMiddle h uq pq r us u v vs xs a b ys t hl hm =>
    dsimp only at ha hd' hb'
    simp only [List.map_append, List.map_cons] at ha
    obtain ⟨hxs, hys⟩ := List.append_inj ha (by simpa using hl)
    simp only [List.cons.injEq] at hys
    obtain ⟨hf, hf'⟩ := replace_fresh us [u, v]
      [h.nextThread + 1, h.nextThread, h.nextThread + 2] vs hd' hb'
      (by simp) (by simp : ∀ x ∈ _, _ ≤ x ∧ x < h.nextThread + 3) (by omega)
    have hus := not_mem_of_bound fun x (hx : x ∈ us) => hb' x (by simp [hx])
    have hvs := not_mem_of_bound fun x (hx : x ∈ vs) => hb' x (by simp [hx])
    refine .restarted ⟨?_, hf, hf'⟩
    simp [map_update_fresh, add_assoc, hus, hvs, hxs, hys]
  | removeInner h uq pq r us u v vs xs a b ys hl hm =>
    dsimp only at ha hd' hb'
    simp only [List.map_append, List.map_cons] at ha
    obtain ⟨hxs, hys⟩ := List.append_inj ha (by simpa using hl)
    simp only [List.cons.injEq] at hys
    obtain ⟨hf, hf'⟩ := replace_fresh us [u, v] [h.nextThread] vs hd' hb'
      (by simp) (by simp : ∀ x ∈ _, _ ≤ x ∧ x < h.nextThread + 1) (by omega)
    have hus := not_mem_of_bound fun x (hx : x ∈ us) => hb' x (by simp [hx])
    have hvs := not_mem_of_bound fun x (hx : x ∈ vs) => hb' x (by simp [hx])
    refine .restarted ⟨?_, hf, hf'⟩
    simp [map_update_fresh, hus, hvs, hxs, hys]
  | removeLast h uq pq r us u v xs a b hl =>
    dsimp only at ha hd' hb'
    simp only [List.map_append, List.map_cons, List.map_nil] at ha
    obtain ⟨hxs, hys⟩ := List.append_inj ha (by simpa using hl)
    obtain ⟨hf, hf'⟩ := replace_fresh us [u, v] [h.nextThread] [] hd' hb'
      (by simp) (by simp : ∀ x ∈ _, _ ≤ x ∧ x < h.nextThread + 1) (by omega)
    have hus := not_mem_of_bound fun x (hx : x ∈ us) => hb' x (by simp [hx])
    refine .restarted ⟨?_, hf, hf'⟩
    simp [map_update_fresh, hus, hxs]
  | removeOnly h uq pq r u a => exact .restarted ⟨by simp, by simp, by simp⟩

def Fresh (s : State) (kind : Kind) : Prop :=
  ∀ t, kind = .adds t → t < s.heap.nextTask ∧ t ∉ s.pipe.effectTasks

theorem plain_fresh (s : State) : Fresh s .plain := nofun

theorem change_tasks {s s' : State} {l : List ℕ} {kind : Kind}
    (hc : Change s l kind s') (hf : Fresh s kind) (hd : s.pipe.effectTasks.Nodup)
    (hb : ∀ t ∈ s.pipe.effectTasks, t < s.heap.nextTask) :
    s'.pipe.effectTasks.Nodup ∧ ∀ t ∈ s'.pipe.effectTasks, t < s'.heap.nextTask := by
  cases hc with
  | newTask h p e => exact ⟨hd, fun t ht => (hb t ht).trans (by simp)⟩
  | start h p => exact ⟨hd, hb⟩
  | stop h p => exact ⟨hd, hb⟩
  | clear h uq pq r ths ts =>
    rw [restarted_pipe, (restarted_heap _).2.1]
    simp
  | addFirst h uq pq r t =>
    rw [restarted_pipe, (restarted_heap _).2.1]
    simpa using (hf t rfl).1
  | addLast h uq pq r us u xs a t hl =>
    obtain ⟨hv, hn⟩ := hf t rfl
    rw [restarted_pipe, (restarted_heap _).2.1]
    refine ⟨by grind, fun x hx => ?_⟩
    have hx : x ∈ xs ++ [a] ∨ x = t := by simpa [or_assoc] using hx
    rcases hx with hx | rfl
    · exact hb x hx
    · exact hv
  | addHead h uq pq r us u xs a t hl =>
    obtain ⟨hv, hn⟩ := hf t rfl
    rw [restarted_pipe, (restarted_heap _).2.1]
    refine ⟨List.nodup_cons.mpr ⟨hn, hd⟩, fun x hx => ?_⟩
    rcases List.mem_cons.mp hx with rfl | hx
    · exact hv
    · exact hb x hx
  | addMiddle h uq pq r us u v vs xs a b ys t hl hm =>
    obtain ⟨hv, hn⟩ := hf t rfl
    rw [restarted_pipe, (restarted_heap _).2.1]
    refine ⟨by grind, fun x hx => ?_⟩
    have hx : x ∈ xs ++ a :: b :: ys ∨ x = t := by
      simp only [List.mem_append, List.mem_cons] at hx ⊢
      tauto
    rcases hx with hx | rfl
    · exact hb x hx
    · exact hv
  | removeInner h uq pq r us u v vs xs a b ys hl hm =>
    rw [restarted_pipe, (restarted_heap _).2.1]
    have hsub : (xs ++ b :: ys).Sublist (xs ++ a :: b :: ys) := by simp
    exact ⟨hd.sublist hsub, fun x hx => hb x (hsub.subset hx)⟩
  | removeLast h uq pq r us u v xs a b hl =>
    rw [restarted_pipe, (restarted_heap _).2.1]
    have hsub : (xs ++ [a]).Sublist (xs ++ [a, b]) := by simp
    exact ⟨hd.sublist hsub, fun x hx => hb x (hsub.subset hx)⟩
  | removeOnly h uq pq r u a =>
    rw [restarted_pipe, (restarted_heap _).2.1]
    simp

theorem change_shape {s s' : State} {l : List ℕ} {kind : Kind}
    (hc : Change s l kind s') (hf : Fresh s kind) (h : Shape s) : Shape s' := by
  obtain ⟨hd, hb⟩ := change_tasks hc hf h.tasks_distinct h.tasks_allocated
  exact ⟨change_staffed hc h.toStaffed, hd, hb⟩

section TaskFields

variable (h : Heap) (t x : ℕ) (q : Option ℕ)

theorem setInput_effect : ((h.setInput t q).task x).effect = (h.task x).effect := by
  by_cases hx : x = t <;> simp [hx]

theorem setOutput_effect : ((h.setOutput t q).task x).effect = (h.task x).effect := by
  by_cases hx : x = t <;> simp [hx]

theorem setInput_inputQueue :
    ((h.setInput t q).task x).inputQueue = if x = t then q else (h.task x).inputQueue := by
  by_cases hx : x = t <;> simp [hx]

theorem setInput_outputQueue :
    ((h.setInput t q).task x).outputQueue = (h.task x).outputQueue := by
  by_cases hx : x = t <;> simp [hx]

theorem setOutput_inputQueue :
    ((h.setOutput t q).task x).inputQueue = (h.task x).inputQueue := by
  by_cases hx : x = t <;> simp [hx]

theorem setOutput_outputQueue :
    ((h.setOutput t q).task x).outputQueue = if x = t then q else (h.task x).outputQueue := by
  by_cases hx : x = t <;> simp [hx]

theorem newTask_effect (e : Effect) (hx : x < h.nextTask) :
    ((h.newTask e).task x).effect = (h.task x).effect := by
  simp [hx.ne]

end TaskFields

/-- A task keeps its effect, and a task that is added is one that exists already. -/
theorem change_effect {s s' : State} {l : List ℕ} {kind : Kind} (hc : Change s l kind s') :
    (∀ t < s.heap.nextTask, (s'.heap.task t).effect = (s.heap.task t).effect) ∧
      s.heap.nextTask ≤ s'.heap.nextTask ∧
      ∀ t, kind = .adds t → s'.heap.nextTask = s.heap.nextTask := by
  refine ⟨fun t ht => ?_, ?_, fun t hk => ?_⟩
  · cases hc with
    | newTask h p e => exact newTask_effect h t e ht
    | start h p | stop h p => rfl
    | clear h uq pq r ths ts =>
      rw [(restarted_heap _).1, Heap.newThread_task, interruptAll_task, setOutput_effect,
        setInput_effect]
      exact newTask_effect h.newEffect t _ ht
    | removeOnly h uq pq r u a =>
      rw [(restarted_heap _).1, Heap.newThread_task, interruptAll_task, setOutput_effect,
        setInput_effect]
      exact newTask_effect (h.interrupt u).newEffect t _ ht
    | _ =>
      rw [(restarted_heap _).1]
      simp only [Heap.newThread_task, Heap.interrupt_task, setInput_effect, setOutput_effect,
        Heap.newQueue_task]
  · cases hc with
    | newTask h p e => exact Nat.le_succ _
    | start h p | stop h p => exact le_rfl
    | _ =>
      rw [(restarted_heap _).2.1]
      simp
  · subst hk
    cases hc <;> rw [(restarted_heap _).2.1] <;> rfl

/-- The threads that the operation takes out of `effectThreads` without an interrupt. -/
def Op.unattended (s : State) : Op → List ℕ
  | .addEffectAt i _ => displaced s i
  | .moveEffect i j =>
    if 0 ≤ i ∧ i < s.pipe.effectTasks.length then
      displaced (call (PipelineOperations.removeEffect i) s).2 j
    else []
  | _ => []

def stateOf (s : State) (th : ℕ) : ThreadState := (s.heap.thread th).state

/-- Those around an insertion that are running when it begins. -/
def orphaned (s : State) (index : ℤ) : List ℕ :=
  (displaced s index).filter fun th => stateOf s th = .started

def Op.orphans (s : State) : Op → List ℕ
  | .addEffectAt i _ => orphaned s i
  | .moveEffect i j =>
    if 0 ≤ i ∧ i < s.pipe.effectTasks.length then
      orphaned (call (PipelineOperations.removeEffect i) s).2 j
    else []
  | _ => []

/-- A task that is moved has been taken out before it is added again. -/
theorem moveEffect_inside {s : State} (hs : Staffed s) {i : ℤ}
    (hi : 0 ≤ i ∧ i < s.pipe.effectTasks.length) (j : ℤ) :
    ∃ m t, Change s [] .plain m ∧ (Shape s → Fresh m (.adds t)) ∧
      step s (.moveEffect i j) = (call (addEffectAt j t) m).2 ∧
      (Op.moveEffect i j).unattended s = displaced m j ∧
      (Op.moveEffect i j).orphans s = (displaced m j).filter (stateOf m · = .started) := by
  obtain ⟨m, a, hm, hc, hg, -, ha⟩ := removeEffect_change hs.length hi.1 hi.2
  refine ⟨m, a, hc, ?_, ?_, ?_, ?_⟩
  · intro hsh x hx
    obtain rfl : a = x := by simpa using hx
    exact ha hsh.tasks_distinct hsh.tasks_allocated
  · rw [step, Op.code, call_moveEffect hg hm j]
  · rw [Op.unattended, if_pos hi, hm]
  · rw [Op.orphans, if_pos hi, hm, orphaned]

/-- Inversion of a step: nothing, one change, or the two changes of `moveEffect`. The added
task is fresh if the call was valid. -/
theorem step_changes {s : State} (hs : Staffed s) (op : Op) :
    step s op = s ∧ op.orphans s = [] ∨
    (∃ kind, Change s (op.unattended s) kind (step s op) ∧ (op.Valid s → Fresh s kind) ∧
      (kind = .halts → op = .stop) ∧
      op.orphans s = (op.unattended s).filter (stateOf s · = .started)) ∨
    ∃ m t, Change s [] .plain m ∧ Change m (op.unattended s) (.adds t) (step s op) ∧
      (Shape s → Fresh m (.adds t)) ∧
      op.orphans s = (op.unattended s).filter (stateOf m · = .started) := by
  have hlen := hs.length
  cases op with
  | newTask e =>
    refine Or.inr (Or.inl ⟨.plain, ?_, fun _ => plain_fresh s, by simp, rfl⟩)
    have hstep : step s (.newTask e) = ⟨s.heap.newTask e, s.pipe⟩ := by
      simp [step, Op.code, ref, exec]
    exact hstep ▸ .newTask s.heap s.pipe e
  | addEffect t =>
    obtain ⟨m, hm, hc, -⟩ := addEffect_change hlen t
    refine Or.inr (Or.inl ⟨.adds t, ?_, fun hv x hx => ?_, by simp, rfl⟩)
    · simpa [step, Op.code, Op.unattended, hm] using hc
    · obtain rfl : t = x := by simpa using hx
      exact hv
  | addEffectAt i t =>
    rcases lt_or_ge i 0 with hi | hi
    · refine Or.inl ⟨addEffectAt_negative s hi t, ?_⟩
      simp [Op.orphans, orphaned, displaced, hi.le]
    · obtain ⟨m, hm, hc, -⟩ := addEffectAt_change hlen hi t
      refine Or.inr (Or.inl ⟨.adds t, ?_, fun hv x hx => ?_, by simp, rfl⟩)
      · simpa [step, Op.code, Op.unattended, hm] using hc
      · obtain rfl : t = x := by simpa using hx
        exact hv.2
  | removeEffect i =>
    by_cases hi : 0 ≤ i ∧ i < s.pipe.effectTasks.length
    · obtain ⟨m, a, hm, hc, -⟩ := removeEffect_change hlen hi.1 hi.2
      refine Or.inr (Or.inl ⟨.plain, ?_, fun _ => plain_fresh s, by simp, rfl⟩)
      simpa [step, Op.code, Op.unattended, hm] using hc
    · refine Or.inl ⟨?_, rfl⟩
      rw [step, Op.code, removeEffect_outside s hi]
  | moveEffect i j =>
    by_cases hi : 0 ≤ i ∧ i < s.pipe.effectTasks.length
    swap
    · exact Or.inl ⟨moveEffect_outside s hi, if_neg hi⟩
    obtain ⟨m, t, hc, hfresh, hmove, hun, horph⟩ := moveEffect_inside hs hi j
    rw [hmove, hun, horph]
    rcases lt_or_ge j 0 with hj | hj
    · have hd : displaced m j = [] := by
        rw [displaced, if_neg (by omega)]
      rw [addEffectAt_negative m hj t, hd]
      exact Or.inr (Or.inl ⟨.plain, hc, fun _ => plain_fresh s, by simp, rfl⟩)
    · obtain ⟨m', hm', hc', -⟩ := addEffectAt_change (change_staffed hc hs).length hj t
      refine Or.inr (Or.inr ⟨m, t, hc, ?_, hfresh, rfl⟩)
      rw [hm']
      exact hc'
  | clearEffects =>
    refine Or.inr (Or.inl ⟨.plain, ?_, fun _ => plain_fresh s, by simp, rfl⟩)
    obtain ⟨h, uq, pq, r, ths, ts⟩ := s
    have hcl := call_clearEffects h uq pq r ths ts
    simpa [step, Op.code, Op.unattended, hcl] using Change.clear h uq pq r ths ts
  | start =>
    refine Or.inr (Or.inl ⟨.plain, ?_, fun _ => plain_fresh s, by simp, rfl⟩)
    obtain ⟨h, p⟩ := s
    simpa [step, Op.code, Op.unattended, call_start] using Change.start h p
  | stop =>
    refine Or.inr (Or.inl ⟨.halts, ?_, fun _ => by simp [Fresh], fun _ => rfl, rfl⟩)
    obtain ⟨h, p⟩ := s
    simpa [step, Op.code, Op.unattended, call_stop] using Change.stop h p

/-- What every change keeps, every operation keeps. -/
theorem step_preserves {P : State → Prop}
    (hP : ∀ s l kind s', Staffed s → Change s l kind s' → P s → P s') {s : State}
    (hs : Staffed s) (h : P s) (op : Op) : P (step s op) := by
  rcases step_changes hs op with ⟨he, -⟩ | ⟨kind, hc, -⟩ | ⟨m, t, hc, hc', -⟩
  · rwa [he]
  · exact hP _ _ _ _ hs hc h
  · exact hP _ _ _ _ (change_staffed hc hs) hc' (hP _ _ _ _ hs hc h)

/-- The same for valid operations, which add fresh tasks only. -/
theorem valid_step_preserves {P : State → Prop}
    (hP : ∀ s l kind s', Shape s → Fresh s kind → Change s l kind s' → P s → P s')
    {s : State} {op : Op} (hs : Shape s) (hv : op.Valid s) (h : P s) : P (step s op) := by
  rcases step_changes hs.toStaffed op with ⟨he, -⟩ | ⟨kind, hc, hf, -⟩ | ⟨m, t, hc, hc', hf, -⟩
  · rwa [he]
  · exact hP _ _ _ _ hs (hf hv) hc h
  · exact hP _ _ _ _ (change_shape hc (plain_fresh s) hs) (hf hs) hc'
      (hP _ _ _ _ hs (plain_fresh s) hc h)

theorem step_staffed {s : State} (hs : Staffed s) (op : Op) : Staffed (step s op) :=
  step_preserves (fun _ _ _ _ _ hc h => change_staffed hc h) hs hs op

theorem step_shape {s : State} {op : Op} (hs : Shape s) (hv : op.Valid s) : Shape (step s op) :=
  valid_step_preserves (fun _ _ _ _ _ hf hc h => change_shape hc hf h) hs hv hs

theorem after_staffed {s : State} (hs : Staffed s) (ops : List Op) : Staffed (after s ops) := by
  induction ops generalizing s with
  | nil => exact hs
  | cons op ops ih => exact ih (step_staffed hs op)

theorem spawn_fields (h : Heap) (ts : List ℕ) :
    (spawn h ts).task = h.task ∧ (spawn h ts).nextTask = h.nextTask ∧
      (spawn h ts).nextQueue = h.nextQueue ∧
      (spawn h ts).nextThread = h.nextThread + ts.length := by
  induction ts generalizing h with
  | nil => simp [spawn]
  | cons t ts ih =>
    obtain ⟨h1, h2, h3, h4⟩ := ih (h.newThread t)
    refine ⟨h1, h2, h3, ?_⟩
    simp only [spawn, List.foldl_cons, List.length_cons, Heap.newThread_nextThread] at h4 ⊢
    omega

theorem spawn_old (h : Heap) (ts : List ℕ) {th : ℕ} (hth : th < h.nextThread) :
    (spawn h ts).thread th = h.thread th := by
  induction ts generalizing h with
  | nil => rfl
  | cons t ts ih =>
    have hi := ih (h.newThread t) (by rw [Heap.newThread_nextThread]; omega)
    simpa [spawn, hth.ne] using hi

theorem spawn_new (h : Heap) (ts : List ℕ) {th : ℕ}
    (hth : (h.thread th).state = .new) : ((spawn h ts).thread th).state = .new := by
  induction ts generalizing h with
  | nil => exact hth
  | cons t ts ih =>
    refine ih (h.newThread t) ?_
    by_cases he : th = h.nextThread
    · subst th
      simp
    · simpa [he] using hth

theorem spawn_aligned (h : Heap) (ts : List ℕ) :
    (List.range' h.nextThread ts.length).map (taskOf (spawn h ts)) = ts := by
  induction ts generalizing h with
  | nil => rfl
  | cons t ts ih =>
    have hfirst : taskOf (spawn h (t :: ts)) h.nextThread = t := by
      have hlt : h.nextThread < (h.newThread t).nextThread := by simp
      rw [spawn, List.foldl_cons, ← spawn, taskOf, spawn_old (h.newThread t) ts hlt]
      simp
    rw [List.length_cons, List.range'_succ, List.map_cons, hfirst]
    exact congrArg (t :: ·) (ih (h.newThread t))

theorem built_staffed (h : Heap) (uq pq : ℕ) (effects : List ℕ) :
    Staffed (built h uq pq effects) := by
  rcases eq_or_ne effects [] with rfl | hne
  · rw [built_nil]
    exact ⟨rfl, List.nodup_nil, by simp [blank]⟩
  · obtain ⟨-, hthread, -⟩ := wire_frame pq uq effects h
    have h1 := spawn_aligned (wire pq uq effects h) effects
    obtain ⟨-, -, -, h6⟩ := spawn_fields (wire pq uq effects h) effects
    rw [built_cons h uq pq hne]
    rw [hthread] at h1 h6
    refine ⟨h1, List.nodup_range', fun th hth => ?_⟩
    rw [h6]
    simp only [List.mem_range'_1] at hth
    exact hth.2

theorem built_shape {h : Heap} {uq pq : ℕ} {effects : List ℕ}
    (ha : Arguments h uq pq effects) : Shape (built h uq pq effects) := by
  have htasks : (built h uq pq effects).pipe.effectTasks = effects ∧
      (built h uq pq effects).heap.nextTask = h.nextTask := by
    rcases eq_or_ne effects [] with rfl | hne
    · rw [built_nil]
      exact ⟨rfl, rfl⟩
    · obtain ⟨-, -, htask⟩ := wire_frame pq uq effects h
      obtain ⟨-, h4, -, -⟩ := spawn_fields (wire pq uq effects h) effects
      rw [built_cons h uq pq hne]
      exact ⟨rfl, h4.trans htask⟩
  refine ⟨built_staffed h uq pq effects, ?_, ?_⟩ <;> rw [htasks.1]
  · exact ha.distinct
  · rw [htasks.2]
    exact ha.allocated

structure Reachable (h : Heap) (uq pq : ℕ) (effects : List ℕ) (ops : List Op)
    (s : State) : Prop where
  arguments : Arguments h uq pq effects
  run : Run (built h uq pq effects) ops s

theorem Run.shape {s₀ s : State} {ops : List Op} (hr : Run s₀ ops s) (h : Shape s₀) : Shape s := by
  induction hr with
  | nil => exact h
  | snoc _ hv ih => exact step_shape ih hv

theorem Reachable.shape {h : Heap} {uq pq : ℕ} {effects : List ℕ} {ops : List Op}
    {s : State} (hr : Reachable h uq pq effects ops s) : Shape s :=
  hr.run.shape (built_shape hr.arguments)

/-- An invariant of the built pipeline that every change keeps holds in every reachable state. -/
theorem Reachable.invariant {P : State → Prop} {h : Heap} {uq pq : ℕ}
    {effects : List ℕ} {ops : List Op} {s : State}
    (hr : Reachable h uq pq effects ops s) (h₀ : P (built h uq pq effects))
    (hP : ∀ s l kind s', Shape s → Fresh s kind → Change s l kind s' → P s → P s') :
    P s := by
  obtain ⟨ha, hrun⟩ := hr
  induction hrun with
  | nil => exact h₀
  | snoc hprev hv ih => exact valid_step_preserves hP (hprev.shape (built_shape ha)) hv ih

def sampleHeap : Heap where
  task t := ⟨⟨t, .blur⟩, none, none⟩
  thread _ := ⟨0, .new⟩
  nextEffect := 2
  nextTask := 2
  nextThread := 0
  nextQueue := 2

theorem sample_arguments : Arguments sampleHeap 0 1 [0] := by
  constructor <;> simp [sampleHeap]

theorem sample_two_arguments : Arguments sampleHeap 0 1 [0, 1] := by
  constructor <;> simp [sampleHeap]

end PipelineRuns
