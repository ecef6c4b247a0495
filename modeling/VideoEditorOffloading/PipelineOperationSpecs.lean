import VideoEditorOffloading.ListPositions
import VideoEditorOffloading.PipelineOperations

/-! # What each method of Pipeline does, in closed form

One equation for each branch of each method: the state in which the undisturbed call ends.
The lists are cut where the method touches them. -/
namespace PipelineOperationSpecs

open SharedStatePrograms PipelineObjects PipelineOperations ListPositions

attribute [local simp] exec

section Lists

theorem get_append (xs : List ℕ) (x : ℕ) (ys : List ℕ) :
    ArrayList.get (xs ++ x :: ys) xs.length = some x := by
  simp [ArrayList.get]

theorem remove_append (xs : List ℕ) (x : ℕ) (ys : List ℕ) :
    ArrayList.remove (xs ++ x :: ys) xs.length = some (x, xs ++ ys) := by
  simp [ArrayList.remove, ArrayList.get, List.eraseIdx_append_of_length_le]

theorem add_append (xs : List ℕ) (x : ℕ) (ys : List ℕ) :
    ArrayList.add (xs ++ ys) xs.length x = some (xs ++ x :: ys) := by
  have h : ¬ ((xs.length : ℤ) + ys.length < xs.length) := by omega
  simp [ArrayList.add, h, insertIdx_append]

end Lists

/-- Every thread of the list that was new has been started. -/
@[simps -fullyApplied]
def startAll (h : Heap) (l : List ℕ) : Heap :=
  { h with thread := fun th => if th ∈ l then (h.thread th).start else h.thread th }

@[simps -fullyApplied]
def interruptAll (h : Heap) (l : List ℕ) : Heap :=
  { h with thread := fun th => if th ∈ l then (h.thread th).interrupt else h.thread th }

/-- One new thread for each task of the list. -/
def spawn (h : Heap) (l : List ℕ) : Heap := l.foldl Heap.newThread h

/-- The state after `if (running) start();`. -/
def restarted (s : State) : State :=
  if s.pipe.running then { s with heap := startAll s.heap s.pipe.effectThreads } else s

@[simp] theorem JavaThread.start_start (thread : JavaThread) : thread.start.start = thread.start := by
  unfold JavaThread.start
  split <;> simp_all

@[simp] theorem JavaThread.interrupt_interrupt (thread : JavaThread) :
    thread.interrupt.interrupt = thread.interrupt := by
  unfold JavaThread.interrupt
  split <;> simp_all

theorem startAll_cons (h : Heap) (th : ℕ) (l : List ℕ) :
    startAll h (th :: l) = startAll (h.start th) l := by
  have hth : (startAll h (th :: l)).thread = (startAll (h.start th) l).thread := by
    funext x
    by_cases hx : x = th
    · subst x
      simp
    · simp [hx]
  simpa [startAll] using hth

theorem interruptAll_cons (h : Heap) (th : ℕ) (l : List ℕ) :
    interruptAll h (th :: l) = interruptAll (h.interrupt th) l := by
  have hth : (interruptAll h (th :: l)).thread = (interruptAll (h.interrupt th) l).thread := by
    funext x
    by_cases hx : x = th
    · subst x
      simp
    · simp [hx]
  simpa [interruptAll] using hth

theorem call_start_loop (l : List ℕ) (h : Heap) (p : Pipeline) :
    call (l.forM startIfNew) ⟨h, p⟩ = (.ok PUnit.unit, ⟨startAll h l, p⟩) := by
  induction l generalizing h with
  | nil => simp [startAll]
  | cons th l ih =>
    have step : call (startIfNew th) ⟨h, p⟩ = (.ok (), ⟨h.start th, p⟩) := by
      by_cases hn : (h.thread th).state = .new
      · simp [startIfNew, field, void, hn]
      · have same : h.start th = h := by simp [Heap.start, JavaThread.start, hn]
        simp [startIfNew, field, hn, same]
    rw [List.forM_eq_forM, List.forM_cons, Program.bind_eq, startAll_cons]
    exact (Program.run_bind_of_ok step).trans (ih _)

theorem call_stop_loop (l : List ℕ) (h : Heap) (p : Pipeline) :
    call (l.forM fun thread => void (.interruptThread thread)) ⟨h, p⟩ =
      (.ok PUnit.unit, ⟨interruptAll h l, p⟩) := by
  induction l generalizing h with
  | nil => simp [interruptAll]
  | cons th l ih =>
    have step : call (void (.interruptThread th)) ⟨h, p⟩ = (.ok (), ⟨h.interrupt th, p⟩) := by
      simp [void]
    rw [List.forM_eq_forM, List.forM_cons, Program.bind_eq, interruptAll_cons]
    exact (Program.run_bind_of_ok step).trans (ih _)

theorem call_start (h : Heap) (p : Pipeline) :
    call start ⟨h, p⟩ = (.ok (), ⟨startAll h p.effectThreads, { p with running := true }⟩) := by
  have hl := call_start_loop p.effectThreads h p
  simp only [call, start, field, Program.bind_eq, Program.read_bind, Program.done_bind,
    Program.run_read, id]
  rw [Program.run_bind_of_ok hl]
  simp [void]

theorem call_stop (h : Heap) (p : Pipeline) :
    call stop ⟨h, p⟩ = (.ok (), ⟨interruptAll h p.effectThreads, { p with running := false }⟩) := by
  have hl := call_stop_loop p.effectThreads h p
  simp only [call, stop, field, Program.bind_eq, Program.read_bind, Program.done_bind,
    Program.run_read, id]
  rw [Program.run_bind_of_ok hl]
  simp [void]

theorem call_startIfRunning (s : State) :
    call startIfRunning s = (.ok (), restarted s) := by
  obtain ⟨h, p⟩ := s
  by_cases hr : p.running
  · have hs := call_start h p
    have hp : ({ p with running := true } : Pipeline) = p := by rw [← hr]
    rw [hp] at hs
    simpa [startIfRunning, field, restarted, hr] using hs
  · simp [startIfRunning, field, restarted, hr]

theorem call_create_loop (l : List ℕ) (h : Heap) (p : Pipeline) :
    call (l.forM createThread) ⟨h, p⟩ =
      (.ok PUnit.unit, ⟨spawn h l,
        { p with effectThreads := p.effectThreads ++ List.range' h.nextThread l.length }⟩) := by
  induction l generalizing h p with
  | nil => simp [spawn]
  | cons t l ih =>
    have step : call (createThread t) ⟨h, p⟩ = (.ok (), ⟨h.newThread t,
        { p with effectThreads := p.effectThreads ++ [h.nextThread] }⟩) := by
      simp [createThread, ref, void, State.setThreads]
    rw [List.forM_eq_forM, List.forM_cons, Program.bind_eq]
    refine (Program.run_bind_of_ok step).trans ((ih _ _).trans ?_)
    simp [spawn, Heap.newThread, List.range'_succ]

/-- `createThreads` interrupts the threads it drops, also when the pipeline is not running. -/
theorem call_createThreads (h : Heap) (uq pq : ℕ) (running : Bool) (ths ts : List ℕ) :
    call createThreads ⟨h, ⟨uq, pq, running, ths, ts⟩⟩ =
      (.ok (), restarted ⟨spawn (interruptAll h ths) ts,
        ⟨uq, pq, running, List.range' h.nextThread ts.length, ts⟩⟩) := by
  have h1 := call_stop h ⟨uq, pq, running, ths, ts⟩
  have h2 := call_create_loop ts (interruptAll h ths) ⟨uq, pq, false, [], ts⟩
  simp only [call, createThreads, field, Program.bind_eq, Program.read_bind, Program.done_bind,
    Program.run_read, id]
  rw [Program.run_bind_of_ok h1]
  simp only [void, Program.act_bind, Program.run_act, exec, State.setThreads, Program.done_bind,
    Program.run_read, id]
  rw [Program.run_bind_of_ok h2]
  cases running with
  | false => simp [restarted, interruptAll]
  | true =>
    have h3 := call_start (spawn (interruptAll h ths) ts)
      ⟨uq, pq, false, List.range' h.nextThread ts.length, ts⟩
    simpa [restarted, interruptAll] using h3

variable (h : Heap) (uq pq : ℕ) (running : Bool)

theorem call_clearEffects (ths ts : List ℕ) :
    call clearEffects ⟨h, ⟨uq, pq, running, ths, ts⟩⟩ =
      (.ok (), restarted ⟨(interruptAll
          (((h.newEffect.newTask ⟨h.nextEffect, .identity⟩).setInput h.nextTask (some uq)).setOutput
            h.nextTask (some pq)) ths).newThread h.nextTask,
        ⟨uq, pq, running, [h.nextThread], [h.nextTask]⟩⟩) := by
  have hc := call_createThreads
    (((h.newEffect.newTask ⟨h.nextEffect, .identity⟩).setInput h.nextTask (some uq)).setOutput
      h.nextTask (some pq)) uq pq running ths [h.nextTask]
  simpa [clearEffects, void, ref, field, State.setTasks, spawn] using hc

theorem call_addEffect_empty (t : ℕ) :
    call (addEffect t) ⟨h, ⟨uq, pq, running, [], []⟩⟩ =
      (.ok (), restarted ⟨((h.setOutput t (some pq)).setInput t (some uq)).newThread t,
        ⟨uq, pq, running, [h.nextThread], [t]⟩⟩) := by
  have hr := call_startIfRunning ⟨((h.setOutput t (some pq)).setInput t (some uq)).newThread t,
    ⟨uq, pq, running, [h.nextThread], [t]⟩⟩
  simpa [addEffect, void, ref, field, State.setTasks, State.setThreads] using hr

theorem call_addEffect_last (xs us : List ℕ) (a : ℕ) (u : ℕ) (t : ℕ) :
    call (addEffect t) ⟨h, ⟨uq, pq, running, us ++ [u], xs ++ [a]⟩⟩ =
      (.ok (), restarted ⟨(((((((h.setOutput t (some pq)).interrupt u).newQueue).setOutput a
          (some h.nextQueue)).newThread a).setInput t (some h.nextQueue)).newThread t),
        ⟨uq, pq, running, us ++ [h.nextThread, h.nextThread + 1], xs ++ [a, t]⟩⟩) := by
  have hr := call_startIfRunning ⟨(((((((h.setOutput t (some pq)).interrupt u).newQueue).setOutput a
          (some h.nextQueue)).newThread a).setInput t (some h.nextQueue)).newThread t),
        ⟨uq, pq, running, us ++ [h.nextThread, h.nextThread + 1], xs ++ [a, t]⟩⟩
  simpa [addEffect, void, ref, field, remove_append, effectTasksGet, get_append,
    State.setTasks, State.setThreads] using hr

theorem restarted_restarted (s : State) : restarted (restarted s) = restarted s := by
  by_cases hr : s.pipe.running
  · have hth : (startAll (startAll s.heap s.pipe.effectThreads) s.pipe.effectThreads).thread =
        (startAll s.heap s.pipe.effectThreads).thread := by
      funext th
      by_cases hm : th ∈ s.pipe.effectThreads <;> simp [hm]
    simpa [restarted, hr, startAll] using hth
  · simp [restarted, hr]

/-- Inserting at or behind the end is the other overload, with a second `if (running) start();`
that finds nothing to start. -/
theorem call_addEffectAt_end (ths ts : List ℕ) (t : ℕ) (index : ℤ)
    (hi : (ts.length : ℤ) ≤ index) {s : State}
    (ha : call (addEffect t) ⟨h, ⟨uq, pq, running, ths, ts⟩⟩ = (.ok (), restarted s)) :
    call (addEffectAt index t) ⟨h, ⟨uq, pq, running, ths, ts⟩⟩ = (.ok (), restarted s) := by
  have hr := call_startIfRunning (restarted s)
  rw [restarted_restarted] at hr
  simp only [call, addEffectAt, field, Program.bind_eq, Program.read_bind, Program.done_bind,
    Program.run_read, id, ge_iff_le, hi, if_true]
  rw [Program.run_bind_of_ok ha]
  exact hr

theorem call_addEffectAt_head (us xs : List ℕ) (a : ℕ) (u : ℕ) (t : ℕ) :
    call (addEffectAt 0 t) ⟨h, ⟨uq, pq, running, u :: us, a :: xs⟩⟩ =
      (.ok (), restarted ⟨(((((((h.setInput t (h.task a).inputQueue).newQueue).setOutput t
          (some h.nextQueue)).setInput a (some h.nextQueue)).newThread t).interrupt u).newThread a),
        ⟨uq, pq, running, h.nextThread :: (h.nextThread + 1) :: us, t :: a :: xs⟩⟩) := by
  have hr := call_startIfRunning
    ⟨(((((((h.setInput t (h.task a).inputQueue).newQueue).setOutput t
          (some h.nextQueue)).setInput a (some h.nextQueue)).newThread t).interrupt u).newThread a),
        ⟨uq, pq, running, h.nextThread :: (h.nextThread + 1) :: us, t :: a :: xs⟩⟩
  have hg := get_append [] a xs
  have h0 := add_append [] t (a :: xs)
  have h1 := add_append [] h.nextThread (u :: us)
  have h2 := remove_append [h.nextThread] u us
  have h3 := add_append [h.nextThread] (h.nextThread + 1) us
  have hn : ¬ ((xs.length : ℤ) + 1 ≤ 0) := by omega
  simp only [List.nil_append, List.length_nil, List.length_singleton, List.cons_append,
    Nat.cast_zero, Nat.cast_one] at hg h0 h1 h2 h3
  simpa [addEffectAt, void, ref, field, effectTasksGet, State.setTasks, State.setThreads,
    hg, h0, h1, h2, h3, hn] using hr

/-- The threads `u` and `v` leave the list without an interrupt. -/
theorem call_addEffectAt_middle (us vs xs ys : List ℕ) (hl : us.length = xs.length)
    (a b : ℕ) (u v : ℕ) (t : ℕ) :
    call (addEffectAt (xs.length + 1) t)
        ⟨h, ⟨uq, pq, running, us ++ u :: v :: vs, xs ++ a :: b :: ys⟩⟩ =
      (.ok (), restarted ⟨(((((((h.setInput t (h.task a).outputQueue).newQueue).setOutput t
          (some h.nextQueue)).setInput b (some h.nextQueue)).newThread t).newThread a).newThread b),
        ⟨uq, pq, running,
          us ++ (h.nextThread + 1) :: h.nextThread :: (h.nextThread + 2) :: vs,
          xs ++ a :: t :: b :: ys⟩⟩) := by
  have hr := call_startIfRunning
    ⟨(((((((h.setInput t (h.task a).outputQueue).newQueue).setOutput t
          (some h.nextQueue)).setInput b (some h.nextQueue)).newThread t).newThread a).newThread b),
        ⟨uq, pq, running,
          us ++ (h.nextThread + 1) :: h.nextThread :: (h.nextThread + 2) :: vs,
          xs ++ a :: t :: b :: ys⟩⟩
  have hb := get_append (xs ++ [a]) b ys
  have ha := get_append xs a (b :: ys)
  have h0 := add_append (xs ++ [a]) t (b :: ys)
  have h1 := remove_append us u (v :: vs)
  have h2 := remove_append us v vs
  have h3 := add_append us (h.nextThread + 1) vs
  have h4 := add_append (us ++ [h.nextThread + 1]) h.nextThread vs
  have h5 := add_append (us ++ [h.nextThread + 1, h.nextThread]) (h.nextThread + 2) vs
  simp only [List.append_assoc, List.cons_append, List.nil_append, List.length_append,
    List.length_cons, List.length_nil, hl, Nat.cast_add, Nat.cast_one, zero_add] at hb ha h0 h1 h2 h3 h4 h5
  have hn : ¬ ((xs.length : ℤ) + (ys.length + 1 + 1) ≤ xs.length + 1) := by omega
  have hz : ¬ ((xs.length : ℤ) + 1 = 0) := by omega
  rw [← add_assoc] at h5
  simpa [addEffectAt, void, ref, field, effectTasksGet, State.setTasks, State.setThreads,
    ha, hb, h0, h1, h2, h3, h4, h5, hn, hz] using hr

theorem call_removeEffect_outside (ths ts : List ℕ) (index : ℤ)
    (hi : index < 0 ∨ (ts.length : ℤ) ≤ index) :
    call (removeEffect index) ⟨h, ⟨uq, pq, running, ths, ts⟩⟩ =
      (.ok (), ⟨h, ⟨uq, pq, running, ths, ts⟩⟩) := by
  have hn : ¬ (index < ts.length ∧ index ≥ 0) := by omega
  simp [removeEffect, field, hn]

theorem call_removeEffect_inner (us vs xs ys : List ℕ) (hl : us.length = xs.length)
    (a b : ℕ) (u v : ℕ) :
    call (removeEffect xs.length)
        ⟨h, ⟨uq, pq, running, us ++ u :: v :: vs, xs ++ a :: b :: ys⟩⟩ =
      (.ok (), restarted ⟨((((h.interrupt u).setInput b (h.task a).inputQueue).interrupt v).newThread b),
        ⟨uq, pq, running, us ++ h.nextThread :: vs, xs ++ b :: ys⟩⟩) := by
  have hr := call_startIfRunning
    ⟨((((h.interrupt u).setInput b (h.task a).inputQueue).interrupt v).newThread b),
        ⟨uq, pq, running, us ++ h.nextThread :: vs, xs ++ b :: ys⟩⟩
  have h0 := remove_append us u (v :: vs)
  have h1 := remove_append xs a (b :: ys)
  have h2 := remove_append us v vs
  have h3 := get_append xs b ys
  have h4 := add_append us h.nextThread vs
  rw [hl] at h0 h2 h4
  have hn : (xs.length : ℤ) < xs.length + (ys.length + 1 + 1) := by omega
  have hm : (xs.length : ℤ) < xs.length + (ys.length + 1) := by omega
  simpa [removeEffect, void, ref, field, effectTasksGet, State.setTasks, State.setThreads,
    h0, h1, h2, h3, h4, hn, hm] using hr

theorem call_removeEffect_last (us xs : List ℕ) (hl : us.length = xs.length)
    (a b : ℕ) (u v : ℕ) :
    call (removeEffect (xs.length + 1))
        ⟨h, ⟨uq, pq, running, us ++ [u, v], xs ++ [a, b]⟩⟩ =
      (.ok (), restarted ⟨((((h.interrupt v).setOutput a (h.task b).outputQueue).interrupt u).newThread a),
        ⟨uq, pq, running, us ++ [h.nextThread], xs ++ [a]⟩⟩) := by
  have hr := call_startIfRunning
    ⟨((((h.interrupt v).setOutput a (h.task b).outputQueue).interrupt u).newThread a),
        ⟨uq, pq, running, us ++ [h.nextThread], xs ++ [a]⟩⟩
  have h0 := remove_append (us ++ [u]) v []
  have h1 := remove_append (xs ++ [a]) b []
  have h2 := remove_append us u []
  have h3 := get_append xs a []
  have h4 := add_append us h.nextThread []
  simp only [List.append_assoc, List.cons_append, List.nil_append, List.length_append,
    List.length_cons, List.length_nil, hl, Nat.cast_add, Nat.cast_one, zero_add,
    List.append_nil] at h0 h1 h2 h3 h4
  have hn : (0 : ℤ) ≤ xs.length + 1 := by omega
  simpa [removeEffect, void, ref, field, effectTasksGet, State.setTasks, State.setThreads,
    h0, h1, h2, h3, h4, hn] using hr

/-- Removing the only task goes through `clearEffects`, whose `createThreads` finds the list of
threads already empty. -/
theorem call_removeEffect_only (a : ℕ) (u : ℕ) :
    call (removeEffect 0) ⟨h, ⟨uq, pq, running, [u], [a]⟩⟩ =
      call clearEffects ⟨h.interrupt u, ⟨uq, pq, running, [], []⟩⟩ := by
  have h0 := remove_append [] u []
  have h1 := remove_append [] a []
  simp only [List.nil_append, List.length_nil, Nat.cast_zero] at h0 h1
  have prefix_run : call (removeEffect 0) ⟨h, ⟨uq, pq, running, [u], [a]⟩⟩ =
      call (do clearEffects; startIfRunning) ⟨h.interrupt u, ⟨uq, pq, running, [], []⟩⟩ := by
    simp [removeEffect, void, ref, field, State.setTasks, State.setThreads, h0, h1]
  have hc := call_clearEffects (h.interrupt u) uq pq running [] []
  rw [prefix_run, Program.bind_eq, hc, call, Program.run_bind_of_ok hc]
  exact (call_startIfRunning _).trans (by rw [restarted_restarted])

end PipelineOperationSpecs
