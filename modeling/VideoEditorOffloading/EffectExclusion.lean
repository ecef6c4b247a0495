import VideoEditorOffloading.EffectThreadLine

/-! # Who applies an effect

A caller executes pipeline operations statement by statement while the effect threads run. An
edit starts a replacement for a thread that it has only interrupted, so the old thread may still
be inside `applyTo`. -/
namespace EffectExclusion

open SharedStatePrograms PipelineObjects PipelineOperations PipelineRuns EffectThreads

variable {M : Type}

/-- The thread may be in `applyTo` or get there: it has a frame to apply, or may take one. -/
def Active (w : World M) (th : ℕ) : Prop :=
  w.pc th ≠ .unstarted ∧ w.pc th ≠ .exited ∧
    (w.flag th = false ∨ ∃ f, w.pc th = .taken f ∨ w.pc th = .applying f)

def effectRef (w : World M) (th : ℕ) : ℕ := (w.taskOf th).effect.ref

def Applying (w : World M) (th : ℕ) : Prop := ∃ f, w.pc th = .applying f

/-- The statement does not start a thread while another one may still apply the same effect. -/
def StartsAlone (w : World M) : Instr → Prop
  | .startThread th => (w.state.heap.thread th).state = .new →
    ∀ th', th' ≠ th → Active w th' → effectRef w th' ≠ effectRef w th
  | _ => True

structure Exclusive (w : World M) : Prop where
  allocated : ∀ th, Active w th → PipelineRuns.taskOf w.state.heap th < w.state.heap.nextTask
  single : ∀ th th', Active w th → Active w th' → effectRef w th = effectRef w th' → th = th'

section Steps

variable {applyTo : Effect → M → M} {w w' : World M}

theorem applying_active {th : ℕ} (h : Applying w th) : Active w th := by
  obtain ⟨f, hf⟩ := h
  exact ⟨by simp [hf], by simp [hf], Or.inr ⟨f, Or.inr hf⟩⟩

theorem active_turn {th : ℕ} (h : Turn applyTo w th w') {x : ℕ} (hx : Active w' x) :
    Active w x := by
  rcases eq_or_ne x th with rfl | hne
  · cases h <;> simp_all [Active]
  · obtain ⟨hpc, hflag⟩ := (turn_frame h).2.2 x hne
    rw [Active, hpc, hflag] at hx
    exact hx

theorem exclusive_shrink (hex : Exclusive w) (hact : ∀ x, Active w' x → Active w x)
    (htask : ∀ x, Active w' x →
      PipelineRuns.taskOf w'.state.heap x = PipelineRuns.taskOf w.state.heap x)
    (hnext : w.state.heap.nextTask ≤ w'.state.heap.nextTask)
    (href : ∀ x, Active w' x → effectRef w' x = effectRef w x) : Exclusive w' := by
  refine ⟨fun x hx => ?_, fun x y hx hy he => ?_⟩
  · rw [htask x hx]
    exact (hex.allocated x (hact x hx)).trans_le hnext
  · rw [href x hx, href y hy] at he
    exact hex.single x y (hact x hx) (hact y hy) he

theorem exclusive_turn {th : ℕ} (hex : Exclusive w) (h : Turn applyTo w th w') :
    Exclusive w' := by
  have hst := (turn_frame h).1
  refine exclusive_shrink hex (fun x => active_turn h) (fun x _ => by rw [hst]) (by rw [hst])
    fun x _ => ?_
  rw [effectRef, effectRef, turn_taskOf h]

theorem exclusive_same (hex : Exclusive w) (hpc : w'.pc = w.pc) (hflag : w'.flag = w.flag)
    (htask : PipelineRuns.taskOf w'.state.heap = PipelineRuns.taskOf w.state.heap)
    (hnext : w'.state.heap.nextTask = w.state.heap.nextTask)
    (href : ∀ t, (w'.state.heap.task t).effect = (w.state.heap.task t).effect) :
    Exclusive w' := by
  refine exclusive_shrink hex (fun x hx => ?_) (fun x _ => by rw [htask]) hnext.ge fun x _ => ?_
  · rw [Active, hpc, hflag] at hx
    exact hx
  · rw [effectRef, effectRef, World.taskOf, World.taskOf, htask, href]

theorem exclusive_start {th : ℕ} (hex : Exclusive w) (hi : StartsAlone w (.startThread th)) :
    Exclusive (World.exec (.startThread th) w).2 := by
  by_cases hnew : (w.state.heap.thread th).state = .new
  swap
  · refine exclusive_same hex ?_ rfl ?_ ?_ ?_ <;> simp [World.exec, PipelineObjects.exec, hnew]
  have htask : PipelineRuns.taskOf (World.exec (.startThread th) w).2.state.heap =
      PipelineRuns.taskOf w.state.heap := by
    funext x
    by_cases hx : x = th <;>
      simp [World.exec, PipelineObjects.exec, hnew, PipelineRuns.taskOf, hx]
  have hnext : (World.exec (.startThread th) w).2.state.heap.nextTask =
      w.state.heap.nextTask := by
    simp [World.exec, PipelineObjects.exec, hnew]
  have href : effectRef (World.exec (.startThread th) w).2 = effectRef w := by
    funext x
    rw [effectRef, effectRef, World.taskOf, World.taskOf, htask]
    simp [World.exec, PipelineObjects.exec, hnew]
  have hother : ∀ x, x ≠ th → Active (World.exec (.startThread th) w).2 x → Active w x := by
    intro x hx hact
    simpa [Active, World.exec, hnew, hx] using hact
  by_cases halloc : Allocated w.state.heap th
  · refine ⟨fun x hx => ?_, fun x y hx hy he => ?_⟩
    · rw [htask, hnext]
      rcases eq_or_ne x th with rfl | hne
      · exact halloc.2
      · exact hex.allocated x (hother x hne hx)
    · rw [href] at he
      rcases eq_or_ne x th with rfl | hxt <;> rcases eq_or_ne y x with rfl | hyx
      · rfl
      · exact absurd he.symm (hi hnew y hyx (hother y hyx hy))
      · rfl
      · rcases eq_or_ne y th with rfl | hyt
        · exact absurd he (hi hnew x hxt (hother x hxt hx))
        · exact hex.single x y (hother x hxt hx) (hother y hyt hy) he
  · refine exclusive_shrink hex (fun x hx => ?_) (fun x _ => by rw [htask]) hnext.ge
      fun x _ => by rw [href]
    refine hother x ?_ hx
    rintro rfl
    simp [Active, World.exec, hnew, halloc] at hx

theorem exclusive_exec {i : Instr} (hex : Exclusive w) (hi : StartsAlone w i) :
    Exclusive (World.exec i w).2 := by
  cases i with
  | startThread th => exact exclusive_start hex hi
  | newTask e =>
    refine exclusive_shrink hex (fun x hx => hx) (fun x _ => rfl) (Nat.le_succ _) fun x hx => ?_
    have hne := (hex.allocated x hx).ne
    simp only [PipelineRuns.taskOf] at hne
    simp [effectRef, World.taskOf, World.exec, PipelineObjects.exec, PipelineRuns.taskOf, hne]
  | newThread t =>
    have hne : ∀ x, Active (World.exec (.newThread t) w).2 x → x ≠ w.state.heap.nextThread := by
      rintro x hx rfl
      simp [Active, World.exec] at hx
    refine exclusive_shrink hex (fun x hx => ?_) (fun x hx => ?_) le_rfl fun x hx => ?_
    · simpa [Active, World.exec, hne x hx] using hx
    · simp [World.exec, PipelineObjects.exec, PipelineRuns.taskOf, hne x hx]
    · simp [effectRef, World.taskOf, World.exec, PipelineObjects.exec, PipelineRuns.taskOf,
        hne x hx]
  | interruptThread th =>
    refine exclusive_shrink hex (fun x hx => ?_) (fun x _ => ?_) le_rfl fun x _ => ?_
    · by_cases hnew : (w.state.heap.thread th).state = .new
      · simpa [Active, World.exec, hnew] using hx
      · by_cases hx' : x = th
        · subst x
          simp only [Active, World.exec, hnew, if_false, Function.update_self] at hx
          exact ⟨hx.1, hx.2.1, Or.inr (hx.2.2.resolve_left (by simp))⟩
        · simpa [Active, World.exec, hnew, hx'] using hx
    · simp [World.exec, PipelineObjects.exec]
    · simp [effectRef, World.taskOf, World.exec, PipelineObjects.exec]
  | setInputQueue t q =>
    refine exclusive_same hex rfl rfl rfl rfl fun x => ?_
    by_cases hx : x = t <;> simp [World.exec, PipelineObjects.exec, hx]
  | setOutputQueue t q =>
    refine exclusive_same hex rfl rfl rfl rfl fun x => ?_
    by_cases hx : x = t <;> simp [World.exec, PipelineObjects.exec, hx]
  | tasksAdd i t | tasksRemove i | threadsAdd i t | threadsRemove i =>
    refine exclusive_same hex rfl rfl ?_ ?_ fun x => ?_ <;>
      simp only [World.exec, PipelineObjects.exec] <;> split <;> rfl
  | _ => exact exclusive_same hex rfl rfl rfl rfl fun x => rfl

end Steps

structure Caller (M : Type) where
  world : World M
  code : Code Unit

inductive Event (M : Type) where
  | call (op : Op)
  | statement
  | thread (th : ℕ)
  | produce (frame : Frame M)
  | consume

def Finished : Code Unit → Bool
  | .done _ => true
  | .fail _ => true
  | _ => false

def next (applyTo : Effect → M → M) (x : Caller M) : Event M → Option (Caller M)
  | .call op => if Finished x.code then some { x with code := op.code } else none
  | .statement => (x.code.advance World.state World.exec x.world).map fun (p, w) => ⟨w, p⟩
  | .thread th => (threadStep applyTo x.world th).map fun w => { x with world := w }
  | .produce f =>
    some { x with world := x.world.offer x.world.state.pipe.unprocessedFrameQueue f }
  | .consume =>
    some { x with world := x.world.removeFirst x.world.state.pipe.processedFrameQueue }

/-- The condition on a step: if it executes a statement, this statement starts no thread beside
an active one. -/
def AloneStep (x : Caller M) : Event M → Prop
  | .statement =>
    match x.code with
    | .act i _ => StartsAlone x.world i
    | _ => True
  | _ => True

abbrev Execution (applyTo : Effect → M → M) (ok : Caller M → Event M → Prop)
    (x₀ x : Caller M) : Prop := TransitionSystems.Execution (next applyTo) ok x₀ x

section Executions

variable {applyTo : Effect → M → M} {x x' : Caller M}

theorem exclusive_congr {w w' : World M} (hex : Exclusive w) (hpc : w'.pc = w.pc)
    (hflag : w'.flag = w.flag) (hst : w'.state = w.state) : Exclusive w' :=
  exclusive_same hex hpc hflag (by rw [hst]) (by rw [hst]) fun t => by rw [hst]

theorem exclusive_next {e : Event M} (hex : Exclusive x.world) (ha : AloneStep x e)
    (h : next applyTo x e = some x') : Exclusive x'.world := by
  cases e with
  | call op =>
    simp only [next] at h
    split at h <;> cases h
    exact hex
  | statement =>
    obtain ⟨⟨p, w⟩, hstep, rfl⟩ := Option.map_eq_some_iff.mp h
    obtain ⟨world, code⟩ := x
    cases code with
    | done a => cases hstep
    | fail e => cases hstep
    | read k => cases hstep; exact hex
    | act i k => cases hstep; exact exclusive_exec hex ha
  | thread th =>
    obtain ⟨w, hw, rfl⟩ := Option.map_eq_some_iff.mp h
    exact exclusive_turn hex (threadStep_turn hw)
  | produce f => cases h; exact exclusive_congr hex (by simp) (by simp) (by simp)
  | consume => cases h; exact exclusive_congr hex rfl rfl rfl

theorem execution_exclusive {x₀ : Caller M} (h : Execution applyTo AloneStep x₀ x)
    (hex : Exclusive x₀.world) : Exclusive x.world :=
  h.invariant hex fun _ _ _ ha hnext hex => exclusive_next hex ha hnext

/-- Whatever the caller calls and however the steps interleave: as long as every thread is
started alone, no two threads are in `applyTo` of the same effect object. -/
theorem effect_used_by_one_thread {w : World M} (hnew : ∀ th, w.pc th = .unstarted)
    (h : Execution applyTo AloneStep ⟨w, .done ()⟩ x) :
    ¬ ∃ th th', th ≠ th' ∧ Applying x.world th ∧ Applying x.world th' ∧
      effectRef x.world th = effectRef x.world th' := by
  have hno : ∀ th, ¬ Active w th := fun th ha => ha.1 (hnew th)
  have hex : Exclusive x.world := execution_exclusive h
    ⟨fun th ha => absurd ha (hno th), fun th _ ha => absurd ha (hno th)⟩
  rintro ⟨th, th', hne, hth, hth', href⟩
  exact hne (hex.single th th' (applying_active hth) (applying_active hth') href)

end Executions

section Sample

def builtWorld : World ℕ where
  state := built sampleHeap 0 1 [0]
  items _ := []
  capacity _ := 2
  pc _ := .unstarted
  flag _ := false
  log := []

/-- The thread of the effect is in `applyTo` when a second effect is added; the thread that
replaces it takes the next frame. -/
def overlap : List (Event ℕ) :=
  Event.call .start :: List.replicate 4 Event.statement ++
    [Event.produce ⟨0, 5⟩, .produce ⟨1, 6⟩, .thread 0, .thread 0, .thread 0,
      .call (.addEffect 1)] ++
    List.replicate 23 Event.statement ++ [Event.thread 1, .thread 1, .thread 1]

/-- The two tasks have different effect objects, and both calls are valid. -/
theorem replacement_overlaps :
    (sampleHeap.task 0).effect.ref ≠ (sampleHeap.task 1).effect.ref ∧
    Op.Valid (step (built sampleHeap 0 1 [0]) .start) (.addEffect 1) ∧
    ∃ x, Execution (fun _ m => m) (fun _ _ => True) ⟨builtWorld, .done ()⟩ x ∧
      ∃ th th', th ≠ th' ∧ Applying x.world th ∧ Applying x.world th' ∧
        effectRef x.world th = effectRef x.world th' := by
  have hrun : (TransitionSystems.runEvents (next fun _ m => m) ⟨builtWorld, .done ()⟩
      overlap).any (fun x => x.world.pc 0 = .applying ⟨0, 5⟩ ∧ x.world.pc 1 = .applying ⟨1, 6⟩ ∧
      effectRef x.world 0 = effectRef x.world 1) = true := by decide
  obtain ⟨x, hx, hp⟩ := (Option.any_eq_true _ _).mp hrun
  obtain ⟨h0, h1, href⟩ := of_decide_eq_true hp
  exact ⟨by decide, by decide, x, .append .refl (fun _ _ _ => trivial) hx, 0, 1, by decide,
    ⟨_, h0⟩, ⟨_, h1⟩, href⟩

/-- The thread is waiting for a frame when the second effect is added; the thread that replaces it
takes the first frame. -/
def replaced : List (Event ℕ) :=
  Event.call .start :: List.replicate 4 Event.statement ++
    [Event.thread 0, .call (.addEffect 1)] ++ List.replicate 23 Event.statement ++
    [Event.produce ⟨0, 5⟩, .thread 1, .thread 1, .thread 1]

def active (w : World ℕ) (th : ℕ) : Bool :=
  match w.pc th with
  | .unstarted | .exited => false
  | .taken _ | .applying _ => true
  | _ => !w.flag th

def clearlyAlone (x : Caller ℕ) : Event ℕ → Bool
  | .statement =>
    match x.code with
    | .act (.startThread th) _ =>
      th < 3 && (List.range 3).all fun th' =>
        th' = th || !active x.world th' || effectRef x.world th' ≠ effectRef x.world th
    | _ => true
  | .thread th => th < 3
  | _ => true

theorem active_of {w : World ℕ} {th : ℕ} (h : Active w th) : active w th = true := by
  obtain ⟨hstarted, hrunning, hmay⟩ := h
  cases hpc : w.pc th with
  | unstarted => exact absurd hpc hstarted
  | exited => exact absurd hpc hrunning
  | _ => simp_all [active]

theorem alone_of_clearlyAlone {x x' : Caller ℕ} {e : Event ℕ}
    (hrest : ∀ th, 3 ≤ th → x.world.pc th = .unstarted)
    (hnext : next (fun _ m => m) x e = some x') (h : clearlyAlone x e = true) :
    AloneStep x e ∧ ∀ th, 3 ≤ th → x'.world.pc th = .unstarted := by
  cases e with
  | call op =>
    simp only [next] at hnext
    split at hnext <;> cases hnext
    exact ⟨trivial, hrest⟩
  | produce f =>
    cases hnext
    exact ⟨trivial, by simpa using hrest⟩
  | consume =>
    cases hnext
    exact ⟨trivial, hrest⟩
  | thread th =>
    obtain ⟨w, hw, rfl⟩ := Option.map_eq_some_iff.mp hnext
    refine ⟨trivial, ?_⟩
    intro th' hth'
    have hlt : th < 3 := of_decide_eq_true h
    rw [((turn_frame (threadStep_turn hw)).2.2 th' (by omega)).1]
    exact hrest th' hth'
  | statement =>
    obtain ⟨⟨p, w⟩, hstep, rfl⟩ := Option.map_eq_some_iff.mp hnext
    obtain ⟨world, code⟩ := x
    cases code with
    | done a => cases hstep
    | fail e => cases hstep
    | read k =>
      cases hstep
      exact ⟨trivial, hrest⟩
    | act i k =>
      cases hstep
      cases i with
      | startThread th =>
        obtain ⟨hlt, hothers⟩ := (Bool.and_eq_true _ _).mp h
        have hlt : th < 3 := of_decide_eq_true hlt
        constructor
        · intro _ th' hne hactive
          have hth' : th' < 3 := by
            by_contra hge
            exact hactive.1 (hrest th' (by omega))
          have hother := List.all_eq_true.mp hothers th' (List.mem_range.mpr hth')
          simpa [hne, active_of hactive] using hother
        · intro th' hth'
          have hne : th' ≠ th := by omega
          have hold := hrest th' hth'
          simp only [World.exec]
          split
          · rwa [Function.update_of_ne hne]
          · exact hold
      | newThread t =>
        refine ⟨trivial, ?_⟩
        intro th' hth'
        simp only [World.exec]
        rw [Function.update_apply]
        split
        · rfl
        · exact hrest th' hth'
      | _ => exact ⟨trivial, hrest⟩

theorem effect_used_by_replacement :
    ∃ x, Execution (fun _ m => m) AloneStep ⟨builtWorld, .done ()⟩ x ∧
      x.world.state.pipe.effectTasks = [0, 1] ∧ Applying x.world 1 ∧
      effectRef x.world 0 = effectRef x.world 1 ∧
      ¬ ∃ th th', th ≠ th' ∧ Applying x.world th ∧ Applying x.world th' ∧
        effectRef x.world th = effectRef x.world th' := by
  have hrun : (TransitionSystems.runEvents
      (fun y e => if clearlyAlone y e then next (fun _ m => m) y e else none)
      ⟨builtWorld, .done ()⟩ replaced).any (fun x =>
        x.world.state.pipe.effectTasks = [0, 1] ∧ x.world.pc 1 = .applying ⟨0, 5⟩ ∧
        effectRef x.world 0 = effectRef x.world 1) = true := by decide
  obtain ⟨x, hx, hp⟩ := (Option.any_eq_true _ _).mp hrun
  obtain ⟨htasks, happlying, href⟩ := of_decide_eq_true hp
  have hchecked : Execution (fun _ m => m) (fun y e => clearlyAlone y e = true)
      ⟨builtWorld, .done ()⟩ x :=
    TransitionSystems.Execution.checked (fun _ _ h => h) .refl hx
  have halone := (hchecked.weaken
    (I := fun y => ∀ th, 3 ≤ th → y.world.pc th = .unstarted) (fun _ _ => rfl)
    fun _ _ _ hrest hnext h => alone_of_clearlyAlone hrest hnext h).1
  exact ⟨x, halone, htasks, ⟨_, happlying⟩, href, effect_used_by_one_thread (fun _ => rfl) halone⟩

end Sample

end EffectExclusion
