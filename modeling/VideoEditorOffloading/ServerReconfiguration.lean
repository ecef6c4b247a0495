import VideoEditorOffloading.PipelineThreadLifecycle
import VideoEditorOffloading.ServerProtocol

/-! # Calls that change the pipeline of an idle server

While no frame is anywhere in the server, an edit and the effect threads do not get in each
other's way: running threads find the queues that they read unchanged, and interrupted threads
only have to notice it. -/
namespace ServerReconfiguration

open SharedStatePrograms PipelineObjects PipelineOperations PipelineOperationSpecs PipelineRuns
  PipelineWiring PipelineThreadLifecycle EffectThreads EffectThreadLine ServerProtocol

variable {M : Type}

/-- Where each thread stands agrees with what was done to it. -/
structure Coherent (w : World M) : Prop where
  new : ∀ th, stateOf w.state th = .new → w.pc th = .unstarted ∧ w.flag th = false
  working : ∀ th, stateOf w.state th = .started → Working w th
  retired : ∀ th, stateOf w.state th = .interrupted → Retired w th

/-- No frame in any queue or hand. -/
structure Quiet (w : World M) : Prop where
  items : ∀ q, w.items q = []
  hands : ∀ th, (w.pc th).inHand = []

section Turns

variable {applyTo : Effect → M → M} {w w' : World M} {th : ℕ}

theorem coherent_turn (hc : Coherent w) (h : Turn applyTo w th w') : Coherent w' := by
  obtain ⟨hst, -, hother⟩ := turn_frame h
  refine ⟨fun x hx => ?_, fun x hx => ?_, fun x hx => ?_⟩ <;> rw [hst] at hx
  · obtain ⟨hpc, hflag⟩ := hc.new x hx
    have hne : x ≠ th := by
      rintro rfl
      cases h <;> simp_all
    obtain ⟨hpc', hflag'⟩ := hother x hne
    exact ⟨hpc'.trans hpc, hflag'.trans hflag⟩
  · exact turn_working h (hc.working x hx)
  · exact turn_retired h (hc.retired x hx)

theorem quiet_turn (hq : Quiet w) (h : Turn applyTo w th w') : Quiet w' := by
  have hl := leaving_eq_nil applyTo (hq.hands th)
  cases turn_effects h with
  | quiet hc =>
    have hitems : w'.items = w.items := congrArg (·.items) hc
    have hleav : leaving applyTo w' = leaving applyTo w := congrArg (·.leaving) hc
    refine ⟨fun q => by rw [hitems, hq.items], fun x => ?_⟩
    have hn := leaving_number applyTo w' x
    rw [hleav, leaving_eq_nil applyTo (hq.hands x)] at hn
    exact List.map_eq_nil_iff.mp hn.symm
  | took q f fs _ _ hitems => simp [hq.items] at hitems
  | gave q g _ _ hh => simp [hl] at hh
  | refused q g _ _ hh => simp [hl] at hh
  | lost g _ hh => simp [hl] at hh

end Turns

/-- What a statement must find so that it disturbs no running thread of a quiet server. -/
def Harmless (i : Instr) (s : State) : Prop :=
  match i with
  | .startThread th => Allocated s.heap th ∧
    (s.heap.task (taskOf s.heap th)).inputQueue ≠ none ∧
    (s.heap.task (taskOf s.heap th)).outputQueue ≠ none
  | .setInputQueue t _ => ∀ th, stateOf s th = .started → taskOf s.heap th ≠ t
  | .setOutputQueue _ q => q ≠ none
  | .newTask _ => ∀ th, stateOf s th = .started → taskOf s.heap th ≠ s.heap.nextTask
  | _ => True

section Statements

variable {w : World M} {i : Instr}

theorem coherent_same {w' : World M} (hc : Coherent w) (hpc : w'.pc = w.pc)
    (hflag : w'.flag = w.flag) (hstate : stateOf w'.state = stateOf w.state)
    (htask : ∀ th, stateOf w.state th = .started → w'.taskOf th = w.taskOf th) :
    Coherent w' := by
  refine ⟨fun x hx => ?_, fun x hx => ?_, fun x hx => ?_⟩ <;> rw [hstate] at hx
  · rw [hpc, hflag]
    exact hc.new x hx
  · exact (hc.working x hx).congr (congrFun hflag x) (congrFun hpc x) (htask x hx)
  · exact (hc.retired x hx).congr (congrFun hflag x) (congrFun hpc x)

theorem working_idle {th : ℕ} (hw : Working w th) (hh : (w.pc th).inHand = []) :
    (w.pc th).Idle := by
  have h1 := hw.started
  have h2 := hw.alive
  cases hpc : w.pc th <;> simp_all [Pc.Idle, Pc.inHand]

theorem coherent_thread {w' : World M} (hc : Coherent w) (t : ℕ)
    (hpc : ∀ x, x ≠ t → w'.pc x = w.pc x) (hflag : ∀ x, x ≠ t → w'.flag x = w.flag x)
    (hstate : ∀ x, x ≠ t → stateOf w'.state x = stateOf w.state x)
    (htask : ∀ x, x ≠ t → w'.taskOf x = w.taskOf x)
    (hnew : stateOf w'.state t = .new → w'.pc t = .unstarted ∧ w'.flag t = false)
    (hworking : stateOf w'.state t = .started → Working w' t)
    (hretired : stateOf w'.state t = .interrupted → Retired w' t) : Coherent w' := by
  refine ⟨fun x hx => ?_, fun x hx => ?_, fun x hx => ?_⟩ <;> rcases eq_or_ne x t with rfl | hne
  · exact hnew hx
  · rw [hpc x hne, hflag x hne]
    exact hc.new x (hstate x hne ▸ hx)
  · exact hworking hx
  · exact (hc.working x (hstate x hne ▸ hx)).congr (hflag x hne) (hpc x hne) (htask x hne)
  · exact hretired hx
  · exact (hc.retired x (hstate x hne ▸ hx)).congr (hflag x hne) (hpc x hne)

theorem coherent_setOutput (hc : Coherent w) (hq : Quiet w) {t : ℕ} {q : Option ℕ}
    (hne : q ≠ none) : Coherent (World.exec (.setOutputQueue t q) w).2 := by
  refine ⟨hc.new, fun x hx => ?_, hc.retired⟩
  obtain ⟨h1, h2, h3, h4, h5, h6, -⟩ := hc.working x hx
  have htask : (World.exec (.setOutputQueue t q) w).2.taskOf x =
      if PipelineRuns.taskOf w.state.heap x = t then { w.taskOf x with outputQueue := q }
      else w.taskOf x := by
    by_cases hx : PipelineRuns.taskOf w.state.heap x = t <;>
      simp [World.taskOf, World.exec, PipelineObjects.exec, hx]
  refine ⟨h1, h2, h3, ?_, ?_, ?_, ?_⟩
  · rw [htask]
    split <;> exact h4
  · rw [htask]
    split
    · exact hne
    · exact h5
  · intro p hp
    rw [htask]
    split <;> exact h6 p hp
  · intro p g hp
    have hh := hq.hands x
    rw [show w.pc x = .offering p g from hp] at hh
    simp [Pc.inHand] at hh

theorem coherent_newThread (hc : Coherent w) (t : ℕ) :
    Coherent (World.exec (.newThread t) w).2 := by
  refine coherent_thread hc w.state.heap.nextThread (fun x hx => ?_) (fun x hx => ?_)
    (fun x hx => ?_) (fun x hx => ?_) ?_ ?_ ?_
  · simp [World.exec, hx]
  · simp [World.exec, hx]
  · simp [stateOf, World.exec, PipelineObjects.exec, hx]
  · simp [World.taskOf, PipelineRuns.taskOf, World.exec, PipelineObjects.exec, hx]
  all_goals simp [stateOf, World.exec, PipelineObjects.exec]

theorem coherent_start (hc : Coherent w) {th : ℕ}
    (hi : Harmless (.startThread th) w.state) : Coherent (World.exec (.startThread th) w).2 := by
  by_cases hnew : (w.state.heap.thread th).state = .new
  swap
  · refine coherent_same hc ?_ rfl ?_ fun x _ => ?_ <;>
      simp [World.taskOf, World.exec, PipelineObjects.exec, hnew]
  obtain ⟨hex, hin, hout⟩ := hi
  have htask : ∀ x, (World.exec (.startThread th) w).2.taskOf x = w.taskOf x := by
    intro x
    by_cases hx : x = th <;>
      simp [World.taskOf, PipelineRuns.taskOf, World.exec, PipelineObjects.exec, hnew, hx]
  have hpc : (World.exec (.startThread th) w).2.pc th = .looping := by
    simp [World.exec, hnew, hex]
  refine coherent_thread hc th (fun x hx => ?_) (fun x hx => ?_) (fun x hx => ?_)
    (fun x _ => htask x) ?_ (fun _ => ?_) ?_
  · simp [World.exec, hnew, hx]
  · simp [World.exec]
  · simp [stateOf, World.exec, PipelineObjects.exec, hnew, hx]
  · simp [stateOf, World.exec, PipelineObjects.exec, hnew, start_state]
  · refine ⟨(hc.new th hnew).2, ?_, ?_, ?_, ?_, ?_, ?_⟩
    · simp [hpc]
    · simp [hpc]
    · rw [htask]
      exact hin
    · rw [htask]
      exact hout
    · simp [hpc]
    · simp [hpc]
  · simp [stateOf, World.exec, PipelineObjects.exec, hnew, start_state]

theorem coherent_interrupt (hc : Coherent w) (hq : Quiet w) (th : ℕ) :
    Coherent (World.exec (.interruptThread th) w).2 := by
  refine coherent_thread hc th (fun x hx => ?_) (fun x hx => ?_) (fun x hx => ?_)
    (fun x hx => ?_) ?_ ?_ ?_
  · simp [World.exec]
  · by_cases hnew : (w.state.heap.thread th).state = .new <;> simp [World.exec, hnew, hx]
  · simp [stateOf, World.exec, PipelineObjects.exec, hx]
  · simp [World.taskOf, PipelineRuns.taskOf, World.exec, PipelineObjects.exec, hx]
  · intro hnew
    have hnew : (w.state.heap.thread th).state = .new := by
      cases hst : (w.state.heap.thread th).state <;>
        simp [stateOf, World.exec, PipelineObjects.exec, interrupt_state, hst] at hnew ⊢
    simpa [World.exec, hnew] using hc.new th hnew
  · intro hst
    cases hst' : (w.state.heap.thread th).state <;>
      simp [stateOf, World.exec, PipelineObjects.exec, interrupt_state, hst'] at hst
  · intro _
    cases hst : (w.state.heap.thread th).state with
    | new => exact Or.inl (hc.new th hst).1
    | started =>
      refine Or.inr (Or.inr ⟨?_, ?_⟩)
      · simp [World.exec, hst]
      · exact (working_idle (hc.working th hst) (hq.hands th) : (w.pc th).Idle)
    | interrupted =>
      rcases hc.retired th hst with hr | hr | ⟨-, hr⟩
      · exact Or.inl hr
      · exact Or.inr (Or.inl hr)
      · exact Or.inr (Or.inr ⟨by simp [World.exec, hst], hr⟩)

theorem coherent_exec (hc : Coherent w) (hq : Quiet w) (hi : Harmless i w.state) :
    Coherent (World.exec i w).2 := by
  cases i with
  | newTask e =>
    refine coherent_same hc rfl rfl rfl fun th hth => ?_
    have hne := hi th hth
    simp only [PipelineRuns.taskOf] at hne
    simp [World.taskOf, World.exec, PipelineObjects.exec, PipelineRuns.taskOf, hne]
  | setInputQueue t q =>
    refine coherent_same hc rfl rfl rfl fun th hth => ?_
    simp [World.taskOf, World.exec, PipelineObjects.exec, hi th hth]
  | setOutputQueue t q => exact coherent_setOutput hc hq hi
  | newThread t => exact coherent_newThread hc t
  | startThread th => exact coherent_start hc hi
  | interruptThread th => exact coherent_interrupt hc hq th
  | tasksAdd i t | tasksRemove i | threadsAdd i t | threadsRemove i =>
    refine coherent_same hc rfl rfl ?_ fun th _ => ?_ <;>
      simp only [World.taskOf, World.exec, PipelineObjects.exec] <;> split <;> rfl
  | _ => exact coherent_same hc rfl rfl rfl fun _ _ => rfl

theorem quiet_exec (hq : Quiet w) (i : Instr) : Quiet (World.exec i w).2 := by
  refine ⟨fun q => ?_, fun th => ?_⟩
  · cases i with
    | newQueue capacity =>
      by_cases hx : q = w.state.heap.nextQueue <;> simp [World.exec, hx, hq.items]
    | _ => exact hq.items q
  · cases i with
    | newThread t =>
      by_cases hx : th = w.state.heap.nextThread
      · simp [World.exec, hx, Pc.inHand]
      · simpa [World.exec, hx] using hq.hands th
    | startThread t =>
      by_cases hnew : (w.state.heap.thread t).state = .new <;> by_cases hx : th = t
      · by_cases hex : Allocated w.state.heap t <;> simp [World.exec, hnew, hx, hex, Pc.inHand]
      · simpa [World.exec, hnew, hx] using hq.hands th
      · simpa [World.exec, hnew] using hq.hands th
      · simpa [World.exec, hnew] using hq.hands th
    | _ => exact hq.hands th

end Statements

/-- The server between two calls: the pipeline starts with the effect of the constructor or of
`clearEffects`, and exactly the threads of the list run. -/
structure Serving (s : State) (effects : List EffectClass) : Prop where
  shape : Shape s
  wiring : Wiring s
  nonempty : s.pipe.effectTasks ≠ []
  running : s.pipe.running = true
  started : ∀ th, stateOf s th = .started ↔ th ∈ s.pipe.effectThreads
  unborn : Unborn s
  classes : (effectsOf s).map (·.cls) = .identity :: effects

section Effects

variable (h : Heap) (t : ℕ)

theorem effectsOf_restarted (m : State) : effectsOf (restarted m) = effectsOf m := by
  rw [effectsOf, restarted_pipe, (restarted_heap m).1]
  rfl

theorem classes_addLast (uq pq : ℕ) (r : Bool) (us ths xs : List ℕ) (a u : ℕ) :
    (effectsOf (restarted ⟨(((((((h.setOutput t (some pq)).interrupt u).newQueue).setOutput a
          (some h.nextQueue)).newThread a).setInput t (some h.nextQueue)).newThread t),
        ⟨uq, pq, r, us, xs ++ [a, t]⟩⟩)).map (·.cls) =
      (effectsOf ⟨h, ⟨uq, pq, r, ths, xs ++ [a]⟩⟩).map (·.cls) ++ [(h.task t).effect.cls] := by
  rw [effectsOf_restarted]
  simp only [effectsOf, List.map_append, List.map_cons, List.map_nil, List.map_map,
    Function.comp_def, Heap.newThread_task, Heap.newQueue_task, Heap.interrupt_task,
    setInput_effect, setOutput_effect]
  simp

theorem classes_clear (uq pq : ℕ) (r : Bool) (us ths : List ℕ) :
    (effectsOf (restarted ⟨(interruptAll
        (((h.newEffect.newTask ⟨h.nextEffect, .identity⟩).setInput h.nextTask (some uq)).setOutput
          h.nextTask (some pq)) ths).newThread h.nextTask,
      ⟨uq, pq, r, us, [h.nextTask]⟩⟩)).map (·.cls) = [.identity] := by
  rw [effectsOf_restarted]
  simp only [effectsOf, List.map_cons, List.map_nil, Heap.newThread_task, interruptAll_task,
    setInput_effect, setOutput_effect]
  simp

end Effects

section Edits

variable {s s' : State} {kind : Kind} {effects effects' : List EffectClass}

theorem serving_change (hs : Serving s effects) (hc : Change s [] kind s')
    (hf : Fresh s kind) (hk : kind ≠ .halts) (hrun : s'.pipe.running = true)
    (hne : s'.pipe.effectTasks ≠ []) (hnew : ∀ th ∈ s'.pipe.effectThreads, stateOf s' th ≠ .new)
    (hcls : (effectsOf s').map (·.cls) = .identity :: effects') : Serving s' effects' := by
  have hshape := change_shape hc hf hs.shape
  have ht := change_touch hs.shape.toStaffed hc
  refine ⟨hshape, change_wiring hs.shape hf hc hs.wiring, hne, hrun, fun th => ⟨?_, ?_⟩,
    touch_unborn ht hshape.toStaffed hs.unborn, hcls⟩
  · intro hst
    by_contra hout
    rcases (touch_stray ht hs.unborn th).mp ⟨hst, hout⟩ with ⟨hst', hout'⟩ | ⟨hl, -⟩
    · exact hout' ((hs.started th).mp hst')
    · cases hl
  · intro hm
    have hni : stateOf s' th ≠ .interrupted := by
      rw [ne_eq, touch_interrupted ht hs.unborn hk hm]
      rintro ⟨hold, hi⟩
      rw [(hs.started th).mpr hold] at hi
      cases hi
    cases hst : stateOf s' th with
    | new => exact absurd hst (hnew th hm)
    | started => rfl
    | interrupted => exact absurd hst hni

theorem restarted_not_new {m : State} (hr : m.pipe.running = true) {th : ℕ}
    (hm : th ∈ (restarted m).pipe.effectThreads) : stateOf (restarted m) th ≠ .new := by
  rw [restarted_pipe] at hm
  rw [restarted_state]
  by_cases hn : stateOf m th = .new <;> simp [hr, hm, hn]

theorem serving_newEffect {h : Heap} {p : Pipeline} (hs : Serving ⟨h, p⟩ effects) :
    Serving ⟨h.newEffect, p⟩ effects :=
  ⟨⟨⟨hs.shape.aligned, hs.shape.threads_distinct, hs.shape.threads_allocated⟩,
      hs.shape.tasks_distinct, hs.shape.tasks_allocated⟩,
    ⟨hs.wiring.ends, hs.wiring.unprocessed_allocated, hs.wiring.processed_allocated,
      hs.wiring.path⟩,
    hs.nonempty, hs.running, hs.started, hs.unborn, hs.classes⟩

theorem serving_newTask {h : Heap} {p : Pipeline} (hs : Serving ⟨h, p⟩ effects) (e : Effect) :
    Serving ⟨h.newTask e, p⟩ effects := by
  refine serving_change hs (.newTask h p e) (plain_fresh _) nofun hs.running hs.nonempty ?_ ?_
  · intro th hm
    have hst := (hs.started th).mpr hm
    simp only [stateOf, Heap.newTask_thread] at hst ⊢
    simp [hst]
  · rw [← hs.classes, effectsOf, effectsOf]
    congr 1
    refine List.map_congr_left fun t ht => ?_
    simp [(hs.shape.tasks_allocated t ht).ne]

theorem serving_addEffect (hs : Serving s effects) {t : ℕ} (hf : Fresh s (.adds t)) :
    ∃ m, call (addEffect t) s = (.ok (), m) ∧
      Serving m (effects ++ [(s.heap.task t).effect.cls]) := by
  obtain ⟨h, uq, pq, r, ths, ts⟩ := s
  have hr : r = true := hs.running
  have hlen := hs.shape.length
  obtain ⟨xs, a, rfl⟩ := split_last hs.nonempty
  obtain ⟨us, u, rfl⟩ := split_last (l := ths) (by rintro rfl; simp at hlen)
  refine ⟨_, call_addEffect_last h uq pq r xs us a u t, ?_⟩
  refine serving_change hs (.addLast h uq pq r us u xs a t (by simpa using hlen)) hf nofun ?_ ?_
    (fun th hm => restarted_not_new hr hm) ?_
  · rw [restarted_pipe]
    exact hr
  · rw [restarted_pipe]
    simp
  · rw [classes_addLast h t uq pq r _ (us ++ [u]) xs a u, hs.classes]
    rfl

theorem serving_clearEffects (hs : Serving s effects) :
    ∃ m, call PipelineOperations.clearEffects s = (.ok (), m) ∧ Serving m [] := by
  obtain ⟨h, uq, pq, r, ths, ts⟩ := s
  have hr : r = true := hs.running
  refine ⟨_, call_clearEffects h uq pq r ths ts, ?_⟩
  refine serving_change hs (.clear h uq pq r ths ts) (plain_fresh _) nofun ?_ ?_
    (fun th hm => restarted_not_new hr hm) ?_
  · rw [restarted_pipe]
    exact hr
  · rw [restarted_pipe]
    simp
  · exact classes_clear h uq pq r _ ths

theorem serving_start (hs : Serving s effects) :
    ∃ m, call start s = (.ok (), m) ∧ Serving m effects := by
  obtain ⟨h, p⟩ := s
  refine ⟨_, call_start h p, ?_⟩
  refine serving_change hs (.start h p) (plain_fresh _) nofun rfl hs.nonempty (fun th hm => ?_)
    hs.classes
  have hst := (hs.started th).mpr hm
  simp only [stateOf] at hst
  simp [stateOf, startAll, JavaThread.start, hst]

end Edits

/-- Executed from this state and alone, the code disturbs no running thread. -/
abbrev Undisturbing (code : Code Unit) (s : State) : Prop :=
  Guarded PipelineObjects.exec Eq Harmless (fun _ _ => True) code s

/-- A thread that is ready to be started. -/
def Ready (h : Heap) (th : ℕ) : Prop :=
  Allocated h th ∧ (h.task (taskOf h th)).inputQueue ≠ none ∧
    (h.task (taskOf h th)).outputQueue ≠ none

section Codes

variable {s : State} {effects : List EffectClass}

theorem undisturbing_start (h : ∀ th ∈ s.pipe.effectThreads, Ready s.heap th) :
    Undisturbing start s := by
  have hloop : Guarded PipelineObjects.exec Eq Harmless
      (fun _ t => ∀ th ∈ s.pipe.effectThreads, Ready t.heap th)
      (s.pipe.effectThreads.forM startIfNew) s := guarded_forM (fun th hth t ht => by
      by_cases hn : (t.heap.thread th).state = .new
      · simp only [startIfNew, field, void, Program.bind_eq, Program.read_bind,
          Program.done_bind, guarded_read, hn, if_true, guarded_act]
        refine ⟨ht th hth, ?_⟩
        simp only [PipelineObjects.exec, hn, if_true, guarded_done]
        intro x hx
        have htask : taskOf (t.heap.start th) = taskOf t.heap := by
          funext y
          by_cases hy : y = th <;> simp [taskOf, hy]
        simpa [Ready, Allocated, htask] using ht x hx
      · simpa [startIfNew, field, hn] using ht) h
  simp only [Undisturbing, start, field, Program.bind_eq, Program.read_bind, Program.done_bind,
    guarded_read]
  refine guarded_bind (guarded_mono (fun _ t _ => ?_) hloop)
  simp [void, Harmless, PipelineObjects.exec]

theorem undisturbing_startIfRunning (h : ∀ th ∈ s.pipe.effectThreads, Ready s.heap th) :
    Undisturbing startIfRunning s := by
  by_cases hr : s.pipe.running
  · simpa [Undisturbing, startIfRunning, field, hr] using undisturbing_start h
  · simp [Undisturbing, startIfRunning, field, hr]

/-- In a shaped and wired pipeline every thread of the list can be started. -/
theorem ready_of_wiring (hs : Shape s) (hw : Wiring s) {th : ℕ}
    (hth : th ∈ s.pipe.effectThreads) : Ready s.heap th := by
  have ht := hs.taskOf_mem hth
  obtain ⟨qs, hp⟩ := hw.path.resolve_left (List.ne_nil_of_mem ht)
  obtain ⟨i, hi⟩ := List.mem_iff_getElem?.mp ht
  obtain ⟨hlen, hget⟩ := linked_get hp.linked
  have hlt := (List.getElem?_eq_some_iff.mp hi).1
  obtain ⟨hin, hout⟩ := hget i _ hi
  refine ⟨⟨hs.threads_allocated th hth, hs.tasks_allocated _ ht⟩, ?_, ?_⟩
  · rw [hin, List.getElem?_eq_getElem (by omega)]
    exact Option.some_ne_none _
  · rw [hout, List.getElem?_eq_getElem (by omega)]
    exact Option.some_ne_none _

theorem ready_of_restarted {m : State} (hs : Serving (restarted m) effects) {th : ℕ}
    (hth : th ∈ m.pipe.effectThreads) : Ready m.heap th := by
  have hr := ready_of_wiring hs.shape hs.wiring (by rwa [restarted_pipe] : th ∈ _)
  obtain ⟨h1, h2, h3, -⟩ := restarted_heap m
  simpa [Ready, Allocated, h1, h2, h3] using hr

theorem undisturbing_addEffect (hs : Serving s effects) {t : ℕ} (hf : Fresh s (.adds t)) :
    Undisturbing (addEffect t) s := by
  obtain ⟨m, hm, hserving⟩ := serving_addEffect hs hf
  obtain ⟨h, uq, pq, r, ths, ts⟩ := s
  have hlen := hs.shape.length
  obtain ⟨xs, a, rfl⟩ := split_last hs.nonempty
  obtain ⟨us, u, rfl⟩ := split_last (l := ths) (by rintro rfl; simp at hlen)
  rw [call_addEffect_last h uq pq r xs us a u t] at hm
  obtain rfl := (Prod.mk.inj hm).2
  have hstart := undisturbing_startIfRunning fun th hth => ready_of_restarted hserving hth
  have hused : ∀ th, stateOf ⟨h, ⟨uq, pq, r, us ++ [u], xs ++ [a]⟩⟩ th = .started →
      taskOf h th ≠ t := by
    rintro th hth rfl
    have hmem := (hs.started th).mp hth
    exact (hf _ rfl).2 (hs.shape.taskOf_mem hmem)
  -- when the new task gets its input queue, no thread runs it
  have hfree : ∀ th,
      stateOf ⟨(((h.setOutput t (some pq)).interrupt u).newQueue.setOutput a
          (some h.nextQueue)).newThread a, ⟨uq, pq, r, us ++ [h.nextThread], xs ++ [a]⟩⟩ th =
        .started → ¬ Function.update (taskOf h) h.nextThread a th = t := by
    intro th hth
    rcases eq_or_ne th h.nextThread with rfl | hne
    · simp [stateOf] at hth
    · rw [Function.update_of_ne hne]
      refine hused th ?_
      by_cases hu : th = u
      · subst u
        simp [stateOf, hne, interrupt_not_started] at hth
      · simpa [stateOf, hne, hu] using hth
  simpa [Undisturbing, addEffect, field, void, ref, PipelineObjects.exec, remove_append,
    effectTasksGet, get_append, State.setTasks, State.setThreads, Harmless]
    using And.intro hfree hstart

theorem harmless_stop (s : State) : Undisturbing stop s := by
  have hloop : Guarded PipelineObjects.exec Eq Harmless (fun _ _ => True)
      (s.pipe.effectThreads.forM fun th => void (.interruptThread th)) s :=
    guarded_forM (fun th _ t _ => by simp [void, Harmless, PipelineObjects.exec]) trivial
  simp only [Undisturbing, stop, field, Program.bind_eq, Program.read_bind, Program.done_bind,
    guarded_read]
  refine guarded_bind (guarded_mono (fun _ t _ => ?_) hloop)
  simp [void, Harmless, PipelineObjects.exec]

theorem undisturbing_createThreads {h : Heap} {uq pq : ℕ} {r : Bool} {ths ts : List ℕ}
    (hready : ∀ th ∈ List.range' h.nextThread ts.length,
      Ready (spawn (interruptAll h ths) ts) th) :
    Undisturbing createThreads ⟨h, ⟨uq, pq, r, ths, ts⟩⟩ := by
  have h1 := call_stop h ⟨uq, pq, r, ths, ts⟩
  have h2 := call_create_loop ts (interruptAll h ths) ⟨uq, pq, false, [], ts⟩
  have hcreate : Guarded PipelineObjects.exec Eq Harmless (fun _ _ => True)
      (ts.forM createThread) ⟨interruptAll h ths, ⟨uq, pq, false, [], ts⟩⟩ :=
    guarded_forM
      (fun th _ t _ => by simp [createThread, ref, void, Harmless, PipelineObjects.exec]) trivial
  simp only [Undisturbing, createThreads, field, Program.bind_eq, Program.read_bind,
    Program.done_bind, guarded_read]
  refine guarded_bind_run (harmless_stop _) h1 ?_
  simp only [void, Program.act_bind, guarded_act, PipelineObjects.exec, State.setThreads,
    Program.done_bind, guarded_read]
  refine ⟨trivial, guarded_bind_run hcreate h2 ?_⟩
  cases r with
  | false => simp
  | true => exact undisturbing_start (by simpa [interruptAll] using hready)

theorem undisturbing_clearEffects (hs : Serving s effects) :
    Undisturbing PipelineOperations.clearEffects s := by
  obtain ⟨m, hm, hserving⟩ := serving_clearEffects hs
  obtain ⟨h, uq, pq, r, ths, ts⟩ := s
  rw [call_clearEffects h uq pq r ths ts] at hm
  obtain rfl := (Prod.mk.inj hm).2
  have hused : ∀ th, stateOf ⟨h, ⟨uq, pq, r, ths, ts⟩⟩ th = .started →
      taskOf h th ≠ h.nextTask := by
    rintro th hth he
    have hmem := (hs.started th).mp hth
    exact absurd (hs.shape.tasks_allocated _ (hs.shape.taskOf_mem hmem)) (by simp [he])
  have hcreate : Undisturbing createThreads ⟨((h.newEffect.newTask ⟨h.nextEffect,
      .identity⟩).setInput h.nextTask (some uq)).setOutput h.nextTask (some pq),
      ⟨uq, pq, r, ths, [h.nextTask]⟩⟩ :=
    undisturbing_createThreads fun th hth => ready_of_restarted hserving (by simpa using hth)
  simp only [Undisturbing, PipelineOperations.clearEffects, field, void, ref,
    PipelineObjects.exec, State.setTasks, Program.bind_eq, Program.read_bind, Program.act_bind,
    Program.done_bind, guarded_read, guarded_act]
  simp only [Harmless]
  exact ⟨trivial, trivial, hused, hused, by simp, trivial, hcreate⟩

/-- A call that completes, keeps the server serving and disturbs nobody. -/
def Edits (code : Code Unit) (s : State) (effects : List EffectClass) : Prop :=
  ∃ m, call code s = (.ok (), m) ∧ Serving m effects ∧ Undisturbing code s

theorem edits_bind {p q : Code Unit} {effects' : List EffectClass} {s : State}
    (hp : Edits p s effects) (hq : ∀ m, Serving m effects → Edits q m effects') :
    Edits (p.bind fun _ => q) s effects' := by
  obtain ⟨m, hm, hserving, hund⟩ := hp
  obtain ⟨m', hm', hserving', hund'⟩ := hq m hserving
  exact ⟨m', (Program.run_bind_of_ok hm).trans hm', hserving', guarded_bind_run hund hm hund'⟩

theorem edits_start (hs : Serving s effects) : Edits start s effects := by
  obtain ⟨m, hm, hserving⟩ := serving_start hs
  exact ⟨m, hm, hserving,
    undisturbing_start fun th hth => ready_of_wiring hs.shape hs.wiring hth⟩

theorem edits_clearEffects (hs : Serving s effects) : Edits ServerProtocol.clearEffects s [] := by
  obtain ⟨m, hm, hserving⟩ := serving_clearEffects hs
  exact ⟨m, hm, hserving, undisturbing_clearEffects hs⟩

theorem edits_addNewEffect (hs : Serving s effects) (cls : EffectClass) :
    Edits (addNewEffect cls) s (effects ++ [cls]) := by
  obtain ⟨h, p⟩ := s
  have hs₁ := serving_newTask (serving_newEffect hs) ⟨h.nextEffect, cls⟩
  have hf : Fresh ⟨h.newEffect.newTask ⟨h.nextEffect, cls⟩, p⟩ (.adds h.nextTask) := by
    rintro _ ⟨⟩
    refine ⟨by simp, fun hm => ?_⟩
    exact absurd (hs.shape.tasks_allocated _ hm) (lt_irrefl _)
  have hused : ∀ th, stateOf ⟨h.newEffect, p⟩ th = .started → taskOf h th ≠ h.nextTask := by
    intro th hth he
    have hmem := (hs.started th).mp hth
    exact absurd (hs.shape.tasks_allocated _ (hs.shape.taskOf_mem hmem)) (by simp [he])
  obtain ⟨m, hm, hserving⟩ := serving_addEffect hs₁ hf
  have hund := undisturbing_addEffect hs₁ hf
  refine ⟨m, ?_, by simpa using hserving, ?_⟩
  · simpa [addNewEffect, ref, PipelineObjects.exec] using hm
  · simp only [Undisturbing, addNewEffect, ref, PipelineObjects.exec, Program.bind_eq,
      Program.act_bind, Program.done_bind, guarded_act]
    exact ⟨trivial, hused, hund⟩

theorem edits_addRpc (hs : Serving s effects) (cls : EffectClass) :
    Edits (addRpc cls) s (effects ++ [cls]) := by
  have hadd := fun cls => edits_addNewEffect hs cls
  cases cls with
  | blur => exact edits_bind (hadd .blur) fun m hm => edits_start hm
  | colorSaturation => exact edits_bind (hadd .colorSaturation) fun m hm => edits_start hm
  | _ => exact hadd _

end Codes

end ServerReconfiguration
