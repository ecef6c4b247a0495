import VideoEditorOffloading.ServerBatches
import VideoEditorOffloading.Totals

/-! # Frames that a handler waits for

A handler has to take as many frames as it has offered, whatever becomes of them. As long as no
frame gets lost, what all handlers together have to take is in the queues and in the hands of
the threads. -/
namespace ServerLosses

open SharedStatePrograms PipelineObjects PipelineOperations PipelineRuns EffectThreads
  EffectThreadLine ServerProtocol ServerReconfiguration ServerBatches LossyLine Totals PipelineThreadLifecycle

variable {M B : Type}

/-- The queues of the current pipeline: its two ends and those of its tasks. -/
def InPipeline (s : State) (q : ℕ) : Prop :=
  q = s.pipe.unprocessedFrameQueue ∨ q = s.pipe.processedFrameQueue ∨
    ∃ t ∈ s.pipe.effectTasks,
      (s.heap.task t).inputQueue = some q ∨ (s.heap.task t).outputQueue = some q

def numRemaining : Handler B → ℕ
  | .adding _ _ n => n
  | .waiting _ n _ => n
  | _ => 0

/-- The handler waits in `getFrame`, and nothing is left that could come out. -/
def Wedged (x : Server M B) (c : ℕ) : Prop :=
  (∃ frames n processedFrames, x.handler c = .waiting frames (n + 1) processedFrames) ∧
  (∀ q, InPipeline x.world.state q → x.world.items q = []) ∧
  ∀ th, (x.world.pc th).inHand = []

/-- A thread that has a frame has not been interrupted when it looks, knows where to put the
frame, and finds room there, in a queue of the current pipeline. -/
def Careful (w : World M) (th : ℕ) : Prop :=
  (∀ g, w.pc th = .applied g → w.flag th = false) ∧
  (∀ g, w.pc th = .passed g → (w.taskOf th).outputQueue ≠ none) ∧
  ∀ q g, w.pc th = .offering q g →
    (w.items q).length < w.capacity q ∧ InPipeline w.state q

/-- No frame gets lost in the step that is about to be taken: the input queue has room for the
frame of a handler, a thread is careful, and no statement of an edit takes a queue that holds
frames out of the pipeline. -/
def Lossless (x : Server M B) : ServerProtocol.Event B → Prop
  | .call _ _ => True
  | .handler c =>
    match x.handler c with
    | .adding _ (_ :: _) _ =>
      (x.world.items x.world.state.pipe.unprocessedFrameQueue).length <
        x.world.capacity x.world.state.pipe.unprocessedFrameQueue
    | .editing (.act i _) =>
      ∀ q, x.world.items q ≠ [] → InPipeline x.world.state q →
        InPipeline (PipelineObjects.exec i x.world.state).2 q
    | _ => True
  | .thread th => Careful x.world th

def queued (w : World M) (q : ℕ) : ℕ := (w.items q).length

def held (w : World M) (th : ℕ) : ℕ := ((w.pc th).inHand).length

def owed (x : Server M B) (c : ℕ) : ℕ := numRemaining (x.handler c)

structure Sound (w : World M) : Prop where
  located : ∀ q, w.items q ≠ [] → InPipeline w.state q
  unallocated : ∀ q, w.state.heap.nextQueue ≤ q → w.items q = [] ∧ w.capacity q = 0
  dormant : ∀ th, stateOf w.state th = .new ∨ w.state.heap.nextThread ≤ th →
    w.pc th = .unstarted ∨ w.pc th = .exited

structure Conserved (x : Server M B) : Prop where
  sound : Sound x.world
  balance : Balance (queued x.world) (held x.world) (owed x)

section Worlds

variable {applyTo : Effect → M → M} {w w' : World M} {th q : ℕ} {i : Instr} {owing : ℕ → ℕ}
  {c : Contents ℕ ℕ (Frame M)}

theorem held_eq (applyTo : Effect → M → M) (w : World M) :
    held w = fun th => ((contents applyTo w).leaving th).length := by
  funext th
  change (w.pc th).inHand.length = (leaving applyTo w th).length
  simpa using (congrArg List.length (leaving_number applyTo w th)).symm

theorem queued_eq (applyTo : Effect → M → M) (w : World M) :
    queued w = fun q => ((contents applyTo w).items q).length := rfl

theorem room_allocated (hs : Sound w) (hroom : (w.items q).length < w.capacity q) :
    q < w.state.heap.nextQueue := by
  by_contra hge
  have hcap := (hs.unallocated q (not_lt.mp hge)).2
  omega

theorem length_update {κ : Type} (f : ℕ → List κ) (i : ℕ) (l : List κ) :
    (fun j => (Function.update f i l j).length) =
      Function.update (fun j => (f j).length) i l.length :=
  (Function.comp_update List.length f i l)

theorem queued_offer (f : Frame M) (hroom : (w.items q).length < w.capacity q) :
    queued (w.offer q f) = Function.update (queued w) q (queued w q + 1) := by
  have hlen := length_update w.items q (w.items q ++ [f])
  rw [List.length_append] at hlen
  rw [World.offer, if_pos hroom]
  exact hlen

theorem held_offer (w : World M) (q : ℕ) (f : Frame M) : held (w.offer q f) = held w := by
  funext th
  rw [held, held, World.offer_pc]

theorem queued_removeFirst : queued (w.removeFirst q) =
    Function.update (queued w) q (queued w q - 1) := by
  have hlen := length_update w.items q (w.items q).tail
  rw [List.length_tail] at hlen
  exact hlen

theorem offer_sound (hs : Sound w) (f : Frame M) (hroom : (w.items q).length < w.capacity q)
    (hin : InPipeline w.state q) : Sound (w.offer q f) := by
  have halloc := room_allocated hs hroom
  rw [World.offer, if_pos hroom]
  refine ⟨fun p hp => ?_, fun p hp => ?_, hs.dormant⟩
  · by_cases hpq : p = q
    · exact hpq ▸ hin
    · exact hs.located p (by simpa [hpq] using hp)
  · have hpq : p ≠ q := by
      rintro rfl
      exact absurd hp (not_le.mpr halloc)
    simpa [hpq] using hs.unallocated p hp

theorem removeFirst_sound (hs : Sound w) (q : ℕ) : Sound (w.removeFirst q) := by
  have hsub (p : ℕ) : (w.removeFirst q).items p = w.items p ∨
      (w.removeFirst q).items p = (w.items p).tail := by
    by_cases hpq : p = q
    · exact Or.inr (by simp [hpq])
    · exact Or.inl (by simp [hpq])
  refine ⟨fun p hp => hs.located p fun hnil => hp ?_, fun p hp => ?_, hs.dormant⟩
  · rcases hsub p with he | he <;> simp [he, hnil]
  · obtain ⟨hnil, hcap⟩ := hs.unallocated p hp
    exact ⟨by rcases hsub p with he | he <;> simp [he, hnil], hcap⟩

theorem turn_balance (hok : Careful w th) (h : Turn applyTo w th w')
    (hb : Balance (queued w) (held w) owing) : Balance (queued w') (held w') owing := by
  rw [queued_eq applyTo, held_eq applyTo] at hb ⊢
  cases turn_effects h with
  | quiet hc => rwa [hc]
  | took q f fs hpc hflag hq hh hc =>
    have hbal := hb.update q th 0 (a := fs.length) (b := 1) (c := owing 0) ?_
    · rw [hc]
      simpa [Contents.pop, Contents.hold, contents, length_update, hq] using hbal
    · simp [contents, hq, hh]
      omega
  | gave q g hpc hroom hh hc =>
    have hbal := hb.update q th 0 (a := (w.items q).length + 1) (b := 0) (c := owing 0) ?_
    · rw [hc]
      simpa [Contents.put, Contents.hold, contents, length_update] using hbal
    · simp [contents, hh]
      omega
  | refused q g hpc hfull hh hc =>
    have hroom := (hok.2.2 q g hpc).1
    omega
  | lost g hpc =>
    rcases hpc with ⟨hpc, hflag⟩ | ⟨hpc, hnone⟩
    · simp [hok.1 g hpc] at hflag
    · exact absurd hnone (hok.2.1 g hpc)

/-- Which queues can hold more frames after a thread step than before. -/
theorem turn_items (hok : Careful w th) (h : Turn applyTo w th w') (hq : w'.items q ≠ []) :
    w.items q ≠ [] ∨ (w.items q).length < w.capacity q ∧ InPipeline w.state q := by
  have hitems : w'.items = (contents applyTo w').items := rfl
  rw [hitems] at hq
  cases turn_effects h with
  | quiet hc | refused p g hpc hfull hh hc | lost g hpc hh hc =>
    rw [hc] at hq
    exact Or.inl hq
  | took p f fs hpc hflag hp hh hc =>
    rw [hc] at hq
    rcases eq_or_ne q p with rfl | hne
    · exact Or.inl (by simp [hp])
    · exact Or.inl (by simpa [Contents.pop, Contents.hold, contents, hne] using hq)
  | gave p g hpc hroom hh hc =>
    rcases eq_or_ne q p with rfl | hne
    · exact Or.inr (hok.2.2 q g hpc)
    · rw [hc] at hq
      exact Or.inl (by simpa [Contents.put, Contents.hold, contents, hne] using hq)

theorem turn_sound (hok : Careful w th) (h : Turn applyTo w th w') (hs : Sound w) :
    Sound w' := by
  obtain ⟨hst, hcap, hother⟩ := turn_frame h
  refine ⟨fun q hq => ?_, fun q hq => ?_, fun x hx => ?_⟩
  · rw [hst]
    rcases turn_items hok h hq with hq | ⟨-, hin⟩
    · exact hs.located q hq
    · exact hin
  · rw [hst] at hq
    obtain ⟨hitems, hzero⟩ := hs.unallocated q hq
    rw [hcap]
    refine ⟨?_, hzero⟩
    by_contra hne
    rcases turn_items hok h hne with hne | ⟨hroom, -⟩
    · exact hne hitems
    · omega
  · rw [hst] at hx
    have hpc := hs.dormant x hx
    rcases eq_or_ne x th with rfl | hne
    · cases h <;> simp_all
    · rwa [(hother x hne).1]

theorem Sound.hand_eq_nil (hs : Sound w)
    (h : stateOf w.state th = .new ∨ w.state.heap.nextThread ≤ th) : (w.pc th).inHand = [] := by
  rcases hs.dormant th h with hpc | hpc <;> rw [hpc] <;> rfl

theorem exec_queued (hs : Sound w) (i : Instr) : queued (World.exec i w).2 = queued w := by
  cases i with
  | newQueue capacity =>
    funext q
    by_cases hq : q = w.state.heap.nextQueue
    · simp [queued, World.exec, hq, (hs.unallocated _ le_rfl).1]
    · simp [queued, World.exec, hq]
  | _ => rfl

theorem exec_held (hs : Sound w) (i : Instr) : held (World.exec i w).2 = held w := by
  cases i with
  | newThread t =>
    funext th
    by_cases hth : th = w.state.heap.nextThread
    · subst hth
      rw [held, held, hs.hand_eq_nil (Or.inr le_rfl)]
      simp [World.exec, Pc.inHand]
    · simp [held, World.exec, hth]
  | startThread t =>
    by_cases hnew : (w.state.heap.thread t).state = .new
    · funext th
      by_cases hth : th = t
      · subst hth
        rw [held, held, hs.hand_eq_nil (Or.inl hnew)]
        by_cases hex : Allocated w.state.heap th <;> simp [World.exec, hnew, hex, Pc.inHand]
      · simp [held, World.exec, hnew, hth]
    · funext th
      simp [held, World.exec, hnew]
  | _ => rfl

theorem exec_unallocated (hs : Sound w) (i : Instr)
    (hq : (World.exec i w).2.state.heap.nextQueue ≤ q) :
    (World.exec i w).2.items q = [] ∧ (World.exec i w).2.capacity q = 0 := by
  cases i with
  | newQueue capacity =>
    simp only [World.exec_state, PipelineObjects.exec, Heap.newQueue_nextQueue] at hq
    have hne : q ≠ w.state.heap.nextQueue := by omega
    simpa [World.exec, hne] using hs.unallocated q (by omega)
  | startThread | tasksAdd | tasksRemove | threadsAdd | threadsRemove =>
    refine hs.unallocated q ?_
    simp only [World.exec_state, PipelineObjects.exec] at hq
    split at hq <;> exact hq
  | _ => exact hs.unallocated q hq

theorem exec_dormant (hs : Sound w) (i : Instr)
    (h : stateOf (World.exec i w).2.state th = .new ∨
      (World.exec i w).2.state.heap.nextThread ≤ th) :
    (World.exec i w).2.pc th = .unstarted ∨ (World.exec i w).2.pc th = .exited := by
  cases i with
  | newThread t =>
    by_cases hth : th = w.state.heap.nextThread
    · exact Or.inl (by simp [World.exec, hth])
    · have hold := hs.dormant th (h.imp (by simp [stateOf, World.exec_state,
        PipelineObjects.exec, hth]) fun hle => by
          simp only [World.exec_state, PipelineObjects.exec, Heap.newThread_nextThread] at hle
          omega)
      simpa [World.exec, hth] using hold
  | startThread t =>
    by_cases hnew : (w.state.heap.thread t).state = .new
    · by_cases hth : th = t
      · subst hth
        have hge : w.state.heap.nextThread ≤ th := by
          simpa [stateOf, World.exec_state, PipelineObjects.exec, hnew, start_state] using h
        have hex : ¬ Allocated w.state.heap th := fun hex => by
          have := hex.1
          omega
        exact Or.inr (by simp [World.exec, hnew, hex])
      · have hold := hs.dormant th (by
          simpa [stateOf, World.exec_state, PipelineObjects.exec, hnew, hth] using h)
        simpa [World.exec, hnew, hth] using hold
    · have hold := hs.dormant th (by
        simpa [stateOf, World.exec_state, PipelineObjects.exec, hnew] using h)
      simpa [World.exec, hnew] using hold
  | interruptThread t =>
    refine hs.dormant th (h.imp (fun hn => ?_) id)
    by_cases hth : th = t
    · subst hth
      cases hst : (w.state.heap.thread th).state <;>
        simp [stateOf, World.exec_state, PipelineObjects.exec, interrupt_state, hst] at hn ⊢
    · simpa [stateOf, World.exec_state, PipelineObjects.exec, hth] using hn
  | tasksAdd | tasksRemove | threadsAdd | threadsRemove =>
    refine hs.dormant th ?_
    simp only [World.exec_state, PipelineObjects.exec] at h
    split at h <;> exact h
  | _ => exact hs.dormant th h

theorem exec_sound (hs : Sound w) (hi : ∀ q, w.items q ≠ [] → InPipeline w.state q →
    InPipeline (PipelineObjects.exec i w.state).2 q) : Sound (World.exec i w).2 := by
  refine ⟨fun q hq => ?_, fun q hq => exec_unallocated hs i hq, fun th h => exec_dormant hs i h⟩
  have hold : w.items q ≠ [] := by
    have hlen : ((World.exec i w).2.items q).length = (w.items q).length :=
      congrFun (exec_queued hs i) q
    rw [← List.length_pos_iff] at hq ⊢
    rwa [hlen] at hq
  exact hi q hold (hs.located q hold)

end Worlds

section Steps

variable {cv : OpenCv M B} {x x' : Server M B} {c : ℕ}

theorem owed_update {h : Handler B} (hh : x'.handler = Function.update x.handler c h) :
    owed x' = Function.update (owed x) c (numRemaining h) := by
  funext d
  rw [owed, hh]
  by_cases hd : d = c
  · subst hd
    simp
  · simp [owed, hd]

theorem conserved_move (hc : Conserved x) (hw : x'.world = x.world) {h : Handler B}
    (hh : x'.handler = Function.update x.handler c h)
    (hn : numRemaining h = numRemaining (x.handler c)) : Conserved x' := by
  have howed : owed x' = owed x := by
    rw [owed_update hh, hn]
    exact Function.update_eq_self c (owed x)
  exact ⟨hw ▸ hc.sound, by rw [hw, howed]; exact hc.balance⟩

theorem conserved_accept (hc : Conserved x) (hrest : (x.handler c).AtRest = true) (rpc : Rpc B) :
    Conserved (accept x c rpc) := by
  have hzero : 0 = numRemaining (x.handler c) := by
    cases hc : x.handler c <;> simp_all [numRemaining, Handler.AtRest]
  cases rpc with
  | addEffect | clearEffects | addFrames => exact conserved_move hc rfl rfl hzero

theorem conserved_offer (hc : Conserved x) {frames rest : List B} {buf : B} {n : ℕ}
    (hadd : x.handler c = .adding frames (buf :: rest) n)
    (hroom : (x.world.items x.world.state.pipe.unprocessedFrameQueue).length <
      x.world.capacity x.world.state.pipe.unprocessedFrameQueue)
    (h : handlerStep cv x c = some x') : Conserved x' := by
  simp only [handlerStep, hadd, Option.some.injEq] at h
  subst h
  refine ⟨offer_sound hc.sound _ hroom (Or.inl rfl), ?_⟩
  have hbal := hc.balance.update x.world.state.pipe.unprocessedFrameQueue 0 c
    (a := queued x.world x.world.state.pipe.unprocessedFrameQueue + 1) (b := held x.world 0)
    (c := n + 1) (by simp [owed, hadd, numRemaining]; omega)
  rw [Function.update_eq_self, ← queued_offer ⟨x.offers.length, cv.imdecode buf 0⟩ hroom] at hbal
  rw [owed_update (x := x) (c := c) rfl]
  rw [← held_offer] at hbal
  exact hbal

theorem conserved_take (hc : Conserved x) {frames processedFrames : List B} {n : ℕ}
    (hwait : x.handler c = .waiting frames (n + 1) processedFrames)
    (h : handlerStep cv x c = some x') : Conserved x' := by
  simp only [handlerStep, hwait] at h
  split at h
  · cases h
  · rename_i f fs hitems
    cases h
    refine ⟨removeFirst_sound hc.sound _, ?_⟩
    have hq : queued x.world x.world.state.pipe.processedFrameQueue = fs.length + 1 := by
      simp [queued, hitems]
    have hbal := hc.balance.update x.world.state.pipe.processedFrameQueue 0 c
      (a := queued x.world x.world.state.pipe.processedFrameQueue - 1) (b := held x.world 0)
      (c := n) (by simp [owed, hwait, numRemaining, hq]; omega)
    rw [Function.update_eq_self, ← queued_removeFirst] at hbal
    rw [owed_update (x := x) (c := c) rfl]
    exact hbal

theorem conserved_edit (hc : Conserved x) {code : Code Unit}
    (hedit : x.handler c = .editing code) (hok : Lossless x (.handler c))
    (h : handlerStep cv x c = some x') : Conserved x' := by
  simp only [handlerStep, hedit] at h
  cases code with
  | done u | fail e | read k =>
    cases h
    exact conserved_move hc rfl rfl (by rw [hedit]; rfl)
  | act i k =>
    simp only [Lossless, hedit] at hok
    cases h
    have hsame : Conserved { x with world := (World.exec i x.world).2 } :=
      ⟨exec_sound hc.sound hok, by
        rw [exec_queued hc.sound, exec_held hc.sound]
        exact hc.balance⟩
    exact conserved_move hsame rfl rfl (by rw [hedit]; rfl)

theorem conserved_handler (hc : Conserved x) (hok : Lossless x (.handler c))
    (h : handlerStep cv x c = some x') : Conserved x' := by
  cases hh : x.handler c with
  | idle | returned => simp [handlerStep, hh] at h
  | editing code => exact conserved_edit hc hh hok h
  | adding frames rest n =>
    cases rest with
    | nil =>
      simp only [handlerStep, hh, Option.some.injEq] at h
      subst h
      exact conserved_move hc rfl rfl (by rw [hh]; rfl)
    | cons buf rest => exact conserved_offer hc hh (by simpa [Lossless, hh] using hok) h
  | waiting frames n processedFrames =>
    cases n with
    | zero =>
      simp only [handlerStep, hh, Option.some.injEq] at h
      subst h
      exact conserved_move hc rfl rfl (by rw [hh]; rfl)
    | succ n => exact conserved_take hc hh h

theorem conserved_next {e : ServerProtocol.Event B} (hok : Lossless x e)
    (h : ServerProtocol.next cv x e = some x') (hc : Conserved x) : Conserved x' := by
  cases e with
  | call c rpc =>
    simp only [ServerProtocol.next] at h
    split at h
    · cases h
      exact conserved_accept hc ‹_› rpc
    · cases h
  | handler c => exact conserved_handler hc hok h
  | thread th =>
    obtain ⟨w, hw, rfl⟩ := Option.map_eq_some_iff.mp h
    have ht := threadStep_turn hw
    exact ⟨turn_sound hok ht hc.sound, turn_balance hok ht hc.balance⟩

theorem new_sound : Sound (newWorld : World M) where
  located q hq := absurd (new_quiet.items q) hq
  unallocated q hq := by
    refine ⟨new_quiet.items q, ?_⟩
    rcases q with _ | _ | q
    · exact absurd hq (Nat.not_succ_le_zero 1)
    · exact absurd hq (Nat.lt_irrefl 1)
    · rfl
  dormant th h := by
    rw [new_pc]
    rw [new_stateOf] at h
    by_cases hth : th = 0
    · subst hth
      rcases h with h | h
      · cases h
      · exact absurd h (Nat.not_succ_le_zero 0)
    · exact Or.inl (if_neg hth)

theorem new_conserved : Conserved (newServer : Server M B) := by
  refine ⟨new_sound, ?_⟩
  have hq : queued (newWorld : World M) = fun _ => 0 := by
    funext q
    rw [queued, new_quiet.items]
    rfl
  have hh : held (newWorld : World M) = fun _ => 0 := by
    funext th
    rw [held, new_quiet.hands]
    rfl
  rw [newServer, hq, hh]
  exact balance_zero

theorem conserved_not_wedged (hc : Conserved x) (c : ℕ) : ¬ Wedged x c := by
  rintro ⟨⟨frames, n, processedFrames, hwait⟩, hqueues, hhands⟩
  have howed : owed x c ≠ 0 := by simp [owed, hwait, numRemaining]
  rcases hc.balance.present howed with ⟨q, hq⟩ | ⟨th, hth⟩
  · have hne : x.world.items q ≠ [] := by
      rintro hnil
      simp [queued, hnil] at hq
    exact hne (hqueues q (hc.sound.located q hne))
  · simp [held, hhands th] at hth

/-- As long as every step finds what it needs to keep the frames, no call of `addFrames` hangs
on an empty server, whatever calls and threads interleave with it. -/
theorem lossless_never_wedges (h : ServerProtocol.Execution cv Lossless newServer x) (c : ℕ) :
    ¬ Wedged x c :=
  conserved_not_wedged
    (h.invariant new_conserved fun _ _ _ hok hnext hc => conserved_next hok hnext hc) c

def clearlyLossless (x : Server ℕ ℕ) : ServerProtocol.Event ℕ → Bool
  | .call _ _ => true
  | .handler c =>
    match x.handler c with
    | .adding _ (_ :: _) _ =>
      (x.world.items x.world.state.pipe.unprocessedFrameQueue).length <
        x.world.capacity x.world.state.pipe.unprocessedFrameQueue
    | .editing (.act _ _) => false
    | _ => true
  | .thread th =>
    match x.world.pc th with
    | .applied _ => x.world.flag th = false
    | .passed _ => (x.world.taskOf th).outputQueue ≠ none
    | .offering q _ =>
      (x.world.items q).length < x.world.capacity q ∧ q = x.world.state.pipe.processedFrameQueue
    | _ => true

theorem lossless_of_clearly {x : Server ℕ ℕ} {e : ServerProtocol.Event ℕ}
    (h : clearlyLossless x e = true) : Lossless x e := by
  cases e with
  | call c rpc => exact trivial
  | handler c =>
    simp only [clearlyLossless, Lossless] at h ⊢
    split
    · rename_i hc
      simpa only [hc, decide_eq_true_eq] using h
    · rename_i hc
      simp only [hc, Bool.false_eq_true] at h
    · exact trivial
  | thread th =>
    simp only [clearlyLossless] at h
    refine ⟨?_, ?_, ?_⟩
    · intro g hg
      simpa only [hg, decide_eq_true_eq] using h
    · intro g hg
      simpa only [hg, decide_eq_true_eq] using h
    · intro q g hg
      simp only [hg, decide_eq_true_eq] at h
      exact ⟨h.1, Or.inr (Or.inl h.2)⟩

/-- The frame of a request comes back: it is offered, processed, passed on and taken. -/
theorem lossless_one_frame : ∃ x : Server ℕ ℕ,
    ServerProtocol.Execution sampleCv Lossless newServer x ∧
    x.handler 0 = .returned [7] [8] ∧ ¬ Wedged x 0 := by
  have hrun : ∃ x : Server ℕ ℕ,
      TransitionSystems.runEvents (fun y e => if clearlyLossless y e then
        ServerProtocol.next sampleCv y e else none) newServer
        ([ServerProtocol.Event.call 0 (.addFrames [7]), .handler 0, .handler 0] ++
          List.replicate 7 (ServerProtocol.Event.thread 0) ++
          [ServerProtocol.Event.handler 0, .handler 0]) = some x ∧
      x.handler 0 = .returned [7] [8] := ⟨_, rfl, rfl⟩
  obtain ⟨x, h, hreturned⟩ := hrun
  have hlossless : ServerProtocol.Execution sampleCv Lossless newServer x :=
    TransitionSystems.Execution.checked (fun _ _ => lossless_of_clearly) .refl h
  exact ⟨x, hlossless, hreturned, lossless_never_wedges hlossless 0⟩

/-- Another client adds an effect while the last thread works on a frame: the thread is
interrupted, and the frame is gone. -/
theorem addFrames_wedges : ∃ x : Server ℕ ℕ,
    ServerProtocol.Execution sampleCv (fun _ _ => True) newServer x ∧ Wedged x 0 := by
  have hrun : ∃ x, runEvents sampleCv (newServer : Server ℕ ℕ)
      ([ServerProtocol.Event.call 0 (.addFrames [7]), .handler 0, .handler 0] ++
        List.replicate 3 (ServerProtocol.Event.thread 0) ++
        [ServerProtocol.Event.call 1 (.addEffect .drawing)] ++
        List.replicate 26 (ServerProtocol.Event.handler 1) ++
        List.replicate 2 (ServerProtocol.Event.thread 0)) = some x ∧
      x.handler 0 = .waiting [7] 1 [] ∧ (∀ q, x.world.items q = []) ∧
      ∀ th, (x.world.pc th).inHand = [] := by
    refine ⟨_, rfl, rfl, fun q => ?_, fun th => ?_⟩
    · rcases q with _ | _ | _ | q <;> rfl
    · rcases th with _ | _ | _ | th <;> rfl
  obtain ⟨x, h, hwait, hitems, hhands⟩ := hrun
  exact ⟨x, .append .refl (by simp) h, ⟨_, _, _, hwait⟩, fun q _ => hitems q, hhands⟩

end Steps

end ServerLosses
