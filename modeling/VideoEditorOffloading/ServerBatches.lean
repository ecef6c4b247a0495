import VideoEditorOffloading.ServerReconfiguration

/-! # Batches on a server that serves one call at a time

`addFrames` only counts. It returns as many frames as it submitted, so if it returns at all then
nothing was lost, and nothing is left behind for the next call. -/
namespace ServerBatches

open SharedStatePrograms PipelineObjects PipelineOperations PipelineRuns PipelineWiring
  PipelineThreadLifecycle LossyLine EffectThreads EffectThreadLine ServerProtocol
  ServerReconfiguration

variable {M B : Type}

/-- A call arrives only when no other call is being executed. -/
def Sequential (x : Server M B) : ServerProtocol.Event B → Prop
  | .call _ _ => ∀ c, (x.handler c).AtRest = true
  | _ => True

/-- A batch in progress: `submitted` were offered, `collected` were taken. -/
structure Batch (cv : OpenCv M B) (w : World M) (submitted collected : List (Frame M)) : Prop where
  ordered : (collected ++ inFlight cv.applyTo w (entry w) (line w)).Sublist
    (submitted.map (processed cv.applyTo w (line w)))
  outside : ∀ q, q ∉ queues (entry w) (line w) → w.items q = []

section Batches

variable {cv : OpenCv M B} {w w' : World M} {effects : List EffectClass} {th : ℕ}
  {submitted collected : List (Frame M)}

theorem serving_running (hs : Serving w.state effects) (hc : Coherent w) : Running w where
  nonempty := hs.nonempty
  ends := hs.wiring.ends
  wired := wiring_wellWired hs.wiring hs.nonempty
  staffed := hs.shape.toStaffed
  working := fun th hth => hc.working th ((hs.started th).mpr hth)
  retired := by
    intro th hth
    cases hst : stateOf w.state th with
    | new => exact Or.inl (hc.new th hst).1
    | started => exact absurd ((hs.started th).mp hst) hth
    | interrupted => exact hc.retired th hst

theorem quiet_inFlight (hq : Quiet w) : inFlight cv.applyTo w (entry w) (line w) = [] := by
  refine List.eq_nil_iff_forall_not_mem.mpr fun f hf => ?_
  have hl : ∀ th, leaving cv.applyTo w th = [] := fun th => leaving_eq_nil cv.applyTo (hq.hands th)
  rcases mem_flow hf with he | ⟨p, s, rest, hat, ⟨g, hg, -⟩ | ⟨g, hg, -⟩⟩
  · simp [contents, hq.items] at he
  · simp [contents, hq.items] at hg
  · simp [contents, hl] at hg

theorem coherent_items (hc : Coherent w) (hst : w'.state = w.state) (hpc : w'.pc = w.pc)
    (hflag : w'.flag = w.flag) : Coherent w' :=
  coherent_same hc hpc hflag (by rw [hst]) fun th _ => by rw [World.taskOf, World.taskOf, hst]

theorem batch_start (hq : Quiet w) : Batch cv w [] [] :=
  ⟨by rw [quiet_inFlight hq]; simp, fun q _ => hq.items q⟩

theorem batch_turn (hr : Running w) (hb : Batch cv w submitted collected)
    (h : Turn cv.applyTo w th w') : Batch cv w' submitted collected := by
  obtain ⟨hst, -⟩ := turn_frame h
  have hp : processed cv.applyTo w' (line w) = processed cv.applyTo w (line w) :=
    processed_congr (turn_taskOf h)
  refine ⟨?_, fun q hq => ?_⟩
  · rw [entry, line, hst, hp]
    rcases turn_inFlight hr.steady h with ⟨he, -⟩ | ⟨l, x, l', g, h1, h2, -⟩
    · rw [he]
      exact hb.ordered
    · have ho := hb.ordered
      rw [h1] at ho
      rw [h2]
      exact List.Sublist.trans (by simp) ho
  · rw [entry, line, hst] at hq
    rw [turn_outside hr.steady h hq, hb.outside q hq]

theorem batch_offer (hr : Running w) (hb : Batch cv w submitted collected) (f : Frame M) :
    Batch cv (w.offer (entry w) f) (submitted ++ [f]) collected := by
  have hp : processed cv.applyTo (w.offer (entry w) f) (line w) =
      processed cv.applyTo w (line w) := by
    refine processed_congr (funext fun x => ?_)
    rw [World.taskOf, World.taskOf, World.offer_state]
  have hmem : entry w ∈ queues (entry w) (line w) := List.mem_cons_self
  refine ⟨?_, fun q hq => ?_⟩
  · simp only [entry, line, World.offer_state] at hp ⊢
    rw [hp, List.map_append]
    rcases offer_inFlight cv.applyTo w hr.steady.simple f with
      ⟨hfl, -⟩ | ⟨hfl, -⟩
    · rw [hfl, ← List.append_assoc]
      exact hb.ordered.append (List.Sublist.refl _)
    · rw [hfl]
      exact hb.ordered.trans (List.sublist_append_left _ _)
  · rw [entry, line, World.offer_state] at hq
    have hne : q ≠ entry w := fun he => hq (he ▸ hmem)
    rcases offer_inFlight cv.applyTo w hr.steady.simple f with
      ⟨-, -, hi⟩ | ⟨-, -, hi⟩
    · rw [hi, Function.update_of_ne hne, hb.outside q hq]
    · rw [hi, hb.outside q hq]

theorem batch_take (hr : Running w) (hb : Batch cv w submitted collected) {f : Frame M}
    {fs : List (Frame M)} (hf : w.items w.state.pipe.processedFrameQueue = f :: fs) :
    Batch cv (w.removeFirst w.state.pipe.processedFrameQueue) submitted (collected ++ [f]) := by
  rw [← hr.exit] at hf ⊢
  have hfl := removeFirst_inFlight cv.applyTo hr.steady.simple hf
  have hmem : exit (entry w) (line w) ∈ queues (entry w) (line w) := exit_mem _ _
  refine ⟨?_, fun q hq => ?_⟩
  · have ho := hb.ordered
    rw [hfl, List.append_cons] at ho
    exact ho
  · have hne : q ≠ exit (entry w) (line w) := fun he => hq (he ▸ hmem)
    rw [World.removeFirst_items, Function.update_of_ne hne]
    exact hb.outside q hq

/-- As many taken as offered: nothing was lost, and nothing is left. -/
theorem batch_complete (hr : Running w) (hb : Batch cv w submitted collected)
    (hn : collected.length = submitted.length) :
    collected = submitted.map (processed cv.applyTo w (line w)) ∧ Quiet w := by
  have hle := hb.ordered.length_le
  rw [List.length_append, List.length_map] at hle
  have hflow : inFlight cv.applyTo w (entry w) (line w) = [] :=
    List.length_eq_zero_iff.mp (by omega)
  have heq := hb.ordered.eq_of_length (by simp [hflow, hn])
  rw [hflow, List.append_nil] at heq
  obtain ⟨hitems, hleaving⟩ := flow_eq_nil hflow
  refine ⟨heq, ⟨fun q => ?_, fun th => ?_⟩⟩
  · by_cases hq : q ∈ queues (entry w) (line w)
    · exact hitems q hq
    · exact hb.outside q hq
  · by_cases hth : th ∈ workers (line w)
    · have hnum := leaving_number cv.applyTo w th
      rw [show leaving cv.applyTo w th = [] from hleaving th hth] at hnum
      exact List.map_eq_nil_iff.mp hnum.symm
    · rcases hr.steady.retired th hth with hpc | hpc | ⟨-, hpc | ⟨q, hpc⟩ | hpc⟩ <;>
        simp [hpc, Pc.inHand]

theorem composed_applyAll (cv : OpenCv M B) (es : List Effect) (image : M) :
    composed cv.applyTo es image = cv.applyAll (es.map (·.cls)) image := by
  rw [composed, OpenCv.applyAll, List.foldl_map]
  rfl

/-- The `IdentityEffect` in front makes no difference. -/
theorem serving_processed (hs : Serving w.state effects) (f : Frame M) :
    processed cv.applyTo w (line w) f = { f with image := cv.applyAll effects f.image } := by
  rw [line, processed_stagesOf cv.applyTo hs.shape.toStaffed, composed_applyAll, hs.classes]
  rfl

end Batches

/-- How far the call that is being executed has come, and what it has left in the server. -/
inductive Phase (cv : OpenCv M B) (x : Server M B) : Prop where
  | resting (hrest : ∀ d, (x.handler d).AtRest = true) (hs : Serving x.world.state x.effects)
    (hq : Quiet x.world)
  | editing (c : ℕ) (code : Code Unit) (m : State) (hc : x.handler c = .editing code)
    (hrest : ∀ d, d ≠ c → (x.handler d).AtRest = true) (hq : Quiet x.world)
    (hrun : call code x.world.state = (.ok (), m)) (hs : Serving m x.effects)
    (hund : Undisturbing code x.world.state)
  | adding (c : ℕ) (reached rest : List B) (submitted : List (Frame M))
    (hc : x.handler c = .adding (reached ++ rest) rest reached.length)
    (hrest : ∀ d, d ≠ c → (x.handler d).AtRest = true) (hs : Serving x.world.state x.effects)
    (hb : Batch cv x.world submitted [])
    (himages : submitted.map (·.image) = reached.map fun buf => cv.imdecode buf 0)
  | waiting (c : ℕ) (frames : List B) (n : ℕ) (submitted collected : List (Frame M))
    (hc : x.handler c = .waiting frames n (collected.map fun f => cv.imencode f.image))
    (hrest : ∀ d, d ≠ c → (x.handler d).AtRest = true) (hs : Serving x.world.state x.effects)
    (hb : Batch cv x.world submitted collected)
    (himages : submitted.map (·.image) = frames.map fun buf => cv.imdecode buf 0)
    (hn : collected.length + n = frames.length)

structure Invariant (cv : OpenCv M B) (x : Server M B) : Prop where
  coherent : Coherent x.world
  phase : Phase cv x

section Steps

variable {cv : OpenCv M B} {x x' : Server M B} {c : ℕ}

theorem setHandler_self (x : Server M B) (c : ℕ) (h : Handler B) :
    (x.setHandler c h).handler c = h := Function.update_self _ _ _

theorem setHandler_of_ne (x : Server M B) (h : Handler B) {d : ℕ} (hd : d ≠ c) :
    (x.setHandler c h).handler d = x.handler d := Function.update_of_ne hd _ _

theorem setHandler_rest (h : Handler B) (hrest : ∀ d, d ≠ c → (x.handler d).AtRest = true) :
    ∀ d, d ≠ c → ((x.setHandler c h).handler d).AtRest = true := fun d hd => by
  rw [setHandler_of_ne x h hd]
  exact hrest d hd

theorem setHandler_all (h : Handler B) (hh : h.AtRest = true)
    (hrest : ∀ d, d ≠ c → (x.handler d).AtRest = true) :
    ∀ d, ((x.setHandler c h).handler d).AtRest = true := fun d => by
  rcases eq_or_ne d c with rfl | hd
  · rwa [setHandler_self]
  · exact setHandler_rest h hrest d hd

theorem Phase.resting_of_rest (h : Phase cv x) (hrest : ∀ d, (x.handler d).AtRest = true) :
    Serving x.world.state x.effects ∧ Quiet x.world := by
  cases h with
  | resting _ hs hq => exact ⟨hs, hq⟩
  | editing c code m hc => simpa [hc, Handler.AtRest] using hrest c
  | adding c reached rest submitted hc => simpa [hc, Handler.AtRest] using hrest c
  | waiting c frames n submitted collected hc => simpa [hc, Handler.AtRest] using hrest c

theorem accept_invariant (h : Invariant cv x) (hrest : ∀ d, (x.handler d).AtRest = true)
    (rpc : Rpc B) : Invariant cv (accept x c rpc) := by
  obtain ⟨hs, hq⟩ := h.phase.resting_of_rest hrest
  have hothers (handler : Handler B) := setHandler_rest (c := c) handler fun d _ => hrest d
  cases rpc with
  | addEffect cls =>
    obtain ⟨m, hrun, hserving, hund⟩ := edits_addRpc hs cls
    exact ⟨h.coherent, .editing c _ m (setHandler_self x c _) (hothers _) hq hrun hserving hund⟩
  | clearEffects =>
    obtain ⟨m, hrun, hserving, hund⟩ := edits_clearEffects hs
    exact ⟨h.coherent, .editing c _ m (setHandler_self x c _) (hothers _) hq hrun hserving hund⟩
  | addFrames frames =>
    exact ⟨h.coherent,
      .adding c [] frames [] (setHandler_self x c _) (hothers _) hs (batch_start hq) rfl⟩

theorem thread_invariant (h : Invariant cv x) {th : ℕ} {w : World M}
    (ht : Turn cv.applyTo x.world th w) : Invariant cv { x with world := w } := by
  obtain ⟨hst, -⟩ := turn_frame ht
  have hc := coherent_turn h.coherent ht
  refine ⟨hc, ?_⟩
  cases h.phase with
  | resting hrest hs hq => exact .resting hrest (hst ▸ hs) (quiet_turn hq ht)
  | editing c code m hcode hrest hq hrun hs hund =>
    exact .editing c code m hcode hrest (quiet_turn hq ht) (hst ▸ hrun) hs (hst ▸ hund)
  | adding c reached rest submitted hadd hrest hs hb himages =>
    exact .adding c reached rest submitted hadd hrest (hst ▸ hs)
      (batch_turn (serving_running hs h.coherent) hb ht) himages
  | waiting c frames n submitted collected hwait hrest hs hb himages hn =>
    exact .waiting c frames n submitted collected hwait hrest (hst ▸ hs)
      (batch_turn (serving_running hs h.coherent) hb ht) himages hn

/-- A handler that moves is the one of the call that is being executed. -/
theorem eq_of_not_rest {d : ℕ} (hrest : ∀ e, e ≠ d → (x.handler e).AtRest = true)
    (hc : (x.handler c).AtRest = false) : c = d := by
  by_contra hne
  simp [hrest c hne] at hc

theorem handlerStep_not_rest (h : handlerStep cv x c = some x') :
    (x.handler c).AtRest = false := by
  unfold handlerStep at h
  split at h <;> simp_all [Handler.AtRest]

theorem editing_invariant (hco : Coherent x.world) {code : Code Unit} {m : State}
    (hc : x.handler c = .editing code) (hrest : ∀ d, d ≠ c → (x.handler d).AtRest = true)
    (hq : Quiet x.world) (hrun : call code x.world.state = (.ok (), m)) (hs : Serving m x.effects)
    (hund : Undisturbing code x.world.state) (h : handlerStep cv x c = some x') :
    Invariant cv x' := by
  simp only [handlerStep, hc] at h
  cases code with
  | fail e => cases hrun
  | done u =>
    cases hrun
    cases h
    exact ⟨hco, .resting (setHandler_all _ rfl hrest) hs hq⟩
  | read k =>
    cases h
    exact ⟨hco, .editing c _ m (setHandler_self x c _) (setHandler_rest _ hrest) hq hrun hs
      ((guarded_read k).mp hund)⟩
  | act i k =>
    cases h
    obtain ⟨hi, hund⟩ := (guarded_act i k).mp hund
    exact ⟨coherent_exec hco hq hi, .editing c _ m (setHandler_self x c _)
      (setHandler_rest _ hrest) (quiet_exec hq i) hrun hs hund⟩

theorem adding_invariant (hco : Coherent x.world) {reached rest : List B}
    {submitted : List (Frame M)} (hc : x.handler c = .adding (reached ++ rest) rest reached.length)
    (hrest : ∀ d, d ≠ c → (x.handler d).AtRest = true) (hs : Serving x.world.state x.effects)
    (hb : Batch cv x.world submitted [])
    (himages : submitted.map (·.image) = reached.map fun buf => cv.imdecode buf 0)
    (h : handlerStep cv x c = some x') : Invariant cv x' := by
  simp only [handlerStep, hc] at h
  cases rest with
  | nil =>
    cases h
    exact ⟨hco, .waiting c reached reached.length submitted []
      (by rw [setHandler_self, List.append_nil]; rfl) (setHandler_rest _ hrest) hs hb himages
      (by simp)⟩
  | cons buf rest =>
    cases h
    have hb' := batch_offer (serving_running hs hco) hb ⟨x.offers.length, cv.imdecode buf 0⟩
    refine ⟨coherent_items hco (by simp) (by simp) (by simp), .adding c (reached ++ [buf]) rest _ ?_
      (setHandler_rest _ hrest) (by simpa [Server.setHandler] using hs) hb' (by simp [himages])⟩
    simp

theorem waiting_invariant (hco : Coherent x.world) {frames : List B} {n : ℕ}
    {submitted collected : List (Frame M)}
    (hc : x.handler c = .waiting frames n (collected.map fun f => cv.imencode f.image))
    (hrest : ∀ d, d ≠ c → (x.handler d).AtRest = true) (hs : Serving x.world.state x.effects)
    (hb : Batch cv x.world submitted collected)
    (himages : submitted.map (·.image) = frames.map fun buf => cv.imdecode buf 0)
    (hn : collected.length + n = frames.length) (h : handlerStep cv x c = some x') :
    Invariant cv x' := by
  have hlen : submitted.length = frames.length := by simpa using congrArg List.length himages
  simp only [handlerStep, hc] at h
  cases n with
  | zero =>
    cases h
    have hq := (batch_complete (serving_running hs hco) hb (by omega)).2
    exact ⟨hco, .resting (setHandler_all _ rfl hrest) hs hq⟩
  | succ n =>
    simp only at h
    split at h
    · cases h
    · rename_i f fs hitems
      cases h
      refine ⟨coherent_items hco rfl rfl rfl, .waiting c frames n submitted (collected ++ [f]) ?_
        (setHandler_rest _ hrest) hs (batch_take (serving_running hs hco) hb hitems) himages ?_⟩
      · simp
      · simp
        omega

theorem handler_invariant (hi : Invariant cv x) (h : handlerStep cv x c = some x') :
    Invariant cv x' := by
  have hmoves := handlerStep_not_rest h
  cases hi.phase with
  | resting hrest => simp [hrest c] at hmoves
  | editing d code m hc hrest hq hrun hs hund =>
    obtain rfl := eq_of_not_rest hrest hmoves
    exact editing_invariant hi.coherent hc hrest hq hrun hs hund h
  | adding d reached rest submitted hc hrest hs hb himages =>
    obtain rfl := eq_of_not_rest hrest hmoves
    exact adding_invariant hi.coherent hc hrest hs hb himages h
  | waiting d frames n submitted collected hc hrest hs hb himages hn =>
    obtain rfl := eq_of_not_rest hrest hmoves
    exact waiting_invariant hi.coherent hc hrest hs hb himages hn h

theorem next_invariant {e : ServerProtocol.Event B} (hok : Sequential x e)
    (h : ServerProtocol.next cv x e = some x') (hi : Invariant cv x) : Invariant cv x' := by
  cases e with
  | call c rpc =>
    simp only [ServerProtocol.next, hok c, if_true, Option.some.injEq] at h
    exact h ▸ accept_invariant hi hok rpc
  | handler c => exact handler_invariant hi h
  | thread th =>
    obtain ⟨w, hw, rfl⟩ := Option.map_eq_some_iff.mp h
    exact thread_invariant hi (threadStep_turn hw)

end Steps

section Start

def constructedHeap : Heap :=
  ((emptyHeap.newEffect.newTask ⟨0, .identity⟩).newQueue).newQueue

theorem constructed_arguments : Arguments constructedHeap 0 1 [0] := by
  constructor <;> simp [constructedHeap, emptyHeap]

theorem new_stateOf (th : ℕ) :
    stateOf (newWorld : World M).state th = if th = 0 then .started else .new := by
  cases th <;> rfl

theorem new_serving : Serving (newWorld : World M).state [] where
  shape := (Reachable.shape ⟨constructed_arguments, .snoc .nil trivial⟩ : Shape (step _ .start))
  wiring := (reachable_wiring ⟨constructed_arguments, .snoc .nil trivial⟩ :
    Wiring (step _ .start))
  nonempty := nofun
  running := rfl
  started := fun th => by
    rw [new_stateOf]
    change _ ↔ th ∈ [0]
    by_cases hth : th = 0 <;> simp [hth]
  unborn := fun th hth => by
    rw [new_stateOf, if_neg]
    rintro rfl
    exact Nat.not_succ_le_zero 0 hth
  classes := rfl

theorem new_pc (th : ℕ) :
    (newWorld : World M).pc th = if th = 0 then .looping else .unstarted := by
  cases th <;> rfl

theorem new_quiet : Quiet (newWorld : World M) := by
  refine ⟨fun q => ?_, fun th => ?_⟩
  · rcases q with _ | _ | q <;> rfl
  · rw [new_pc]
    split <;> rfl

theorem new_coherent : Coherent (newWorld : World M) := by
  have hflag : ∀ th, (newWorld : World M).flag th = false := fun th => by cases th <;> rfl
  refine ⟨fun th hth => ?_, fun th hth => ?_, fun th hth => ?_⟩ <;> rw [new_stateOf] at hth
  · by_cases h0 : th = 0
    · simp [h0] at hth
    · exact ⟨by simp [new_pc, h0], hflag th⟩
  · obtain rfl : th = 0 := by
      by_contra h0
      simp [h0] at hth
    have hpc : (newWorld : World M).pc 0 = .looping := new_pc 0
    refine ⟨hflag 0, ?_, ?_, ?_, ?_, fun q hq => ?_, fun q g hq => ?_⟩
    · rw [hpc]
      simp
    · rw [hpc]
      simp
    · intro hnone
      cases hnone
    · intro hnone
      cases hnone
    · rw [hpc] at hq
      cases hq
    · rw [hpc] at hq
      cases hq
  · split at hth <;> cases hth

theorem new_invariant (cv : OpenCv M B) : Invariant cv newServer :=
  ⟨new_coherent, .resting (fun _ => rfl) new_serving new_quiet⟩

end Start

section Results

variable {cv : OpenCv M B} {x x' : Server M B} {c : ℕ} {frames processedFrames : List B}

theorem sequential_invariant (h : ServerProtocol.Execution cv Sequential newServer x) :
    Invariant cv x :=
  h.invariant (new_invariant cv) fun _ _ _ hok hnext hi => next_invariant hok hnext hi

theorem handlerStep_returned (h : handlerStep cv x c = some x')
    (hr : x'.handler c = .returned frames processedFrames) :
    x.handler c = .waiting frames 0 processedFrames := by
  unfold handlerStep at h
  split at h
  case h_1 | h_2 => cases h
  case h_3 hc =>
    split at h <;> cases h
    · simp [Server.setHandler] at hr
    · simp [Server.setHandler] at hr
  case h_4 | h_5 =>
    cases h
    simp [Server.setHandler] at hr
  case h_6 hc =>
    cases h
    obtain ⟨rfl, rfl⟩ : _ ∧ _ := by simpa using hr
    exact hc
  case h_7 hc =>
    split at h <;> cases h
    simp [Server.setHandler] at hr

/-- A call returns with as many frames as it has submitted, so these are all of them. -/
theorem Invariant.result (hi : Invariant cv x) (hnext : handlerStep cv x c = some x')
    (hr : x'.handler c = .returned frames processedFrames) :
    processedFrames =
      frames.map fun buf => cv.imencode (cv.applyAll x.effects (cv.imdecode buf 0)) := by
  have hwaiting := handlerStep_returned hnext hr
  cases hi.phase with
  | resting hrest =>
    have hc := hrest c
    simp [hwaiting, Handler.AtRest] at hc
  | editing d code m hc hrest =>
    obtain rfl : c = d := eq_of_not_rest hrest (by rw [hwaiting]; rfl)
    simp [hwaiting] at hc
  | adding d reached rest submitted hc hrest =>
    obtain rfl : c = d := eq_of_not_rest hrest (by rw [hwaiting]; rfl)
    simp [hwaiting] at hc
  | waiting d frames' n submitted collected hc hrest hs hb himages hn =>
    obtain rfl : c = d := eq_of_not_rest hrest (by rw [hwaiting]; rfl)
    obtain ⟨rfl, rfl, rfl⟩ : frames = frames' ∧ 0 = n ∧
        processedFrames = collected.map fun f => cv.imencode f.image := by
      simpa [hwaiting] using hc
    have hlen : submitted.length = frames.length := by simpa using congrArg List.length himages
    obtain ⟨hcollected, -⟩ := batch_complete (serving_running hs hi.coherent) hb (by omega)
    have hproc : processed cv.applyTo x.world (line x.world) = _ := funext (serving_processed hs)
    calc collected.map (fun f => cv.imencode f.image)
        = (submitted.map (·.image)).map fun image =>
            cv.imencode (cv.applyAll x.effects image) := by
          rw [hcollected, hproc, List.map_map, List.map_map]
          rfl
      _ = frames.map fun buf => cv.imencode (cv.applyAll x.effects (cv.imdecode buf 0)) := by
          rw [himages, List.map_map]
          rfl

/-- Batches are answered with the right results: whenever `addFrames` returns, it returns the
encodings of its frames under the effects added since the last `clearEffects`, in order. -/
theorem sequential_addFrames (h : ServerProtocol.Execution cv Sequential newServer x)
    (hnext : ServerProtocol.next cv x (.handler c) = some x')
    (hr : x'.handler c = .returned frames processedFrames) :
    processedFrames =
      frames.map fun buf => cv.imencode (cv.applyAll x.effects (cv.imdecode buf 0)) :=
  (sequential_invariant h).result hnext hr

end Results

section Sample

theorem sequential_addFrames_one : ∃ x x' : Server ℕ ℕ,
    ServerProtocol.Execution sampleCv Sequential newServer x ∧
    ServerProtocol.next sampleCv x (.handler 1) = some x' ∧
    x'.handler 1 = .returned [7] [15] ∧
    [15] = [7].map fun buf =>
      sampleCv.imencode (sampleCv.applyAll x.effects (sampleCv.imdecode buf 0)) := by
  have hrun : ∃ x₁ x x', runEvents sampleCv (accept newServer 0 (.addEffect .drawing))
        (List.replicate 26 (ServerProtocol.Event.handler 0)) = some x₁ ∧
      (∀ c, (x₁.handler c).AtRest = true) ∧
      runEvents sampleCv (accept x₁ 1 (.addFrames [7]))
        ([ServerProtocol.Event.handler 1, .handler 1] ++
          List.replicate 7 (ServerProtocol.Event.thread 1) ++
          List.replicate 7 (ServerProtocol.Event.thread 2) ++
          [ServerProtocol.Event.handler 1]) = some x ∧
      ServerProtocol.next sampleCv x (.handler 1) = some x' ∧
      x'.handler 1 = .returned [7] [15] :=
    ⟨_, _, _, rfl, fun c => by cases c <;> rfl, rfl, rfl, rfl⟩
  obtain ⟨x₁, x, x', h₁, hrest, h, hnext, hr⟩ := hrun
  have hadd : ServerProtocol.Execution sampleCv Sequential newServer x₁ :=
    .append (.step .refl (e := .call 0 _) (fun _ => rfl) rfl) (by simp [Sequential]) h₁
  have hframes : ServerProtocol.Execution sampleCv Sequential newServer x :=
    .append (.step hadd (e := .call 1 _) hrest (by rw [ServerProtocol.next, if_pos (hrest 1)]))
      (by simp [Sequential]) h
  exact ⟨x, x', hframes, hnext, hr, sequential_addFrames hframes hnext hr⟩

end Sample

end ServerBatches
