import VideoEditorOffloading.ServerBatches

/-! # Several clients of one server

All handlers share the two end queues. Together they get the processed frames that they offered,
in that order; which handler gets which frame is decided by who asks next. -/
namespace ServerClients

open SharedStatePrograms PipelineObjects PipelineOperations PipelineRuns EffectThreads
  EffectThreadLine ServerProtocol ServerReconfiguration ServerBatches

variable {M B : Type}

def framesOf (c : ℕ) (history : List (ℕ × Frame M)) : List (Frame M) :=
  history.filterMap fun p => if p.1 = c then some p.2 else none

@[simp] theorem framesOf_nil (c : ℕ) : framesOf c ([] : List (ℕ × Frame M)) = [] := rfl

@[simp] theorem framesOf_append (c d : ℕ) (history : List (ℕ × Frame M)) (f : Frame M) :
    framesOf c (history ++ [(d, f)]) = framesOf c history ++ if d = c then [f] else [] := by
  by_cases h : d = c <;> simp [framesOf, h]

theorem framesOf_length (c : ℕ) (history : List (ℕ × Frame M)) :
    (framesOf c history).length = (history.map (·.1)).count c := by
  induction history using List.reverseRecOn with
  | nil => rfl
  | append_singleton history p ih =>
    rw [framesOf_append, List.length_append, ih, List.map_append, List.count_append]
    by_cases h : p.1 = c <;> simp [h]

theorem framesOf_map {offers takes : List (ℕ × Frame M)} {fn : Frame M → Frame M}
    (hc : takes.map (·.1) = offers.map (·.1))
    (hf : takes.map (·.2) = (offers.map (·.2)).map fn) (c : ℕ) :
    framesOf c takes = (framesOf c offers).map fn := by
  have htakes : takes = offers.map fun p => (p.1, fn p.2) := by
    rw [List.zip_of_prod hc hf, List.map_map, List.zip_map']
    rfl
  rw [htakes, framesOf, framesOf, List.filterMap_map, List.map_filterMap]
  refine List.filterMap_congr fun p _ => ?_
  by_cases h : p.1 = c <;> simp [h]

def connected (x : Server M B) : Server M B :=
  { x with handler := fun _ => .idle, offers := [], takes := [] }

def OneRequest (x : Server M B) : ServerProtocol.Event B → Prop
  | .call c rpc => x.handler c = .idle ∧ ∃ frames, rpc = .addFrames frames
  | _ => True

/-- What a handler has offered and taken, as far as it has come. -/
def Account (cv : OpenCv M B) (offered taken : List (Frame M)) : Handler B → Prop
  | .idle => offered = [] ∧ taken = []
  | .editing _ => False
  | .adding frames rest n => taken = [] ∧ ∃ reached, frames = reached ++ rest ∧
    n = reached.length ∧ offered.map (·.image) = reached.map fun buf => cv.imdecode buf 0
  | .waiting frames n processedFrames => taken.length + n = frames.length ∧
    offered.map (·.image) = (frames.map fun buf => cv.imdecode buf 0) ∧
    processedFrames = taken.map fun f => cv.imencode f.image
  | .returned frames processedFrames => taken.length = frames.length ∧
    offered.map (·.image) = (frames.map fun buf => cv.imdecode buf 0) ∧
    processedFrames = taken.map fun f => cv.imencode f.image

structure Shared (cv : OpenCv M B) (x : Server M B) : Prop where
  coherent : Coherent x.world
  serving : Serving x.world.state x.effects
  batch : Batch cv x.world (x.offers.map (·.2)) (x.takes.map (·.2))
  accounts : ∀ c, Account cv (framesOf c x.offers) (framesOf c x.takes) (x.handler c)

section Steps

variable {cv : OpenCv M B} {x x' : Server M B} {c : ℕ}

theorem accounts_setHandler {h : Handler B} {offers takes : List (ℕ × Frame M)}
    (ha : ∀ d, Account cv (framesOf d x.offers) (framesOf d x.takes) (x.handler d))
    (ho : ∀ d, d ≠ c → framesOf d offers = framesOf d x.offers)
    (ht : ∀ d, d ≠ c → framesOf d takes = framesOf d x.takes)
    (hc : Account cv (framesOf c offers) (framesOf c takes) h) (d : ℕ) :
    Account cv (framesOf d offers) (framesOf d takes) ((x.setHandler c h).handler d) := by
  rcases eq_or_ne d c with rfl | hd
  · rwa [setHandler_self]
  · rw [ho d hd, ht d hd, setHandler_of_ne x h hd]
    exact ha d

theorem shared_offer (hs : Shared cv x) {frames rest : List B} {buf : B} {n : ℕ}
    (hc : x.handler c = .adding frames (buf :: rest) n) (h : handlerStep cv x c = some x') :
    Shared cv x' := by
  have hacc := hs.accounts c
  rw [hc] at hacc
  obtain ⟨ht, reached, rfl, rfl, himages⟩ := hacc
  simp only [handlerStep, hc, Option.some.injEq] at h
  subst h
  have hb := batch_offer (serving_running hs.serving hs.coherent) hs.batch
    ⟨x.offers.length, cv.imdecode buf 0⟩
  refine ⟨coherent_items hs.coherent (by simp) (by simp) (by simp),
    by simpa [Server.setHandler] using hs.serving, by simpa [Server.setHandler] using hb,
    accounts_setHandler hs.accounts (fun d hd => by simp [hd.symm]) (fun _ _ => rfl) ?_⟩
  exact ⟨ht, reached ++ [buf], by simp, by simp, by simp [himages]⟩

theorem shared_take (hs : Shared cv x) {frames processedFrames : List B} {n : ℕ}
    (hc : x.handler c = .waiting frames (n + 1) processedFrames)
    (h : handlerStep cv x c = some x') : Shared cv x' := by
  have hacc := hs.accounts c
  rw [hc] at hacc
  obtain ⟨hn, himages, rfl⟩ := hacc
  simp only [handlerStep, hc] at h
  split at h
  · cases h
  · rename_i f fs hitems
    cases h
    have hb := batch_take (serving_running hs.serving hs.coherent) hs.batch hitems
    refine ⟨coherent_items hs.coherent rfl rfl rfl, hs.serving,
      by simpa [Server.setHandler] using hb,
      accounts_setHandler hs.accounts (fun _ _ => rfl) (fun d hd => by simp [hd.symm]) ?_⟩
    refine ⟨?_, himages, by simp⟩
    simp
    omega

theorem shared_handler (hs : Shared cv x) (h : handlerStep cv x c = some x') : Shared cv x' := by
  have hacc := hs.accounts c
  cases hc : x.handler c with
  | idle | returned => simp [handlerStep, hc] at h
  | editing code => simp [hc, Account] at hacc
  | adding frames rest n =>
    cases rest with
    | nil =>
      rw [hc] at hacc
      obtain ⟨ht, reached, rfl, rfl, himages⟩ := hacc
      simp only [handlerStep, hc, Option.some.injEq] at h
      subst h
      exact ⟨hs.coherent, hs.serving, hs.batch, accounts_setHandler hs.accounts (fun _ _ => rfl)
        (fun _ _ => rfl) ⟨by simp [ht], by simpa using himages, by simp [ht]⟩⟩
    | cons buf rest => exact shared_offer hs hc h
  | waiting frames n processedFrames =>
    cases n with
    | zero =>
      rw [hc] at hacc
      simp only [handlerStep, hc, Option.some.injEq] at h
      subst h
      exact ⟨hs.coherent, hs.serving, hs.batch, accounts_setHandler hs.accounts (fun _ _ => rfl)
        (fun _ _ => rfl) hacc⟩
    | succ n => exact shared_take hs hc h

theorem shared_next {e : ServerProtocol.Event B} (hok : OneRequest x e)
    (h : ServerProtocol.next cv x e = some x') (hs : Shared cv x) : Shared cv x' := by
  cases e with
  | call c rpc =>
    obtain ⟨hidle, frames, rfl⟩ := hok
    have hacc := hs.accounts c
    rw [hidle] at hacc
    simp only [ServerProtocol.next, hidle, Handler.AtRest, if_true, Option.some.injEq] at h
    subst h
    exact ⟨hs.coherent, hs.serving, hs.batch, accounts_setHandler hs.accounts (fun _ _ => rfl)
      (fun _ _ => rfl) ⟨hacc.2, [], rfl, rfl, congrArg (List.map _) hacc.1⟩⟩
  | handler c => exact shared_handler hs h
  | thread th =>
    obtain ⟨w, hw, rfl⟩ := Option.map_eq_some_iff.mp h
    have ht := threadStep_turn hw
    exact ⟨coherent_turn hs.coherent ht, (turn_frame ht).1 ▸ hs.serving,
      batch_turn (serving_running hs.serving hs.coherent) hs.batch ht, hs.accounts⟩

theorem handlerStep_effects (h : handlerStep cv x c = some x') : x'.effects = x.effects := by
  unfold handlerStep at h
  split at h
  case h_1 | h_2 => cases h
  case h_3 | h_7 => split at h <;> cases h <;> rfl
  case h_4 | h_5 | h_6 => cases h; rfl

theorem next_effects {e : ServerProtocol.Event B} (hok : OneRequest x e)
    (h : ServerProtocol.next cv x e = some x') : x'.effects = x.effects := by
  cases e with
  | call c rpc =>
    obtain ⟨hidle, frames, rfl⟩ := hok
    simp only [ServerProtocol.next, hidle, Handler.AtRest, if_true, Option.some.injEq] at h
    rw [← h]
    rfl
  | handler c => exact handlerStep_effects h
  | thread th =>
    obtain ⟨w, -, rfl⟩ := Option.map_eq_some_iff.mp h
    rfl

end Steps

section Results

variable {cv : OpenCv M B} {x₀ x : Server M B} {c d : ℕ} {frames processedFrames : List B}

theorem shared_connected (hi : Invariant cv x₀) (hrest : ∀ e, (x₀.handler e).AtRest = true) :
    Shared cv (connected x₀) := by
  obtain ⟨hs, hq⟩ := hi.phase.resting_of_rest hrest
  exact ⟨hi.coherent, hs, batch_start hq, fun _ => ⟨rfl, rfl⟩⟩

theorem account_length {offered taken : List (Frame M)} {h : Handler B}
    (ha : Account cv offered taken h) (hh : h.AtRest = true) : taken.length = offered.length := by
  cases h with
  | idle => rw [ha.1, ha.2]
  | editing | adding | waiting => cases hh
  | returned frames processedFrames =>
    obtain ⟨hn, himages, -⟩ := ha
    rw [hn]
    simpa using (congrArg List.length himages).symm

/-- When nobody waits any more, all frames that were offered have been taken, in that order. -/
theorem shared_complete (hs : Shared cv x) (hrest : ∀ e, (x.handler e).AtRest = true) :
    x.takes.map (·.2) = (x.offers.map (·.2)).map fun f =>
      { f with image := cv.applyAll x.effects f.image } := by
  have hperm : (x.takes.map (·.1)).Perm (x.offers.map (·.1)) := by
    refine List.perm_iff_count.mpr fun e => ?_
    rw [← framesOf_length, ← framesOf_length]
    exact account_length (hs.accounts e) (hrest e)
  have hr := serving_running hs.serving hs.coherent
  obtain ⟨hall, -⟩ := batch_complete hr hs.batch (by simpa using hperm.length_eq)
  have hproc : processed cv.applyTo x.world (line x.world) = _ :=
    funext (serving_processed hs.serving)
  rwa [hproc] at hall

structure Answered (cv : OpenCv M B) (x : Server M B) (c : ℕ)
    (frames processedFrames : List B) : Prop where
  offered : (framesOf c x.offers).map (·.image) = frames.map fun buf => cv.imdecode buf 0
  taken : processedFrames = (framesOf c x.takes).map fun f => cv.imencode f.image
  length : processedFrames.length = frames.length

theorem shared_answered (hs : Shared cv x) (hc : x.handler c = .returned frames processedFrames) :
    Answered cv x c frames processedFrames := by
  have ha := hs.accounts c
  rw [hc] at ha
  obtain ⟨hn, himages, rfl⟩ := ha
  exact ⟨himages, rfl, by simpa using hn⟩

/-- Who has taken at the same places at which he has offered has got his own frames. -/
theorem answered_own (ha : Answered cv x c frames processedFrames) {effects : List EffectClass}
    (hall : x.takes.map (·.2) = (x.offers.map (·.2)).map fun f =>
      { f with image := cv.applyAll effects f.image })
    (horder : x.takes.map (·.1) = x.offers.map (·.1)) :
    processedFrames =
      frames.map fun buf => cv.imencode (cv.applyAll effects (cv.imdecode buf 0)) :=
  calc processedFrames
      = (framesOf c x.takes).map fun f => cv.imencode f.image := ha.taken
    _ = ((framesOf c x.offers).map (·.image)).map fun image =>
          cv.imencode (cv.applyAll effects image) := by
        rw [framesOf_map horder hall, List.map_map, List.map_map]
        rfl
    _ = frames.map fun buf => cv.imencode (cv.applyAll effects (cv.imdecode buf 0)) := by
        rw [ha.offered, List.map_map]
        rfl

theorem shared_execution (hi : Invariant cv x₀) (hrest : ∀ e, (x₀.handler e).AtRest = true)
    (h : ServerProtocol.Execution cv OneRequest (connected x₀) x) :
    Shared cv x ∧ x.effects = x₀.effects := by
  refine h.invariant (P := fun y => Shared cv y ∧ y.effects = x₀.effects)
    ⟨shared_connected hi hrest, rfl⟩ fun y y' e hok hnext hy => ?_
  exact ⟨shared_next hok hnext hy.1, (next_effects hok hnext).trans hy.2⟩

/-- Two clients whose calls return: together they have got the processed frames of both, each
once and in the order in which they were offered, and each one has got as many as it sent. Each
one has got its own frames if the handlers took in the order in which they had offered. -/
theorem two_clients (h₀ : ServerProtocol.Execution cv Sequential newServer x₀)
    (hrest : ∀ e, (x₀.handler e).AtRest = true)
    (h : ServerProtocol.Execution cv OneRequest (connected x₀) x)
    {frames₁ frames₂ processedFrames₁ processedFrames₂ : List B}
    (hc : x.handler c = .returned frames₁ processedFrames₁)
    (hd : x.handler d = .returned frames₂ processedFrames₂)
    (hothers : ∀ e, e ≠ c → e ≠ d → x.handler e = .idle) :
    Answered cv x c frames₁ processedFrames₁ ∧ Answered cv x d frames₂ processedFrames₂ ∧
    (x.takes.map (·.2) = (x.offers.map (·.2)).map fun f =>
      { f with image := cv.applyAll x₀.effects f.image }) ∧
    (x.takes.map (·.1) = x.offers.map (·.1) →
      processedFrames₁ = (frames₁.map fun buf =>
        cv.imencode (cv.applyAll x₀.effects (cv.imdecode buf 0))) ∧
      processedFrames₂ = frames₂.map fun buf =>
        cv.imencode (cv.applyAll x₀.effects (cv.imdecode buf 0))) := by
  obtain ⟨hs, heffects⟩ := shared_execution (sequential_invariant h₀) hrest h
  have hall := shared_complete hs fun e => by
    by_cases hec : e = c
    · rw [hec, hc]
      rfl
    · by_cases hed : e = d
      · rw [hed, hd]
        rfl
      · rw [hothers e hec hed]
        rfl
  rw [heffects] at hall
  have h₁ := shared_answered hs hc
  have h₂ := shared_answered hs hd
  exact ⟨h₁, h₂, hall, fun horder => ⟨answered_own h₁ hall horder, answered_own h₂ hall horder⟩⟩

end Results

section Samples

/-- Two clients with one frame each, and who takes first. -/
def twoRequests : Server ℕ ℕ :=
  accept (accept (connected newServer) 0 (.addFrames [7])) 1 (.addFrames [9])

def turns (first second : ℕ) : List (ServerProtocol.Event ℕ) :=
  [ServerProtocol.Event.handler 0, .handler 1, .handler 0, .handler 1] ++
    List.replicate 7 (ServerProtocol.Event.thread 0) ++
    [ServerProtocol.Event.handler first] ++ List.replicate 8 (ServerProtocol.Event.thread 0) ++
    [ServerProtocol.Event.handler second, .handler 0, .handler 1]

theorem twoRequests_execution {first second : ℕ} {x : Server ℕ ℕ}
    (h : runEvents sampleCv twoRequests (turns first second) = some x) :
    ServerProtocol.Execution sampleCv OneRequest (connected newServer) x := by
  refine .append (.step (.step .refl (e := .call 0 _) ⟨rfl, _, rfl⟩ rfl) (e := .call 1 _)
    ⟨rfl, _, rfl⟩ rfl) ?_ h
  simp [turns, OneRequest]

/-- The clients get each other's frames. -/
theorem clients_swapped : ∃ x : Server ℕ ℕ,
    ServerProtocol.Execution sampleCv OneRequest (connected newServer) x ∧
    x.handler 0 = .returned [7] [10] ∧ x.handler 1 = .returned [9] [8] ∧
    [10] ≠ [7].map fun buf =>
      sampleCv.imencode (sampleCv.applyAll (newServer : Server ℕ ℕ).effects (sampleCv.imdecode buf 0)) := by
  have hrun : ∃ x, runEvents sampleCv twoRequests (turns 1 0) = some x ∧
      x.handler 0 = .returned [7] [10] ∧ x.handler 1 = .returned [9] [8] := ⟨_, rfl, rfl, rfl⟩
  obtain ⟨x, h, hc, hd⟩ := hrun
  exact ⟨x, twoRequests_execution h, hc, hd, by decide⟩

theorem two_clients_in_order : ∃ x : Server ℕ ℕ,
    ServerProtocol.Execution sampleCv OneRequest (connected newServer) x ∧
    x.handler 0 = .returned [7] [8] ∧ x.handler 1 = .returned [9] [10] ∧
    Answered sampleCv x 0 [7] [8] ∧ Answered sampleCv x 1 [9] [10] ∧
    [8] = [7].map fun buf =>
      sampleCv.imencode (sampleCv.applyAll (newServer : Server ℕ ℕ).effects (sampleCv.imdecode buf 0)) := by
  have hrun : ∃ x, runEvents sampleCv twoRequests (turns 0 1) = some x ∧
      x.handler 0 = .returned [7] [8] ∧ x.handler 1 = .returned [9] [10] ∧
      (∀ e, e ≠ 0 → e ≠ 1 → x.handler e = .idle) ∧
      x.takes.map (·.1) = x.offers.map (·.1) := by
    refine ⟨_, rfl, rfl, rfl, fun e h0 h1 => ?_, rfl⟩
    rcases e with _ | _ | e
    · exact absurd rfl h0
    · exact absurd rfl h1
    · rfl
  obtain ⟨x, h, hc, hd, hothers, horder⟩ := hrun
  have hexec := twoRequests_execution h
  obtain ⟨h₁, h₂, -, hown⟩ := two_clients .refl (fun _ => rfl) hexec hc hd hothers
  exact ⟨x, hexec, hc, hd, h₁, h₂, (hown horder).1⟩

end Samples

end ServerClients
