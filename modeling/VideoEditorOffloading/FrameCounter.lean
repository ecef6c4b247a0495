import VideoEditorOffloading.FrameTransmission

/-! # The counter of outstanding frames

`addFrame` counts every frame up, whichever way it goes. Only `handleResult` counts down. A frame
that the local pipeline finishes or drops, or whose request fails, stays counted for ever. -/
namespace FrameCounter

open PipelineObjects PipelineRuns LossyLine EffectThreads EffectThreadLine ServerProtocol
  ClientProcessor ClientOrder FrameTransmission

variable {M B : Type}

/-- A step of the client, whole calls of `addFrame` and `getFrame`, a request that overtakes the
others on the network, and changes of the two fields that choose the way of a frame. -/
inductive Event (M B : Type) where
  | client (e : ClientProcessor.Event M B)
  | addFrame (image : M) (sending : Sending)
  | getFrame
  | overtake (i : ℕ)
  | setUseCloud (useCloud : Bool)
  | setCloudClient (cloudClient : Bool)

def callGetFrame (x : Client M B) : Option (Client M B) :=
  match x.world.items x.world.state.pipe.processedFrameQueue with
  | [] => if x.useCloud then some x else none
  | _ :: _ =>
    some { x with world := x.world.removeFirst x.world.state.pipe.processedFrameQueue }

def next (cv : OpenCv M B) (x : Client M B) : Event M B → Option (Client M B)
  | .client e => ClientProcessor.next cv x e
  | .addFrame image sending => some (callAddFrame cv x image sending)
  | .getFrame => callGetFrame x
  | .overtake i => x.requests[i]?.map fun request =>
      { x with requests := request :: x.requests.eraseIdx i }
  | .setUseCloud useCloud => some { x with useCloud := useCloud }
  | .setCloudClient cloudClient => some { x with cloudClient := cloudClient }

abbrev Execution (cv : OpenCv M B) (ok : Client M B → Event M B → Prop) (x₀ x : Client M B) :
    Prop := TransitionSystems.Execution (next cv) ok x₀ x

def unfinished (cv : OpenCv M B) (w : World M) : ℕ :=
  pending (contents cv.applyTo w) (entry w) (line w)

/-- The frames of the network: in `frameBuffer`, in a request, or in an answer that
`handleResult` has not reached. -/
def remote (x : Client M B) : ℕ :=
  x.frameBuffer.length + x.requests.flatten.length + x.results.length

/-- The frames that were passed to `addFrame` and have not ended. The camera may hold one of them
inside `addFrame`. -/
def outstanding (cv : OpenCv M B) (x : Client M B) : ℕ :=
  (Camera.numbers x.camera).length + remote x + unfinished cv x.world

def Accepts (x : Client M B) : Prop :=
  (x.useCloud && x.cloudClient) = true ∨
    (x.world.items x.world.state.pipe.unprocessedFrameQueue).length <
      x.world.capacity x.world.state.pipe.unprocessedFrameQueue

def Ends (w : World M) (th : ℕ) : Prop :=
  ∃ q g, w.pc th = .offering q g ∧
    (q = w.state.pipe.processedFrameQueue ∨ w.capacity q ≤ (w.items q).length)

/-- No frame ends in this step, unless in `handleResult`. -/
def Counted (x : Client M B) : Event M B → Prop
  | .addFrame _ _ => Accepts x
  | .client (.camera _) => ∀ frame, x.camera = .adding frame → Accepts x
  | .client (.thread th) => ¬ Ends x.world th
  | .client .handleError => False
  | _ => True

/-- The loop of `waitForCompletion` while nothing else happens: whether it is left within so many
rounds. -/
def waitForCompletion (x : Client M B) : ℕ → ℤ → Bool
  | 0, v => v = 0
  | rounds + 1, v => v = 0 || waitForCompletion x rounds x.numFrames

/-- The state of the counter; `ended` frames have ended without being counted down. -/
structure Counting (cv : OpenCv M B) (x : Client M B) (ended : ℕ) : Prop where
  running : Running x.world
  filled : ∀ request ∈ x.requests, request ≠ []
  total : x.numFrames = (outstanding cv x + ended : ℕ)

section Worlds

variable {cv : OpenCv M B} {w w' : World M} {th : ℕ}

theorem line_ne_nil (hr : Running w) : line w ≠ [] := by
  intro h
  have hlen := hr.staffed.length
  rw [List.map_eq_nil_iff.mp h] at hlen
  exact hr.nonempty (List.length_eq_zero_iff.mp hlen.symm)

theorem unfinished_congr (hr : Running w) (hst : w'.state = w.state) (hpc : w'.pc = w.pc)
    (hi : ∀ q, q ≠ w.state.pipe.processedFrameQueue → w'.items q = w.items q) :
    unfinished cv w' = unfinished cv w := by
  have ht : w'.taskOf = w.taskOf := by
    funext x
    rw [World.taskOf, World.taskOf, hst]
  have hl : leaving cv.applyTo w' = leaving cv.applyTo w := by
    funext x
    rw [leaving, leaving, ht, hpc]
  unfold unfinished entry line
  rw [hst]
  refine pending_congr hr.steady.simple (fun q _ hq => ?_) fun x _ => ?_
  · rw [hr.exit] at hq
    exact hi q hq
  · exact congrFun hl x

theorem unfinished_offer_last (hr : Running w) (f : Frame M) :
    unfinished cv (w.offer w.state.pipe.processedFrameQueue f) = unfinished cv w := by
  refine unfinished_congr hr (by simp) (by simp) fun q hq => ?_
  rw [World.offer]
  split
  · exact Function.update_of_ne hq _ _
  · rfl

theorem unfinished_removeFirst (hr : Running w) :
    unfinished cv (w.removeFirst w.state.pipe.processedFrameQueue) = unfinished cv w := by
  refine unfinished_congr hr rfl rfl fun q hq => ?_
  exact Function.update_of_ne hq _ _

theorem unfinished_offer_first (hr : Running w) (f : Frame M) :
    unfinished cv (w.offer w.state.pipe.unprocessedFrameQueue f) = unfinished cv w +
      if (w.items w.state.pipe.unprocessedFrameQueue).length <
        w.capacity w.state.pipe.unprocessedFrameQueue then 1 else 0 := by
  rw [World.offer]
  split
  · exact pending_put (c := contents cv.applyTo w) hr.steady.simple (line_ne_nil hr) f
  · rfl

theorem turn_offering {q : ℕ} {g : Frame M} (h : Turn cv.applyTo w th w')
    (hpc : w.pc th = .offering q g) : w' = (w.offer q g).setPc th .offered := by
  cases h with
  | offer q' g' hpc' =>
    rw [hpc] at hpc'
    cases hpc'
    rfl
  | _ => simp_all

theorem unfinished_offering (hr : Running w) {q : ℕ} {g : Frame M}
    (hpc : w.pc th = .offering q g) (hth : th ∈ w.state.pipe.effectThreads) :
    unfinished cv ((w.offer q g).setPc th .offered) +
        (if q = w.state.pipe.processedFrameQueue ∨ w.capacity q ≤ (w.items q).length
          then 1 else 0) = unfinished cv w := by
  have hs := hr.steady
  rw [← workers_stagesOf] at hth
  obtain ⟨s, hmem, rfl⟩ := List.mem_map.mp hth
  obtain ⟨p, rest, hat⟩ := exists_at (q := entry w) hmem
  obtain ⟨-, hout⟩ := hs.wired p s rest hat
  have hwork := hs.working s.worker hth
  obtain rfl : s.output = q := by simpa [hout] using hwork.offering q g hpc
  have hh : (contents cv.applyTo w).leaving s.worker = [g] := by
    simp [contents, leaving, hpc]
  have hnone : leaving cv.applyTo ((w.offer s.output g).setPc s.worker .offered) s.worker = [] := by
    simp [leaving]
  have hst : ((w.offer s.output g).setPc s.worker .offered).state = w.state := by simp
  unfold unfinished entry line
  rw [hst]
  by_cases hroom : (w.items s.output).length < w.capacity s.output
  · have hgive := pending_give hs.simple hat hh
    have hc : contents cv.applyTo ((w.offer s.output g).setPc s.worker .offered) =
        ((contents cv.applyTo w).put s.output g).hold s.worker [] := by
      rw [contents_setPc, hnone, World.offer, if_pos hroom]
      rfl
    rw [hr.exit] at hgive
    simpa [hc, not_le.mpr hroom] using hgive
  · have hdrop := pending_drop hs.simple hat hh
    have hc : contents cv.applyTo ((w.offer s.output g).setPc s.worker .offered) =
        (contents cv.applyTo w).hold s.worker [] := by
      rw [contents_setPc, hnone, World.offer, if_neg hroom]
      rfl
    simpa [hc, not_lt.mp hroom] using hdrop

theorem unfinished_turn (hr : Running w) (h : Turn cv.applyTo w th w') :
    ¬ Ends w th ∧ unfinished cv w' = unfinished cv w ∨
      Ends w th ∧ unfinished cv w' + 1 = unfinished cv w := by
  have hs := hr.steady
  by_cases hoff : ∃ q g, w.pc th = .offering q g
  · obtain ⟨q, g, hpc⟩ := hoff
    have hth : th ∈ w.state.pipe.effectThreads := by
      by_contra hout
      rcases hr.retired th hout with h0 | h0 | ⟨-, h0⟩ <;> simp [hpc, Pc.Idle] at h0
    have hcount : unfinished cv _ + _ = unfinished cv w := unfinished_offering hr hpc hth
    rw [turn_offering h hpc]
    have hends : Ends w th ↔
        q = w.state.pipe.processedFrameQueue ∨ w.capacity q ≤ (w.items q).length := by
      simp [Ends, hpc]
    rw [hends]
    split at hcount
    · exact Or.inr ⟨‹_›, hcount⟩
    · exact Or.inl ⟨‹_›, hcount⟩
  · have hstays : ¬ Ends w th := by
      rintro ⟨q, g, hpc, -⟩
      exact hoff ⟨q, g, hpc⟩
    refine Or.inl ⟨hstays, ?_⟩
    unfold unfinished entry line
    rw [(turn_frame h).1]
    by_cases hth : th ∈ workers (line w)
    swap
    · rw [(turn_retired_contents h (hs.retired th hth)).1]
    obtain ⟨s, hmem, rfl⟩ := List.mem_map.mp hth
    obtain ⟨p, rest, hat⟩ := exists_at (q := entry w) hmem
    obtain ⟨hin, -⟩ := hs.wired p s rest hat
    have hwork := hs.working s.worker hth
    cases turn_effects h with
    | quiet hc => rw [hc]
    | took q f fs hpc hflag hq hh hc =>
      obtain rfl : p = q := by simpa [hin] using hwork.taking q hpc
      rw [hc]
      exact pending_take hs.simple hat hq hh
    | gave q g hpc => exact absurd ⟨q, g, hpc⟩ hoff
    | refused q g hpc => exact absurd ⟨q, g, hpc⟩ hoff
    | lost g hpc =>
      rcases hpc with ⟨-, hflag⟩ | ⟨-, hnone⟩
      · simp [hwork.clear] at hflag
      · exact absurd hnone hwork.output

end Worlds

section Steps

variable {cv : OpenCv M B} {x x' : Client M B} {ended : ℕ}

theorem addFrame_counts (cv : OpenCv M B) (hr : Running x.world)
    (hfilled : ∀ request ∈ x.requests, request ≠ []) (frame : Frame M) (sending : Sending) :
    ∃ y, addFrame cv x frame sending = y ∧ y.numFrames = x.numFrames ∧ Running y.world ∧
      (∀ request ∈ y.requests, request ≠ []) ∧ Camera.numbers y.camera = [] ∧
      (Accepts x ∧ remote y + unfinished cv y.world = remote x + unfinished cv x.world + 1 ∨
        ¬ Accepts x ∧ remote y + unfinished cv y.world = remote x + unfinished cv x.world) := by
  by_cases hcloud : (x.useCloud && x.cloudClient) = true
  · obtain ⟨frameBuffer, batches, camera, he, hall, hn, hbatches⟩ :=
      addFrame_cloud cv frame sending hcloud
    refine ⟨_, he, rfl, hr, ?_, hn, Or.inl ⟨Or.inl hcloud, ?_⟩⟩
    · intro request hrequest
      rcases List.mem_append.mp hrequest with h | h
      · exact hfilled request h
      · exact hbatches request h
    · have hlen := congrArg List.length hall
      simp only [List.length_append, List.length_singleton] at hlen
      simp only [remote, List.flatten_append, List.length_append]
      omega
  · have hcount : unfinished cv _ = unfinished cv x.world + _ := unfinished_offer_first hr frame
    rw [addFrame, if_neg hcloud]
    refine ⟨_, rfl, rfl, running_offer hr _ _, hfilled, rfl, ?_⟩
    simp only [remote]
    split at hcount
    case isTrue hroom => exact Or.inl ⟨Or.inr hroom, by omega⟩
    case isFalse hfull => exact Or.inr ⟨fun ha => ha.elim hcloud hfull, by omega⟩

def Counts (cv : OpenCv M B) (counted : Prop) (ended : ℕ) (x' : Client M B) : Prop :=
  counted ∧ Counting cv x' ended ∨
    ¬ counted ∧ ∃ more, 0 < more ∧ Counting cv x' (ended + more)

theorem counts_of_counting {counted : Prop} (hc : counted) (h : Counting cv x' ended) :
    Counts cv counted ended x' := Or.inl ⟨hc, h⟩

theorem counts_addFrame (hx : Counting cv x ended) (image : M) (sending : Sending) :
    Counts cv (Accepts x) ended (callAddFrame cv x image sending) := by
  obtain ⟨hr, hfilled, htotal⟩ := hx
  obtain ⟨y, hy, hnum, hr', hfilled', -, hcount⟩ := addFrame_counts cv
    (x := { x with
      originalFrame := some ⟨x.captured, image⟩
      numFrames := x.numFrames + 1
      captured := x.captured + 1 }) hr hfilled ⟨x.captured, image⟩ sending
  have he : callAddFrame cv x image sending = { y with camera := x.camera } := by
    rw [← hy]
    rfl
  rw [he]
  have htotal' : y.numFrames = (outstanding cv x + ended : ℕ) + 1 := by
    rw [← htotal]
    exact hnum
  rcases hcount with ⟨ha, hcount⟩ | ⟨ha, hcount⟩
  · refine Or.inl ⟨ha, hr', hfilled', ?_⟩
    simp only [outstanding, remote] at htotal' hcount ⊢
    omega
  · refine Or.inr ⟨ha, 1, Nat.one_pos, hr', hfilled', ?_⟩
    simp only [outstanding, remote] at htotal' hcount ⊢
    omega

theorem counts_camera (hx : Counting cv x ended) {sending : Sending}
    (h : cameraStep cv x sending = some x') :
    Counts cv (∀ frame, x.camera = .adding frame → Accepts x) ended x' := by
  obtain ⟨hr, hfilled, htotal⟩ := hx
  unfold cameraStep at h
  split at h
  case h_1 => cases h
  case h_2 frame hcamera =>
    obtain ⟨y, hy, hnum, hr', hfilled', hcam, hcount⟩ := addFrame_counts cv hr hfilled frame sending
    rw [hy, Option.some.injEq] at h
    subst h
    have hwas : (Camera.numbers x.camera).length = 1 := by rw [hcamera]; rfl
    have hnow : (Camera.numbers y.camera).length = 0 := by rw [hcam]; rfl
    rcases hcount with ⟨ha, hcount⟩ | ⟨ha, hcount⟩
    · refine Or.inl ⟨fun _ _ => ha, hr', hfilled', ?_⟩
      rw [hnum, htotal]
      simp only [outstanding]
      omega
    · refine Or.inr ⟨fun hall => ha (hall frame hcamera), 1, Nat.one_pos, hr', hfilled', ?_⟩
      rw [hnum, htotal]
      simp only [outstanding]
      omega
  case h_3 hcamera =>
    have hno : ∀ frame, x.camera = .adding frame → Accepts x := by simp [hcamera]
    split at h <;> cases h
    · refine counts_of_counting hno ⟨hr, hfilled, ?_⟩
      simpa [outstanding, remote, hcamera, Camera.numbers] using htotal
    · refine counts_of_counting hno ⟨hr, hfilled, ?_⟩
      simpa [outstanding, remote, hcamera, Camera.numbers] using htotal
  case h_4 hcamera =>
    have hno : ∀ frame, x.camera = .adding frame → Accepts x := by simp [hcamera]
    split at h <;> cases h
    refine counts_of_counting hno ⟨running_removeFirst hr _, hfilled, ?_⟩
    simpa [outstanding, hcamera, Camera.numbers, remote, unfinished_removeFirst hr] using htotal

theorem counts_thread (hx : Counting cv x ended) {th : ℕ} {w : World M}
    (ht : Turn cv.applyTo x.world th w) :
    Counts cv (¬ Ends x.world th) ended { x with world := w } := by
  obtain ⟨hr, hfilled, htotal⟩ := hx
  rcases unfinished_turn hr ht with ⟨hends, hcount⟩ | ⟨hends, hcount⟩
  · refine Or.inl ⟨hends, running_turn hr ht, hfilled, ?_⟩
    simp only [outstanding, remote] at htotal ⊢
    omega
  · refine Or.inr ⟨not_not_intro hends, 1, Nat.one_pos, running_turn hr ht, hfilled, ?_⟩
    simp only [outstanding, remote] at htotal ⊢
    omega

theorem counts_client (hx : Counting cv x ended) {e : ClientProcessor.Event M B}
    (h : ClientProcessor.next cv x e = some x') : Counts cv (Counted x (.client e)) ended x' := by
  cases e with
  | capture image =>
    obtain ⟨hr, hfilled, htotal⟩ := hx
    simp only [ClientProcessor.next] at h
    split at h <;> cases h
    rename_i hidle
    refine counts_of_counting trivial ⟨hr, hfilled, ?_⟩
    simp only [outstanding, remote, hidle, Camera.numbers, List.length_nil,
      List.length_singleton] at htotal ⊢
    omega
  | camera sending => exact counts_camera hx h
  | thread th =>
    obtain ⟨w, hw, rfl⟩ := Option.map_eq_some_iff.mp h
    exact counts_thread hx (threadStep_turn hw)
  | handleResult result =>
    obtain ⟨hr, hfilled, htotal⟩ := hx
    simp only [ClientProcessor.next] at h
    split at h
    swap
    · cases h
    rename_i request requests hresults hrequests
    split at h <;> cases h
    rename_i hlen
    refine counts_of_counting trivial ⟨hr, fun r hmem => hfilled r ?_, ?_⟩
    · rw [hrequests]
      exact List.mem_cons_of_mem _ hmem
    · simp only [outstanding, remote, hresults, hrequests, List.flatten_cons, List.length_append,
        List.length_nil, List.length_zipWith] at htotal ⊢
      omega
  | handleError =>
    obtain ⟨hr, hfilled, htotal⟩ := hx
    simp only [ClientProcessor.next] at h
    split at h <;> cases h
    rename_i request requests hresults hrequests
    have hpos : 0 < request.length :=
      List.length_pos_iff.mpr (hfilled request (hrequests ▸ List.mem_cons_self))
    refine Or.inr ⟨id, request.length, hpos, hr, fun r hmem => hfilled r ?_, ?_⟩
    · rw [hrequests]
      exact List.mem_cons_of_mem _ hmem
    · simp only [outstanding, remote, hrequests, List.flatten_cons, List.length_append]
        at htotal ⊢
      omega
  | callback =>
    obtain ⟨hr, hfilled, htotal⟩ := hx
    simp only [ClientProcessor.next, handleResultStep] at h
    split at h <;> cases h
    rename_i buf rest hresults
    refine counts_of_counting trivial ⟨running_offer hr _ _, hfilled, ?_⟩
    simp only [outstanding, remote, hresults, List.length_cons, unfinished_offer_last hr]
      at htotal ⊢
    omega

theorem counts_next (hx : Counting cv x ended) {e : Event M B} (h : next cv x e = some x') :
    Counts cv (Counted x e) ended x' := by
  cases e with
  | client e => exact counts_client hx h
  | addFrame image sending =>
    cases h
    exact counts_addFrame hx image sending
  | getFrame =>
    obtain ⟨hr, hfilled, htotal⟩ := hx
    simp only [next, callGetFrame] at h
    split at h
    · split at h <;> cases h
      exact counts_of_counting trivial ⟨hr, hfilled, htotal⟩
    · cases h
      refine counts_of_counting trivial ⟨running_removeFirst hr _, hfilled, ?_⟩
      simpa [outstanding, remote, unfinished_removeFirst hr] using htotal
  | overtake i =>
    obtain ⟨hr, hfilled, htotal⟩ := hx
    obtain ⟨request, hi, rfl⟩ := Option.map_eq_some_iff.mp h
    obtain ⟨hlt, rfl⟩ := List.getElem?_eq_some_iff.mp hi
    have hperm : (x.requests[i] :: x.requests.eraseIdx i).Perm x.requests :=
      List.getElem_cons_eraseIdx_perm hlt
    refine counts_of_counting trivial ⟨hr, fun r hmem => hfilled r (hperm.subset hmem), ?_⟩
    simp only [outstanding, remote, hperm.flatten.length_eq] at htotal ⊢
    exact htotal
  | setUseCloud useCloud | setCloudClient cloudClient =>
    cases h
    exact counts_of_counting trivial ⟨hx.running, hx.filled, hx.total⟩

end Steps

section Results

variable {cv : OpenCv M B} {w : World M} {x : Client M B} {cloudClient : Bool}

theorem waitForCompletion_eq (x : Client M B) (rounds : ℕ) :
    waitForCompletion x rounds x.numFrames = decide (x.numFrames = 0) := by
  induction rounds with
  | zero => rfl
  | succ rounds ih => simp [waitForCompletion, ih]

theorem new_counting (hr : Running w) (hitems : ∀ q, w.items q = [])
    (hhands : ∀ th, (w.pc th).inHand = []) :
    Counting cv (newClient w cloudClient : Client M B) 0 := by
  have hnone : unfinished cv w = 0 :=
    pending_eq_zero hitems fun th => leaving_eq_nil cv.applyTo (hhands th)
  refine ⟨hr, by simp [newClient], ?_⟩
  simp [newClient, outstanding, remote, Camera.numbers, hnone]

theorem counted_counting (hr : Running w) (hitems : ∀ q, w.items q = [])
    (hhands : ∀ th, (w.pc th).inHand = [])
    (h : Execution cv Counted (newClient w cloudClient) x) : Counting cv x 0 := by
  refine h.invariant (P := fun y => Counting cv y 0) (new_counting hr hitems hhands)
    fun y y' e hcounted hnext hy => ?_
  rcases counts_next hy hnext with ⟨-, hy'⟩ | ⟨hnot, -⟩
  · exact hy'
  · exact absurd hcounted hnot

/-- Frames that have ended without being counted down stay counted: where there are none, no step
has lost any. -/
theorem execution_counting (hr : Running w) (hitems : ∀ q, w.items q = [])
    (hhands : ∀ th, (w.pc th).inHand = [])
    (h : Execution cv (fun _ _ => True) (newClient w cloudClient) x) :
    ∃ ended, Counting cv x ended ∧
      (ended = 0 → Execution cv Counted (newClient w cloudClient) x) := by
  induction h with
  | refl => exact ⟨0, new_counting hr hitems hhands, fun _ => .refl⟩
  | step _ _ hnext ih =>
    obtain ⟨ended, hy, hrun⟩ := ih
    rcases counts_next hy hnext with ⟨hcounted, hy'⟩ | ⟨-, more, hmore, hy'⟩
    · exact ⟨ended, hy', fun h0 => (hrun h0).step hcounted hnext⟩
    · exact ⟨ended + more, hy', fun h0 => by omega⟩

/-- The counter is exact after exactly the runs in which no frame ends otherwise than through
`handleResult`. Only then is `waitForCompletion` left once nothing is outstanding. -/
theorem counter_exact_iff (hr : Running w) (hitems : ∀ q, w.items q = [])
    (hhands : ∀ th, (w.pc th).inHand = [])
    (h : Execution cv (fun _ _ => True) (newClient w cloudClient) x) :
    (x.numFrames = outstanding cv x ↔ Execution cv Counted (newClient w cloudClient) x) ∧
    (outstanding cv x = 0 → ((∃ rounds, waitForCompletion x rounds x.numFrames = true) ↔
      Execution cv Counted (newClient w cloudClient) x)) := by
  have hiff : x.numFrames = outstanding cv x ↔
      Execution cv Counted (newClient w cloudClient) x := by
    constructor
    · intro hexact
      obtain ⟨ended, hx, hrun⟩ := execution_counting hr hitems hhands h
      have htotal := hx.total
      exact hrun (by omega)
    · intro hcounted
      have htotal := (counted_counting hr hitems hhands hcounted).total
      omega
  refine ⟨hiff, fun hnone => ?_⟩
  rw [← hiff, hnone]
  constructor
  · rintro ⟨rounds, hleft⟩
    rw [waitForCompletion_eq] at hleft
    exact of_decide_eq_true hleft
  · intro hzero
    exact ⟨0, (waitForCompletion_eq x 0).trans (decide_eq_true hzero)⟩

theorem two_frames_counted : ∃ x : Client ℕ ℕ,
    Execution sampleCv (fun _ _ => True) (newClient sampleWorld true) x ∧ x.numFrames = 1 ∧
    ((x.numFrames = outstanding sampleCv x ↔
        Execution sampleCv Counted (newClient sampleWorld true) x) ∧
      (outstanding sampleCv x = 0 → ((∃ rounds, waitForCompletion x rounds x.numFrames = true) ↔
        Execution sampleCv Counted (newClient sampleWorld true) x))) := by
  have hrun : ∃ x : Client ℕ ℕ, TransitionSystems.runEvents (next sampleCv)
      (newClient sampleWorld true) [.addFrame 7 .sent, .addFrame 8 .sent,
        .client (.handleResult [9, 10]), .client .callback] = some x ∧
      x.numFrames = 1 := ⟨_, rfl, rfl⟩
  obtain ⟨x, h, hnum⟩ := hrun
  have hx : Execution sampleCv (fun _ _ => True) (newClient sampleWorld true) x :=
    .append .refl (by simp) h
  exact ⟨x, hx, hnum, counter_exact_iff sample_running (fun _ => rfl)
    (by intro th; simp only [sampleWorld]; split <;> rfl) hx⟩

/-- The local pipeline finishes a frame. Nothing is outstanding, but `waitForCompletion` waits. -/
theorem finished_frame_stays_counted : ∃ x : Client ℕ ℕ,
    Execution sampleCv (fun _ _ => True) (newClient sampleWorld false) x ∧
    outstanding sampleCv x = 0 ∧ x.numFrames = 1 ∧
    ¬ ∃ rounds, waitForCompletion x rounds x.numFrames = true := by
  have hrun : ∃ x : Client ℕ ℕ, TransitionSystems.runEvents (next sampleCv)
      (newClient sampleWorld false)
        (.addFrame 7 .sent :: List.replicate 7 (.client (.thread 0))) = some x ∧
      outstanding sampleCv x = 0 ∧ x.numFrames = 1 := ⟨_, rfl, rfl, rfl⟩
  obtain ⟨x, h, hnone, hnum⟩ := hrun
  refine ⟨x, .append .refl (by simp) h, hnone, hnum, ?_⟩
  rintro ⟨rounds, hleft⟩
  rw [waitForCompletion_eq, hnum] at hleft
  exact absurd hleft (by decide)

end Results

end FrameCounter
