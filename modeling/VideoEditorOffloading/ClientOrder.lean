import VideoEditorOffloading.ClientProcessor

/-! # The order of the displayed frames

Finished frames are displayed in the order of their capture, on both ways of processing them. The
display goes back in time only when `getFrame` has fallen back to the newest camera frame before
an older frame was finished. -/
namespace ClientOrder

open PipelineObjects PipelineRuns PipelineWiring LossyLine EffectThreads EffectThreadLine
  ServerProtocol ClientProcessor

variable {M B : Type}

/-- Frames only in the last queue: the pipeline of a client that offloads. -/
structure Drained (w : World M) : Prop where
  items : ∀ q, q ≠ w.state.pipe.processedFrameQueue → w.items q = []
  hands : ∀ th, (w.pc th).inHand = []

section Worlds

variable {applyTo : Effect → M → M} {w w' : World M} {th : ℕ}

theorem running_turn (hr : Running w) (h : Turn applyTo w th w') : Running w' := by
  obtain ⟨hst, -⟩ := turn_frame h
  exact ⟨hst ▸ hr.nonempty, hst ▸ hr.ends, hst ▸ hr.wired, hst ▸ hr.staffed,
    fun x hx => turn_working h (hr.working x (hst ▸ hx)),
    fun x hx => turn_retired h (hr.retired x (hst ▸ hx))⟩

theorem running_congr (hr : Running w) (hst : w'.state = w.state) (hpc : w'.pc = w.pc)
    (hf : w'.flag = w.flag) : Running w' := by
  have ht : w'.taskOf = w.taskOf := by
    funext x
    rw [World.taskOf, World.taskOf, hst]
  exact ⟨hst ▸ hr.nonempty, hst ▸ hr.ends, hst ▸ hr.wired, hst ▸ hr.staffed,
    fun x hx => (hr.working x (hst ▸ hx)).congr (congrFun hf x) (congrFun hpc x) (congrFun ht x),
    fun x hx => (hr.retired x (hst ▸ hx)).congr (congrFun hf x) (congrFun hpc x)⟩

theorem running_offer (hr : Running w) (q : ℕ) (f : Frame M) : Running (w.offer q f) :=
  running_congr hr (by simp) (by simp) (by simp)

theorem running_removeFirst (hr : Running w) (q : ℕ) : Running (w.removeFirst q) :=
  running_congr hr rfl rfl rfl

/-- What is ready, and then what the threads have left of the rest. -/
theorem drained_inFlight (applyTo : Effect → M → M) (hr : Running w) (hd : Drained w) :
    inFlight applyTo w (entry w) (line w) = w.items w.state.pipe.processedFrameQueue := by
  have hflow : inFlight applyTo w (entry w) (line w) = w.items (exit (entry w) (line w)) :=
    flow_drained _ hr.steady.simple (fun p _ hp => hd.items p (hr.exit ▸ hp))
      fun th _ => leaving_eq_nil applyTo (hd.hands th)
  rwa [hr.exit] at hflow

theorem drained_turn (hr : Running w) (hd : Drained w) (h : Turn applyTo w th w') :
    Drained w' := by
  obtain ⟨hst, -⟩ := turn_frame h
  have hl := leaving_eq_nil applyTo (hd.hands th)
  have hsame : contents applyTo w' = contents applyTo w := by
    by_cases hw : th ∈ workers (line w)
    swap
    · exact (turn_retired_contents h (hr.steady.retired th hw)).1
    obtain ⟨s, hmem, rfl⟩ := List.mem_map.mp hw
    obtain ⟨p, rest, hat⟩ := exists_at (q := entry w) hmem
    obtain ⟨hin, -⟩ := hr.steady.wired p s rest hat
    cases turn_effects h with
    | quiet hc => exact hc
    | took q f fs hpc _ hq =>
      obtain rfl : p = q := by simpa [hin] using (hr.steady.working _ hw).taking q hpc
      have hne := hr.steady.simple.exit_ne hat
      rw [hr.exit] at hne
      simp [hd.items p hne] at hq
    | gave q g _ _ hh => simp [hl] at hh
    | refused q g _ _ hh => simp [hl] at hh
    | lost g _ hh => simp [hl] at hh
  have hitems : w'.items = w.items := congrArg (·.items) hsame
  have hleav : leaving applyTo w' = leaving applyTo w := congrArg (·.leaving) hsame
  refine ⟨fun q hq => by rw [hitems]; exact hd.items q (hst ▸ hq), fun x => ?_⟩
  have hn := leaving_number applyTo w' x
  rw [hleav, leaving_eq_nil applyTo (hd.hands x)] at hn
  exact List.map_eq_nil_iff.mp hn.symm

theorem drained_removeFirst (hd : Drained w) :
    Drained (w.removeFirst w.state.pipe.processedFrameQueue) :=
  ⟨fun q hq => (Function.update_of_ne hq _ _).trans (hd.items q hq), hd.hands⟩

theorem drained_offer (hd : Drained w) (f : Frame M) :
    Drained (w.offer w.state.pipe.processedFrameQueue f) := by
  refine ⟨fun q hq => ?_, by simpa using hd.hands⟩
  rw [World.offer_state] at hq
  rw [World.offer]
  split
  · exact (Function.update_of_ne hq _ _).trans (hd.items q hq)
  · exact hd.items q hq

end Worlds

def taken (shown : List (Shown M)) : List ℕ :=
  shown.filterMap fun s => if s.source = .processed then some s.frame.number else none

def Camera.numbers : Camera M → List ℕ
  | .adding frame => [frame.number]
  | _ => []

/-- The numbers of the frames that were taken and of those that are still on their way, the next
one first. -/
def stream (cv : OpenCv M B) (x : Client M B) : List ℕ :=
  taken x.shown ++ ((inFlight cv.applyTo x.world (entry x.world) (line x.world)).map (·.number) ++
    (x.results.map (·.number) ++ (x.requests.flatten.map (·.number) ++
      (x.frameBuffer.map (·.number) ++ Camera.numbers x.camera))))

def OneSided (x : Client M B) : Prop :=
  if x.useCloud && x.cloudClient then Drained x.world
  else x.results = [] ∧ x.requests = [] ∧ x.frameBuffer = []

theorem OneSided.drained {x : Client M B} (h : OneSided x)
    (hne : ¬ (x.results = [] ∧ x.requests = [] ∧ x.frameBuffer = [])) :
    (x.useCloud && x.cloudClient) = true ∧ Drained x.world := by
  unfold OneSided at h
  split at h
  · exact ⟨‹_›, h⟩
  · exact absurd h hne

theorem oneSided_of_drained {x : Client M B} (hcloud : (x.useCloud && x.cloudClient) = true)
    (hd : Drained x.world) : OneSided x := by
  rwa [OneSided, if_pos hcloud]

/-- How many frames are older than what `getFrame` will return next. -/
def displayed (x : Client M B) : ℕ :=
  match x.camera with
  | .idle => x.captured
  | _ => x.captured - 1

structure Ordered (cv : OpenCv M B) (x : Client M B) : Prop where
  running : Running x.world
  increasing : (stream cv x).Pairwise (· < ·)
  bounded : ∀ n ∈ stream cv x, n < x.captured
  oneSided : OneSided x
  original : x.camera ≠ .idle → ∃ f, x.originalFrame = some f ∧ f.number + 1 = x.captured
  recent : ∀ s ∈ x.shown, s.frame.number < displayed x
  shown : x.shown.Pairwise fun s t =>
    s.source = .original ∧ t.source = .processed ∨ s.frame.number < t.frame.number

section Steps

variable {cv : OpenCv M B} {x x' : Client M B}

theorem ordered_keep (hx : Ordered cv x) (hr : Running x'.world)
    (hs : (stream cv x').Sublist (stream cv x)) (hone : OneSided x')
    (hcaptured : x'.captured = x.captured) (horiginal : x'.originalFrame = x.originalFrame)
    (hcamera : x.camera = .idle → x'.camera = .idle) (hshown : x'.shown = x.shown) :
    Ordered cv x' := by
  have hle : displayed x ≤ displayed x' := by
    unfold displayed
    rw [hcaptured]
    cases hc : x.camera with
    | idle => rw [hcamera hc]
    | _ => cases x'.camera <;> simp
  refine ⟨hr, hx.increasing.sublist hs, fun n hn => ?_, hone, fun hne => ?_, fun s hm => ?_, ?_⟩
  · rw [hcaptured]
    exact hx.bounded n (hs.subset hn)
  · rw [horiginal, hcaptured]
    exact hx.original fun hc => hne (hcamera hc)
  · rw [hshown] at hm
    exact (hx.recent s hm).trans_le hle
  · rw [hshown]
    exact hx.shown

theorem ordered_capture (hx : Ordered cv x) {image : M}
    (h : ClientProcessor.next cv x (.capture image) = some x') : Ordered cv x' := by
  simp only [ClientProcessor.next] at h
  split at h
  swap
  · cases h
  rename_i hidle
  rw [Option.some.injEq] at h
  have hs : stream cv x' = stream cv x ++ [x.captured] := by
    rw [← h]
    simp [stream, hidle, Camera.numbers]
  have hd : displayed x' = displayed x := by
    rw [← h]
    simp [displayed, hidle]
  have hcaptured : x'.captured = x.captured + 1 := by rw [← h]
  have hshown : x'.shown = x.shown := by rw [← h]
  refine ⟨h ▸ hx.running, ?_, ?_, h ▸ hx.oneSided, fun _ => ?_, ?_, hshown ▸ hx.shown⟩
  · rw [hs, List.pairwise_append]
    exact ⟨hx.increasing, by simp, fun n hn m hm => List.mem_singleton.mp hm ▸ hx.bounded n hn⟩
  · rw [hs, hcaptured]
    intro n hn
    rcases List.mem_append.mp hn with hn | hn
    · exact (hx.bounded n hn).trans (Nat.lt_succ_self _)
    · exact List.mem_singleton.mp hn ▸ Nat.lt_succ_self _
  · rw [← h]
    exact ⟨_, rfl, rfl⟩
  · rw [hshown, hd]
    exact hx.recent

theorem ordered_thread (hx : Ordered cv x) {th : ℕ} {w : World M}
    (ht : Turn cv.applyTo x.world th w) : Ordered cv { x with world := w } := by
  obtain ⟨hst, -⟩ := turn_frame ht
  refine ordered_keep hx (running_turn hx.running ht) ?_ ?_ rfl rfl id rfl
  · simp only [stream, entry, line, hst]
    refine (List.Sublist.refl _).append (List.Sublist.append (List.Sublist.map _ ?_)
      (List.Sublist.refl _))
    rcases turn_inFlight hx.running.steady ht with ⟨he, -⟩ | ⟨l, f, l', g, h1, h2, -⟩
    · rw [he]
    · rw [h1, h2]
      simp
  · have hone := hx.oneSided
    unfold OneSided at hone ⊢
    split at hone
    · rw [if_pos ‹_›]
      exact drained_turn hx.running hone ht
    · rw [if_neg ‹_›]
      exact hone

theorem numbers_zipWith {request : List (Buffer B)} {result : List B}
    (h : result.length = request.length) :
    (List.zipWith (fun buf pixels => (⟨buf.number, pixels⟩ : Buffer B)) request result).map
      (·.number) = request.map (·.number) := by
  induction request generalizing result with
  | nil => simp
  | cons buf request ih =>
    cases result with
    | nil => simp at h
    | cons pixels result => simp [ih (by simpa using h)]

theorem ordered_handleResult (hx : Ordered cv x) {result : List B}
    (h : ClientProcessor.next cv x (.handleResult result) = some x') : Ordered cv x' := by
  simp only [ClientProcessor.next] at h
  split at h
  swap
  · cases h
  rename_i request requests hresults hrequests
  split at h
  swap
  · cases h
  rename_i hlen
  rw [Option.some.injEq] at h
  have hs : stream cv x' = stream cv x := by
    rw [← h]
    simp [stream, hresults, hrequests, numbers_zipWith hlen]
  obtain ⟨hcloud, hd⟩ := hx.oneSided.drained (by simp [hrequests])
  have hone : OneSided x' := by
    rw [← h]
    exact oneSided_of_drained hcloud hd
  exact ordered_keep hx (h ▸ hx.running) (hs ▸ List.Sublist.refl _) hone (h ▸ rfl) (h ▸ rfl)
    (h ▸ id) (h ▸ rfl)

theorem ordered_handleError (hx : Ordered cv x)
    (h : ClientProcessor.next cv x .handleError = some x') : Ordered cv x' := by
  simp only [ClientProcessor.next] at h
  split at h
  swap
  · cases h
  rename_i request requests hresults hrequests
  rw [Option.some.injEq] at h
  have hs : (stream cv x').Sublist (stream cv x) := by
    rw [← h]
    simp [stream, hresults, hrequests]
  obtain ⟨hcloud, hd⟩ := hx.oneSided.drained (by simp [hrequests])
  have hone : OneSided x' := by
    rw [← h]
    exact oneSided_of_drained hcloud hd
  exact ordered_keep hx (h ▸ hx.running) hs hone (h ▸ rfl) (h ▸ rfl) (h ▸ id) (h ▸ rfl)

theorem ordered_callback (hx : Ordered cv x) (h : handleResultStep cv x = some x') :
    Ordered cv x' := by
  unfold handleResultStep at h
  split at h
  · cases h
  rename_i buf rest hresults
  rw [Option.some.injEq] at h
  obtain ⟨hcloud, hone⟩ := hx.oneSided.drained (by simp [hresults])
  have hr := running_offer hx.running x.world.state.pipe.processedFrameQueue
    ⟨buf.number, getMatFromByteBuffer cv buf.pixels⟩
  have hd := drained_offer hone ⟨buf.number, getMatFromByteBuffer cv buf.pixels⟩
  have hs : (stream cv x').Sublist (stream cv x) := by
    rw [← h]
    simp only [stream, drained_inFlight cv.applyTo hr hd,
      drained_inFlight cv.applyTo hx.running hone, World.offer_state]
    rw [World.offer]
    split <;> simp [hresults]
  refine ordered_keep hx (h ▸ hr) hs ?_ (h ▸ rfl) (h ▸ rfl) (h ▸ id) (h ▸ rfl)
  rw [← h]
  exact oneSided_of_drained hcloud hd

/-- On the way over the network the frame goes to the end of `frameBuffer`, and what leaves
`frameBuffer` goes to the end of the requests. -/
theorem addFrame_cloud (cv : OpenCv M B) (frame : Frame M) (sending : Sending)
    (hcloud : (x.useCloud && x.cloudClient) = true) :
    ∃ frameBuffer batches camera, addFrame cv x frame sending =
        { x with frameBuffer := frameBuffer, requests := x.requests ++ batches, camera := camera } ∧
      batches.flatten ++ frameBuffer =
        x.frameBuffer ++ [⟨frame.number, getByteBufferFromMat cv frame.image⟩] ∧
      Camera.numbers camera = [] ∧ ∀ batch ∈ batches, batch ≠ [] := by
  rw [addFrame, if_pos hcloud]
  by_cases hK : K < (x.frameBuffer ++
      [(⟨frame.number, getByteBufferFromMat cv frame.image⟩ : Buffer B)]).length
  · simp only [if_pos hK]
    cases sending with
    | sent => exact ⟨_, [_], _, rfl, by simp, rfl, by simp⟩
    | ioException => exact ⟨_, [], .getting, by simp, rfl, rfl, by simp⟩
    | unchecked => exact ⟨_, [], .idle, by simp, rfl, rfl, by simp⟩
  · simp only [if_neg hK]
    exact ⟨_, [], .getting, by simp, rfl, rfl, by simp⟩

theorem ordered_addFrame_cloud (hx : Ordered cv x) {frame : Frame M} {sending : Sending}
    (hcamera : x.camera = .adding frame) (hcloud : (x.useCloud && x.cloudClient) = true) :
    Ordered cv (addFrame cv x frame sending) := by
  have hone := hx.oneSided
  rw [OneSided, if_pos hcloud] at hone
  obtain ⟨frameBuffer, batches, camera, he, hall, hn, -⟩ :=
    addFrame_cloud cv frame sending hcloud
  have hnumbers := congrArg (List.map (·.number)) hall
  rw [List.map_append] at hnumbers
  have hs : stream cv (addFrame cv x frame sending) = stream cv x := by
    rw [he]
    simp only [stream, hcamera, hn, List.append_nil, List.flatten_append, List.map_append,
      List.append_assoc, hnumbers]
    simp [Camera.numbers]
  refine ordered_keep hx (by rw [he]; exact hx.running) (hs ▸ List.Sublist.refl _) ?_
    (by rw [he]) (by rw [he]) (by simp [hcamera]) (by rw [he])
  rw [he]
  exact oneSided_of_drained hcloud hone

theorem ordered_addFrame_local (hx : Ordered cv x) {frame : Frame M} {sending : Sending}
    (hcamera : x.camera = .adding frame) (hcloud : ¬ (x.useCloud && x.cloudClient) = true) :
    Ordered cv (addFrame cv x frame sending) := by
  have hone := hx.oneSided
  rw [OneSided, if_neg hcloud] at hone
  rw [addFrame, if_neg hcloud]
  refine ordered_keep hx (running_offer hx.running _ _) ?_ ?_ rfl rfl (by simp [hcamera]) rfl
  · simp only [stream, entry, line, World.offer_state]
    rcases offer_inFlight cv.applyTo x.world hx.running.steady.simple frame with
      ⟨hfl, -⟩ | ⟨hfl, -⟩
    · rw [hfl]
      simp [hone, hcamera, Camera.numbers, processed_number]
    · rw [hfl]
      simp [hone, hcamera, Camera.numbers]
  · rw [OneSided, if_neg hcloud]
    exact hone

theorem taken_append (shown : List (Shown M)) (s : Shown M) : taken (shown ++ [s]) =
    taken shown ++ if s.source = .processed then [s.frame.number] else [] := by
  by_cases h : s.source = .processed <;> simp [taken, h]

theorem ordered_shown (hx : Ordered cv x) {s : Shown M} {w : World M} (hr : Running w)
    (hone : OneSided { x with world := w }) (hcamera : x.camera = .getting ∨ x.camera = .taking)
    (hs : stream cv { x with world := w, camera := .idle, shown := x.shown ++ [s] } = stream cv x)
    (hcaptured : s.frame.number < x.captured)
    (hnew : ∀ t ∈ x.shown,
      t.source = .original ∧ s.source = .processed ∨ t.frame.number < s.frame.number) :
    Ordered cv { x with world := w, camera := .idle, shown := x.shown ++ [s] } := by
  refine ⟨hr, hs ▸ hx.increasing, hs ▸ hx.bounded, hone, fun h => absurd rfl h, ?_, ?_⟩
  · intro t ht
    rcases List.mem_append.mp ht with ht | ht
    · refine (hx.recent t ht).trans_le ?_
      rcases hcamera with hc | hc <;> simp [displayed, hc]
    · exact List.mem_singleton.mp ht ▸ hcaptured
  · rw [List.pairwise_append]
    exact ⟨hx.shown, by simp, fun t ht u hu => List.mem_singleton.mp hu ▸ hnew t ht⟩

theorem ordered_original (hx : Ordered cv x) (hcamera : x.camera = .getting) :
    Ordered cv { x with
      camera := .idle
      shown := x.shown ++ x.originalFrame.toList.map (⟨.original, ·⟩) } := by
  obtain ⟨f, hf, hnumber⟩ := hx.original (by simp [hcamera])
  have hlist : x.originalFrame.toList.map (⟨.original, ·⟩) =
      [(⟨.original, f⟩ : Shown M)] := by rw [hf]; rfl
  rw [hlist]
  refine ordered_shown hx hx.running hx.oneSided (Or.inl hcamera) ?_ ?_ fun t ht => Or.inr ?_
  · simp [stream, hcamera, taken_append, Camera.numbers]
  · simp only
    omega
  · have hlt := hx.recent t ht
    simp only [displayed, hcamera] at hlt
    simp only
    omega

theorem ordered_processed (hx : Ordered cv x) (hcamera : x.camera = .taking) {f : Frame M}
    {fs : List (Frame M)} (hf : x.world.items x.world.state.pipe.processedFrameQueue = f :: fs) :
    Ordered cv { x with
      world := x.world.removeFirst x.world.state.pipe.processedFrameQueue
      camera := .idle
      shown := x.shown ++ [⟨.processed, f⟩] } := by
  have hflow := removeFirst_inFlight cv.applyTo hx.running.steady.simple (hx.running.exit ▸ hf)
  rw [hx.running.exit] at hflow
  have hin : f.number ∈ (inFlight cv.applyTo x.world (entry x.world) (line x.world)).map
      (·.number) := by simp [hflow]
  have hstream := List.pairwise_append.mp hx.increasing
  refine ordered_shown hx (running_removeFirst hx.running _) ?_ (Or.inr hcamera) ?_ ?_ ?_
  · have hone := hx.oneSided
    unfold OneSided at hone ⊢
    split at hone
    · rw [if_pos ‹_›]
      exact drained_removeFirst hone
    · rw [if_neg ‹_›]
      exact hone
  · simp only [stream, taken_append, entry, line, World.removeFirst_state, hflow, hcamera]
    simp [Camera.numbers]
  · exact hx.bounded _ (List.mem_append_right _ (List.mem_append_left _ hin))
  · intro t ht
    cases hsource : t.source with
    | original => exact Or.inl ⟨rfl, rfl⟩
    | processed =>
      have htaken : t.frame.number ∈ taken x.shown :=
        List.mem_filterMap.mpr ⟨t, ht, by simp [hsource]⟩
      exact Or.inr (hstream.2.2 _ htaken _ (List.mem_append_left _ hin))

theorem ordered_camera (hx : Ordered cv x) {sending : Sending}
    (h : cameraStep cv x sending = some x') : Ordered cv x' := by
  unfold cameraStep at h
  split at h
  case h_1 => cases h
  case h_2 frame hcamera =>
    cases h
    by_cases hcloud : (x.useCloud && x.cloudClient) = true
    · exact ordered_addFrame_cloud hx hcamera hcloud
    · exact ordered_addFrame_local hx hcamera hcloud
  case h_3 hcamera =>
    split at h <;> cases h
    · exact ordered_original hx hcamera
    · exact ordered_keep hx hx.running (by simp [stream, hcamera, Camera.numbers]) hx.oneSided
        rfl rfl (by simp [hcamera]) rfl
  case h_4 hcamera =>
    split at h <;> cases h
    exact ordered_processed hx hcamera ‹_›

theorem ordered_next (hx : Ordered cv x) {e : ClientProcessor.Event M B}
    (h : ClientProcessor.next cv x e = some x') : Ordered cv x' := by
  cases e with
  | capture image => exact ordered_capture hx h
  | camera sending => exact ordered_camera hx h
  | thread th =>
    obtain ⟨w, hw, rfl⟩ := Option.map_eq_some_iff.mp h
    exact ordered_thread hx (threadStep_turn hw)
  | handleResult result => exact ordered_handleResult hx h
  | handleError => exact ordered_handleError hx h
  | callback => exact ordered_callback hx h

end Steps

section Results

variable {cv : OpenCv M B} {w : World M} {x : Client M B} {cloudClient : Bool}

theorem new_ordered (hr : Running w) (hitems : ∀ q, w.items q = [])
    (hhands : ∀ th, (w.pc th).inHand = []) (cloudClient : Bool) :
    Ordered cv (newClient w cloudClient : Client M B) := by
  have hd : Drained w := ⟨fun q _ => hitems q, hhands⟩
  have hs : stream cv (newClient w cloudClient : Client M B) = [] := by
    have hflow := drained_inFlight cv.applyTo hr hd
    rw [hitems] at hflow
    simp [stream, newClient, taken, Camera.numbers, hflow]
  refine ⟨hr, by simp [hs], by simp [hs], ?_, fun h => absurd rfl h, nofun, List.Pairwise.nil⟩
  unfold OneSided
  split
  · exact hd
  · exact ⟨rfl, rfl, rfl⟩

/-- Of two frames that `getFrame` has returned, the later one was captured later, unless the
first one was the raw camera frame and the second one a finished frame. -/
theorem displayed_order (hr : Running w) (hitems : ∀ q, w.items q = [])
    (hhands : ∀ th, (w.pc th).inHand = [])
    (h : ClientProcessor.Execution cv (newClient w cloudClient) x) :
    x.shown.Pairwise fun s t =>
      s.source = .original ∧ t.source = .processed ∨ s.frame.number < t.frame.number := by
  have hx : Ordered cv x := h.invariant (new_ordered hr hitems hhands cloudClient)
    fun _ _ _ _ hnext hx => ordered_next hx hnext
  exact hx.shown

end Results

section Samples

/-- Two camera frames are displayed as they are, then the first one, which has been finished in
the meantime. No cloud client is set. -/
theorem display_goes_back : ∃ x : Client ℕ ℕ,
    ClientProcessor.Execution sampleCv (newClient sampleWorld false) x ∧
    x.shown.map (fun s => s.frame.number) = [0, 1, 0] ∧
    ¬ x.shown.Pairwise fun s t => s.frame.number ≤ t.frame.number := by
  have hrun : ∃ x : Client ℕ ℕ, TransitionSystems.runEvents (ClientProcessor.next sampleCv)
      (newClient sampleWorld false)
      ([ClientProcessor.Event.capture 10, .camera .sent, .camera .sent, .capture 11,
        .camera .sent, .camera .sent] ++ List.replicate 7 (ClientProcessor.Event.thread 0) ++
        [ClientProcessor.Event.capture 12, .camera .sent, .camera .sent, .camera .sent]) =
          some x ∧
      x.shown = [⟨.original, 0, 10⟩, ⟨.original, 1, 11⟩, ⟨.processed, 0, 20⟩] := ⟨_, rfl, rfl⟩
  obtain ⟨x, h, hshown⟩ := hrun
  exact ⟨x, .append .refl (by simp) h, by simp [hshown], by simp [hshown]⟩

/-- The same over the network: two frames are sent, answered and then displayed. -/
theorem displayed_order_cloud : ∃ x : Client ℕ ℕ,
    ClientProcessor.Execution sampleCv (newClient sampleWorld true) x ∧
    x.shown.map (fun s => s.frame.number) = [0, 1, 0, 1] ∧
    x.shown.Pairwise fun s t =>
      s.source = .original ∧ t.source = .processed ∨ s.frame.number < t.frame.number := by
  have hrun : ∃ x : Client ℕ ℕ, TransitionSystems.runEvents (ClientProcessor.next sampleCv)
      (newClient sampleWorld true) ([.capture 10, .camera .sent, .camera .sent, .capture 11,
        .camera .sent, .camera .sent, .handleResult [11, 12], .callback, .callback,
        .capture 12, .camera .sent, .camera .sent, .camera .sent,
        .capture 13, .camera .sent, .camera .sent, .camera .sent]) = some x ∧
      x.shown.map (fun s => s.frame.number) = [0, 1, 0, 1] := ⟨_, rfl, rfl⟩
  obtain ⟨x, h, hshown⟩ := hrun
  have hx : ClientProcessor.Execution sampleCv (newClient sampleWorld true) x :=
    .append .refl (by simp) h
  exact ⟨x, hx, hshown, displayed_order sample_running (fun _ => rfl)
    (by intro th; simp only [sampleWorld]; split <;> rfl) hx⟩

end Samples

end ClientOrder
