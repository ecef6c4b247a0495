import VideoEditorOffloading.ClientOrder

/-! # The frames that a client sends

`addFrame` collects encoded frames in `frameBuffer` and sends them as one request when there are
more than `K`. A call over the network may throw, and then keeps what it was given. -/
namespace FrameTransmission

open EffectThreads ServerProtocol ClientProcessor ClientOrder

/-- A client with two histories: the requests that were sent, and the frames that were passed to
`addFrame`. -/
structure Transmission (M B : Type) where
  client : Client M B
  sent : List (List (Buffer B))
  passed : List M

variable {M B : Type}

inductive Event (M B : Type) where
  | addFrame (image : M) (sending : Sending)
  | client (e : ClientProcessor.Event M B)

def callAddFrame (cv : OpenCv M B) (x : Client M B) (image : M) (sending : Sending) :
    Client M B :=
  let frame : Frame M := ⟨x.captured, image⟩
  let x' : Client M B := { x with
    originalFrame := some frame
    numFrames := x.numFrames + 1
    captured := x.captured + 1 }
  { addFrame cv x' frame sending with camera := x.camera }

def Event.frames (x : Client M B) : Event M B → List M
  | .addFrame image _ => [image]
  | .client (.camera _) =>
    match x.camera with
    | .adding frame => [frame.image]
    | _ => []
  | .client _ => []

def record (x : Transmission M B) (e : Event M B) (client : Client M B) : Transmission M B where
  client := client
  sent := x.sent ++ client.requests.drop x.client.requests.length
  passed := x.passed ++ e.frames x.client

def next (cv : OpenCv M B) (x : Transmission M B) (e : Event M B) : Option (Transmission M B) :=
  match e with
  | .addFrame image sending => some (record x e (callAddFrame cv x.client image sending))
  | .client e' => (ClientProcessor.next cv x.client e').map (record x e)

abbrev Execution (cv : OpenCv M B) (x₀ x : Transmission M B) : Prop :=
  TransitionSystems.Execution (next cv) (fun _ _ => True) x₀ x

/-- What was sent, and then what waits in `frameBuffer`, are the encoded frames in order. -/
structure Complete (cv : OpenCv M B) (x : Transmission M B) : Prop where
  cloud : (x.client.useCloud && x.client.cloudClient) = true
  frames : (x.sent.flatten ++ x.client.frameBuffer).map (·.pixels) =
    x.passed.map (getByteBufferFromMat cv)

section Steps

variable {cv : OpenCv M B} {x x' : Transmission M B}

theorem complete_keep (hx : Complete cv x) {e : Event M B} {client : Client M B}
    (hcloud : client.useCloud = x.client.useCloud)
    (hclient : client.cloudClient = x.client.cloudClient)
    (hbuffer : client.frameBuffer = x.client.frameBuffer)
    (hrequests : client.requests.length ≤ x.client.requests.length)
    (hframes : e.frames x.client = []) : Complete cv (record x e client) := by
  have hdrop : client.requests.drop x.client.requests.length = [] :=
    List.drop_eq_nil_of_le hrequests
  constructor
  · simp only [record, hcloud, hclient]
    exact hx.cloud
  · simp only [record, hdrop, hframes, hbuffer, List.append_nil]
    exact hx.frames

theorem complete_addFrame (hx : Complete cv x) {e : Event M B} {client client' : Client M B}
    {frame : Frame M} {sending : Sending} (hcloud : client.useCloud = x.client.useCloud)
    (hclient : client.cloudClient = x.client.cloudClient)
    (hbuffer : client.frameBuffer = x.client.frameBuffer)
    (hrequests : client.requests = x.client.requests)
    (hcall : client' = { addFrame cv client frame sending with camera := client'.camera })
    (hframes : e.frames x.client = [frame.image]) : Complete cv (record x e client') := by
  have hc : (client.useCloud && client.cloudClient) = true := by
    rw [hcloud, hclient]
    exact hx.cloud
  obtain ⟨frameBuffer, batches, camera, he, hall, -⟩ :=
    addFrame_cloud cv frame sending hc
  rw [hcall, he]
  constructor
  · exact hc
  · have hpixels := congrArg (List.map (·.pixels)) hall
    simp only [List.map_append, List.map_cons, List.map_nil] at hpixels
    simp only [record, hframes, hrequests, List.drop_left, List.flatten_append,
      List.append_assoc, List.map_append, List.map_cons, List.map_nil]
    rw [hpixels, hbuffer, ← hx.frames]
    simp

theorem complete_client (hx : Complete cv x) {e : ClientProcessor.Event M B}
    {client : Client M B} (h : ClientProcessor.next cv x.client e = some client) :
    Complete cv (record x (.client e) client) := by
  cases e with
  | capture image =>
    simp only [ClientProcessor.next] at h
    split at h <;> cases h
    exact complete_keep hx rfl rfl rfl le_rfl rfl
  | camera sending =>
    simp only [ClientProcessor.next, cameraStep] at h
    split at h
    case h_1 => cases h
    case h_2 frame hcamera =>
      cases h
      exact complete_addFrame hx rfl rfl rfl rfl rfl (by simp [Event.frames, hcamera])
    case h_3 hcamera =>
      split at h <;> cases h <;>
        exact complete_keep hx rfl rfl rfl le_rfl (by simp [Event.frames, hcamera])
    case h_4 hcamera =>
      split at h <;> cases h
      exact complete_keep hx rfl rfl rfl le_rfl (by simp [Event.frames, hcamera])
  | thread th =>
    obtain ⟨w, -, rfl⟩ := Option.map_eq_some_iff.mp h
    exact complete_keep hx rfl rfl rfl le_rfl rfl
  | handleResult result =>
    simp only [ClientProcessor.next] at h
    split at h
    swap
    · cases h
    rename_i hrequests
    split at h <;> cases h
    exact complete_keep hx rfl rfl rfl (by simp [hrequests]) rfl
  | handleError =>
    simp only [ClientProcessor.next] at h
    split at h <;> cases h
    rename_i hrequests
    exact complete_keep hx rfl rfl rfl (by simp [hrequests]) rfl
  | callback =>
    simp only [ClientProcessor.next, handleResultStep] at h
    split at h <;> cases h
    exact complete_keep hx rfl rfl rfl le_rfl rfl

theorem complete_next (hx : Complete cv x) {e : Event M B} (h : next cv x e = some x') :
    Complete cv x' := by
  cases e with
  | addFrame image sending =>
    cases h
    have hframes : Event.frames x.client (.addFrame image sending) =
        [(⟨x.client.captured, image⟩ : Frame M).image] := rfl
    refine complete_addFrame hx ?_ ?_ ?_ ?_ rfl hframes <;> rfl
  | client e =>
    obtain ⟨client, hclient, rfl⟩ := Option.map_eq_some_iff.mp h
    exact complete_client hx hclient

end Steps

section Results

variable {cv : OpenCv M B} {w : World M} {x : Transmission M B}

/-- Whatever the calls over the network do, each frame that was passed to `addFrame` has been sent
once, in order, or waits behind those that have been sent. -/
theorem sent_once_in_order (h : Execution cv ⟨newClient w true, [], []⟩ x) :
    (x.sent.flatten ++ x.client.frameBuffer).map (·.pixels) =
      x.passed.map (getByteBufferFromMat cv) := by
  have hx : Complete cv x := h.invariant ⟨rfl, rfl⟩ fun _ _ _ _ hnext hx => complete_next hx hnext
  exact hx.frames

/-- The second call fails, so that the third one sends three frames. The fourth one is kept. -/
theorem sent_after_failure : ∃ x : Transmission ℕ ℕ,
    Execution sampleCv ⟨newClient newWorld true, [], []⟩ x ∧
    x.sent.map (·.map (·.pixels)) = [[8, 9, 10]] ∧
    (x.sent.flatten ++ x.client.frameBuffer).map (·.pixels) =
      x.passed.map (getByteBufferFromMat sampleCv) := by
  have hrun : ∃ x : Transmission ℕ ℕ, TransitionSystems.runEvents (next sampleCv)
      ⟨newClient newWorld true, [], []⟩ [.addFrame 7 .sent, .addFrame 8 .unchecked,
        .addFrame 9 .sent, .addFrame 10 .ioException] = some x ∧
      x.sent.map (·.map (·.pixels)) = [[8, 9, 10]] := ⟨_, rfl, rfl⟩
  obtain ⟨x, h, hsent⟩ := hrun
  have hx : Execution sampleCv ⟨newClient newWorld true, [], []⟩ x := .append .refl (by simp) h
  exact ⟨x, hx, hsent, sent_once_in_order hx⟩

end Results

end FrameTransmission
