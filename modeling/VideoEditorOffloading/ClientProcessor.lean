import VideoEditorOffloading.ServerProtocol

/-! # The client

`ImageProcessor.onCameraFrame` hands each camera frame to the client's `FrameProcessor` and asks
it for a frame to display. The camera thread, the effect threads and the callbacks of requests
interleave. -/
namespace ClientProcessor

open PipelineObjects EffectThreads EffectThreadLine ServerProtocol

/-- An encoded frame, and the number of the camera frame that it shows. Nobody reads the
number. -/
structure Buffer (B : Type) where
  number : ℕ
  pixels : B
  deriving DecidableEq, Repr

inductive Camera (M : Type) where
  | idle
  | adding (frame : Frame M)
  | getting
  | taking
  deriving DecidableEq, Repr

inductive Source where
  | original
  | processed
  deriving DecidableEq, Repr

structure Shown (M : Type) where
  source : Source
  frame : Frame M
  deriving DecidableEq, Repr

/-- `cloudClient` says whether the field is set. `requests` have been sent and not been answered,
the oldest one first. `results` are the frames of the current callback that `handleResult` has
not reached. `captured` and `shown` are histories. -/
structure Client (M B : Type) where
  world : World M
  useCloud : Bool
  cloudClient : Bool
  originalFrame : Option (Frame M)
  frameBuffer : List (Buffer B)
  numFrames : ℤ
  camera : Camera M
  requests : List (List (Buffer B))
  results : List (Buffer B)
  captured : ℕ
  shown : List (Shown M)

variable {M B : Type}

def K : ℕ := 1

def getMatFromByteBuffer (cv : OpenCv M B) (pixels : B) : M := cv.imdecode pixels (-1)

def getByteBufferFromMat (cv : OpenCv M B) (frame : M) : B := cv.imencode frame

/-- How `cloudClient.addFrames` ends. The list is serialised before the call returns. -/
inductive Sending where
  | sent
  | ioException
  | unchecked
  deriving DecidableEq, Repr

/-- The rest of `addFrame`, after `originalFrame` and `numFrames` have been set. -/
def addFrame (cv : OpenCv M B) (x : Client M B) (frame : Frame M) (sending : Sending) :
    Client M B :=
  if x.useCloud && x.cloudClient then
    let frameBuffer := x.frameBuffer ++ [⟨frame.number, getByteBufferFromMat cv frame.image⟩]
    if K < frameBuffer.length then
      match sending with
      | .sent =>
        { x with frameBuffer := [], requests := x.requests ++ [frameBuffer], camera := .getting }
      | .ioException => { x with frameBuffer := frameBuffer, camera := .getting }
      -- leaves `onCameraFrame` as well
      | .unchecked => { x with frameBuffer := frameBuffer, camera := .idle }
    else { x with frameBuffer := frameBuffer, camera := .getting }
  else
    { x with
      world := x.world.offer x.world.state.pipe.unprocessedFrameQueue frame
      camera := .getting }

/-- The next statement of `onCameraFrame`; `none` if it waits for a camera frame or in `take`. -/
def cameraStep (cv : OpenCv M B) (x : Client M B) (sending : Sending) : Option (Client M B) :=
  match x.camera with
  | .idle => none
  | .adding frame => some (addFrame cv x frame sending)
  | .getting =>
    if x.useCloud && (x.world.items x.world.state.pipe.processedFrameQueue).isEmpty then
      some { x with
        camera := .idle
        shown := x.shown ++ x.originalFrame.toList.map (⟨.original, ·⟩) }
    else some { x with camera := .taking }
  | .taking =>
    match x.world.items x.world.state.pipe.processedFrameQueue with
    | [] => none
    | frame :: _ =>
      some { x with
        world := x.world.removeFirst x.world.state.pipe.processedFrameQueue
        camera := .idle
        shown := x.shown ++ [⟨.processed, frame⟩] }

def handleResultStep (cv : OpenCv M B) (x : Client M B) : Option (Client M B) :=
  match x.results with
  | [] => none
  | buf :: rest =>
    let resultMat : Frame M := ⟨buf.number, getMatFromByteBuffer cv buf.pixels⟩
    some { x with
      world := x.world.offer x.world.state.pipe.processedFrameQueue resultMat
      numFrames := x.numFrames - 1
      results := rest }

/-- A request is answered with as many frames as it has; one callback runs at a time. -/
inductive Event (M B : Type) where
  | capture (image : M)
  | camera (sending : Sending)
  | thread (th : ℕ)
  | handleResult (result : List B)
  | handleError
  | callback

def next (cv : OpenCv M B) (x : Client M B) : Event M B → Option (Client M B)
  | .capture image =>
    match x.camera with
    | .idle =>
      let newFrame : Frame M := ⟨x.captured, image⟩
      some { x with
        originalFrame := some newFrame
        numFrames := x.numFrames + 1
        camera := .adding newFrame
        captured := x.captured + 1 }
    | _ => none
  | .camera sending => cameraStep cv x sending
  | .thread th => (threadStep cv.applyTo x.world th).map fun w => { x with world := w }
  | .handleResult result =>
    match x.results, x.requests with
    | [], request :: requests =>
      if result.length = request.length then
        some { x with
          requests := requests
          results := List.zipWith (fun buf pixels => ⟨buf.number, pixels⟩) request result }
      else none
    | _, _ => none
  | .handleError =>
    match x.results, x.requests with
    | [], _ :: requests => some { x with requests := requests }
    | _, _ => none
  | .callback => handleResultStep cv x

abbrev Execution (cv : OpenCv M B) (x₀ x : Client M B) : Prop :=
  TransitionSystems.Execution (next cv) (fun _ _ => True) x₀ x

def newClient (w : World M) (cloudClient : Bool) : Client M B where
  world := w
  useCloud := true
  cloudClient := cloudClient
  originalFrame := none
  frameBuffer := []
  numFrames := 0
  camera := .idle
  requests := []
  results := []
  captured := 0
  shown := []

end ClientProcessor
