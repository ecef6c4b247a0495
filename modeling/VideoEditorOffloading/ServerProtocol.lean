import VideoEditorOffloading.EffectThreadLine

/-! # The server

One `TestProtocolImpl` with one `FrameProcessor` answers the calls of all connections. Each call
is executed by a handler of its own, statement by statement, while other handlers and the effect
threads run. -/
namespace ServerProtocol

open SharedStatePrograms PipelineObjects PipelineOperations PipelineRuns EffectThreads
  EffectThreadLine

/-- What the server uses of OpenCV. The flag of `imdecode` is 0 on the server and -1 on the
client. -/
structure OpenCv (M B : Type) where
  imdecode : B → ℤ → M
  imencode : M → B
  apply : EffectClass → M → M

variable {M B : Type}

/-- `effect.applyTo(frame)`. `IdentityEffect` returns the frame itself. -/
def OpenCv.applyClass (cv : OpenCv M B) : EffectClass → M → M
  | .identity, image => image
  | cls, image => cv.apply cls image

def OpenCv.applyTo (cv : OpenCv M B) (effect : Effect) (image : M) : M :=
  cv.applyClass effect.cls image

def OpenCv.applyAll (cv : OpenCv M B) (effects : List EffectClass) (image : M) : M :=
  effects.foldl (fun m cls => cv.applyClass cls m) image

section Calls

/-- `FrameProcessor.addEffect(new LocalEffectTask(new XEffect()))` for the one pipeline. -/
def addNewEffect (cls : EffectClass) : Code Unit := do
  let effect ← ref (.newEffect cls)
  let task ← ref (.newTask ⟨effect, cls⟩)
  addEffect task

def StartFrameProcessor : Code Unit := start

def addBlurEffect : Code Unit := do
  addNewEffect .blur
  StartFrameProcessor

def addColorSaturationEffect : Code Unit := do
  addNewEffect .colorSaturation
  StartFrameProcessor

def addDrawingEffect : Code Unit := addNewEffect .drawing
def addEdgeDetectionEffect : Code Unit := addNewEffect .edgeDetection
def addGradientMagnitudeEffect : Code Unit := addNewEffect .gradientMagnitude
def addGrayscaleEffect : Code Unit := addNewEffect .grayscale
def addHorizontalFlipEffect : Code Unit := addNewEffect .horizontalFlip
def addHoughCircleEffect : Code Unit := addNewEffect .houghCircle
def addHoughLineEffect : Code Unit := addNewEffect .houghLine
def addIdentityEffect : Code Unit := addNewEffect .identity
def addMotionHistoryEffect : Code Unit := addNewEffect .motionHistory
def addNegativeEffect : Code Unit := addNewEffect .negative
def addSeamCarveEffect : Code Unit := addNewEffect .seamCarve
def addSepiaEffect : Code Unit := addNewEffect .sepia
def addVerticalEffect : Code Unit := addNewEffect .verticalFlip
def addXrayEffect : Code Unit := addNewEffect .xray

def clearEffects : Code Unit := PipelineOperations.clearEffects

def addRpc : EffectClass → Code Unit
  | .blur => addBlurEffect
  | .colorSaturation => addColorSaturationEffect
  | .drawing => addDrawingEffect
  | .edgeDetection => addEdgeDetectionEffect
  | .gradientMagnitude => addGradientMagnitudeEffect
  | .grayscale => addGrayscaleEffect
  | .horizontalFlip => addHorizontalFlipEffect
  | .houghCircle => addHoughCircleEffect
  | .houghLine => addHoughLineEffect
  | .identity => addIdentityEffect
  | .motionHistory => addMotionHistoryEffect
  | .negative => addNegativeEffect
  | .seamCarve => addSeamCarveEffect
  | .sepia => addSepiaEffect
  | .verticalFlip => addVerticalEffect
  | .xray => addXrayEffect

inductive Rpc (B : Type) where
  | addEffect (cls : EffectClass)
  | clearEffects
  | addFrames (frames : List B)

end Calls

/-- Where the execution of a call stands. `adding` and `waiting` are the two loops of
`addFrames`, `rest` are the buffers that the first loop has not reached. -/
inductive Handler (B : Type) where
  | idle
  | editing (code : Code Unit)
  | adding (frames rest : List B) (numRemaining : ℕ)
  | waiting (frames : List B) (numRemaining : ℕ) (processedFrames : List B)
  | returned (frames processedFrames : List B)

/-- `effects`, `offers` and `takes` are histories: the effects added since the last
`clearEffects`, and which handler offered and took which frame. -/
structure Server (M B : Type) where
  world : World M
  handler : ℕ → Handler B
  effects : List EffectClass
  offers : List (ℕ × Frame M)
  takes : List (ℕ × Frame M)

def Handler.AtRest : Handler B → Bool
  | .idle => true
  | .returned _ _ => true
  | _ => false

@[simps -fullyApplied]
def Server.setHandler (x : Server M B) (c : ℕ) (handler : Handler B) : Server M B :=
  { x with handler := Function.update x.handler c handler }

def accept (x : Server M B) (c : ℕ) : Rpc B → Server M B
  | .addEffect cls => { x.setHandler c (.editing (addRpc cls)) with effects := x.effects ++ [cls] }
  | .clearEffects => { x.setHandler c (.editing clearEffects) with effects := [] }
  | .addFrames frames => x.setHandler c (.adding frames frames 0)

/-- The next statement of the handler of connection `c`; `none` if it is blocked or at rest. -/
def handlerStep (cv : OpenCv M B) (x : Server M B) (c : ℕ) : Option (Server M B) :=
  match x.handler c with
  | .idle => none
  | .returned _ _ => none
  | .editing code =>
    match code.advance World.state World.exec x.world with
    | some (code, world) => some { x.setHandler c (.editing code) with world := world }
    | none => some (x.setHandler c .idle)
  | .adding frames [] n => some (x.setHandler c (.waiting frames n []))
  | .adding frames (buf :: rest) n =>
    let frame : Frame M := ⟨x.offers.length, cv.imdecode buf 0⟩
    some { x.setHandler c (.adding frames rest (n + 1)) with
      world := x.world.offer x.world.state.pipe.unprocessedFrameQueue frame
      offers := x.offers ++ [(c, frame)] }
  | .waiting frames 0 processedFrames => some (x.setHandler c (.returned frames processedFrames))
  | .waiting frames (n + 1) processedFrames =>
    match x.world.items x.world.state.pipe.processedFrameQueue with
    | [] => none
    | newFrame :: _ =>
      some { x.setHandler c
          (.waiting frames n (processedFrames ++ [cv.imencode newFrame.image])) with
        world := x.world.removeFirst x.world.state.pipe.processedFrameQueue
        takes := x.takes ++ [(c, newFrame)] }

inductive Event (B : Type) where
  | call (c : ℕ) (rpc : Rpc B)
  | handler (c : ℕ)
  | thread (th : ℕ)

def next (cv : OpenCv M B) (x : Server M B) : Event B → Option (Server M B)
  | .call c rpc => if (x.handler c).AtRest then some (accept x c rpc) else none
  | .handler c => handlerStep cv x c
  | .thread th => (threadStep cv.applyTo x.world th).map fun w => { x with world := w }

abbrev Execution (cv : OpenCv M B) (ok : Server M B → Event B → Prop) (x₀ x : Server M B) :
    Prop := TransitionSystems.Execution (next cv) ok x₀ x

abbrev runEvents (cv : OpenCv M B) (x : Server M B) (events : List (Event B)) :
    Option (Server M B) := TransitionSystems.runEvents (next cv) x events

def emptyHeap : Heap where
  task _ := ⟨⟨0, .identity⟩, none, none⟩
  thread _ := ⟨0, .new⟩
  nextEffect := 0
  nextTask := 0
  nextThread := 0
  nextQueue := 0

/-- The constructor: a `FrameProcessor` whose only pipeline applies an `IdentityEffect`. Its two
queues are the first ones that are created. -/
def TestProtocolImpl : Code Unit := do
  let effect ← ref (.newEffect .identity)
  let task ← ref (.newTask ⟨effect, .identity⟩)
  let _ ← ref (.newQueue 20)
  let _ ← ref (.newQueue 20)
  constructor [task]
  StartFrameProcessor

def newWorld : World M :=
  (TestProtocolImpl.run World.state World.exec
    { state := ⟨emptyHeap, blank 0 1⟩
      items := fun _ => []
      capacity := fun _ => 0
      pc := fun _ => .unstarted
      flag := fun _ => false
      log := [] }).2

def newServer : Server M B where
  world := newWorld
  handler _ := .idle
  effects := []
  offers := []
  takes := []

/-- Numbers as images and as buffers. -/
def sampleCv : OpenCv ℕ ℕ where
  imdecode buf _ := buf
  imencode m := m + 1
  apply _ m := 2 * m

end ServerProtocol
