import VideoEditorOffloading.ServerBatches

/-! # Effect edits over the network

The client edits its own pipeline and sends the same edit to the server. The mapping from effects
to effects is written down in the client's `FrameProcessor`, in `CloudClient`, in the protocol and
in the server. -/
namespace EffectMirror

open SharedStatePrograms PipelineObjects PipelineOperations PipelineOperationSpecs PipelineRuns
  EffectThreadLine ServerProtocol ServerReconfiguration ServerBatches

inductive Message where
  | addBlurEffect
  | addColorSaturationEffect
  | addDrawingEffect
  | addEdgeDetectionEffect
  | addGradientMagnitudeEffect
  | addGrayscaleEffect
  | addHorizontalFlipEffect
  | addHoughCircleEffect
  | addHoughLineEffect
  | addIdentityEffect
  | addMotionHistoryEffect
  | addNegativeEffect
  | addSeamCarveEffect
  | addSepiaEffect
  | addVerticalEffect
  | addXrayEffect
  | clearEffects
  deriving DecidableEq, Repr

namespace CloudClient

def addBlurEffect : Message := .addBlurEffect
def addColorSaturationEffect : Message := .addColorSaturationEffect
def addDrawingEffect : Message := .addDrawingEffect
def addEdgeDetectionEffect : Message := .addEdgeDetectionEffect
def addGradientMagnitudeEffect : Message := .addGradientMagnitudeEffect
def addGrayscaleEffect : Message := .addGrayscaleEffect
def addHorizontalFlipEffect : Message := .addHorizontalFlipEffect
def addHoughCircleEffect : Message := .addHoughCircleEffect
def addHoughLineEffect : Message := .addHoughLineEffect
def addIdentityEffect : Message := .addIdentityEffect
def addMotionHistoryEffect : Message := .addMotionHistoryEffect
def addNegativeEffect : Message := .addNegativeEffect
def addSeamCarveEffect : Message := .addSeamCarveEffect
def addSepiaEffect : Message := .addSepiaEffect
def addVerticalEffect : Message := .addVerticalEffect
def addXrayEffect : Message := .addXrayEffect
def clearEffects : Message := .clearEffects

end CloudClient

def respond : Message → Code Unit
  | .addBlurEffect => ServerProtocol.addBlurEffect
  | .addColorSaturationEffect => ServerProtocol.addColorSaturationEffect
  | .addDrawingEffect => ServerProtocol.addDrawingEffect
  | .addEdgeDetectionEffect => ServerProtocol.addEdgeDetectionEffect
  | .addGradientMagnitudeEffect => ServerProtocol.addGradientMagnitudeEffect
  | .addGrayscaleEffect => ServerProtocol.addGrayscaleEffect
  | .addHorizontalFlipEffect => ServerProtocol.addHorizontalFlipEffect
  | .addHoughCircleEffect => ServerProtocol.addHoughCircleEffect
  | .addHoughLineEffect => ServerProtocol.addHoughLineEffect
  | .addIdentityEffect => ServerProtocol.addIdentityEffect
  | .addMotionHistoryEffect => ServerProtocol.addMotionHistoryEffect
  | .addNegativeEffect => ServerProtocol.addNegativeEffect
  | .addSeamCarveEffect => ServerProtocol.addSeamCarveEffect
  | .addSepiaEffect => ServerProtocol.addSepiaEffect
  | .addVerticalEffect => ServerProtocol.addVerticalEffect
  | .addXrayEffect => ServerProtocol.addXrayEffect
  | .clearEffects => ServerProtocol.clearEffects

/-- The part of the client's `FrameProcessor` that the edits read. -/
structure FrameProcessor where
  pipeline : State
  useCloud : Bool
  cloudClient : Bool

/-- The chain of `instanceof` tests in `FrameProcessor.addEffect`. The test for `IdentityEffect`
is commented out. -/
def cloudCall : EffectClass → Option Message
  | .blur => some CloudClient.addBlurEffect
  | .colorSaturation => some CloudClient.addColorSaturationEffect
  | .drawing => some CloudClient.addDrawingEffect
  | .edgeDetection => some CloudClient.addEdgeDetectionEffect
  | .gradientMagnitude => some CloudClient.addGradientMagnitudeEffect
  | .grayscale => some CloudClient.addGrayscaleEffect
  | .horizontalFlip => some CloudClient.addHorizontalFlipEffect
  | .houghCircle => some CloudClient.addHoughCircleEffect
  | .houghLine => some CloudClient.addHoughLineEffect
  | .identity => none
  | .motionHistory => some CloudClient.addMotionHistoryEffect
  | .negative => some CloudClient.addNegativeEffect
  | .seamCarve => some CloudClient.addSeamCarveEffect
  | .sepia => some CloudClient.addSepiaEffect
  | .verticalFlip => some CloudClient.addVerticalEffect
  | .xray => some CloudClient.addXrayEffect

structure Link where
  client : FrameProcessor
  server : State

def Link.send (x : Link) (m : Message) : Link :=
  if x.client.useCloud && x.client.cloudClient then
    { x with server := (call (respond m) x.server).2 }
  else x

/-- `addEffect(new LocalEffectTask(e))` on the client. -/
def addEffect (x : Link) (cls : EffectClass) : Link :=
  let local' := (call (addNewEffect cls) x.client.pipeline).2
  let x' : Link := { x with client := { x.client with pipeline := local' } }
  match cloudCall cls with
  | some m => x'.send m
  | none => x'

def clearEffects (x : Link) : Link :=
  let local' := (call PipelineOperations.clearEffects x.client.pipeline).2
  let x' : Link := { x with client := { x.client with pipeline := local' } }
  x'.send CloudClient.clearEffects

inductive Edit where
  | addEffect (cls : EffectClass)
  | clearEffects
  deriving DecidableEq, Repr

def Link.edit (x : Link) : Edit → Link
  | .addEffect cls => EffectMirror.addEffect x cls
  | .clearEffects => EffectMirror.clearEffects x

def Link.edits (x : Link) (edits : List Edit) : Link := edits.foldl Link.edit x

/-- A pipeline in working order, with the classes of its effects. -/
structure Holds (s : State) (classes : List EffectClass) : Prop where
  shape : Shape s
  classes : (effectsOf s).map (·.cls) = classes

def shownClasses (s : State) : List EffectClass := (getEffects s).map (·.cls)

theorem Holds.shown {s : State} {classes : List EffectClass} (h : Holds s classes) :
    shownClasses s = classes.filter (· ≠ .identity) := by
  rw [← h.classes, List.filter_map]
  rfl

section Specs

variable {s m : State} {classes : List EffectClass}

theorem holds_newTask {h : Heap} {p : Pipeline} (hs : Holds ⟨h, p⟩ classes) (e : Effect) :
    Holds ⟨h.newEffect.newTask e, p⟩ classes := by
  have hshape : Shape ⟨h.newEffect, p⟩ :=
    ⟨⟨hs.shape.aligned, hs.shape.threads_distinct, hs.shape.threads_allocated⟩,
      hs.shape.tasks_distinct, hs.shape.tasks_allocated⟩
  refine ⟨change_shape (.newTask h.newEffect p e) (plain_fresh _) hshape, ?_⟩
  rw [← hs.classes]
  simp only [effectsOf, List.map_map]
  apply List.map_congr_left
  intro t ht
  have hne : t ≠ h.nextTask := (hs.shape.tasks_allocated t ht).ne
  simp [hne]

theorem holds_addEffect (hs : Holds s classes) {t : ℕ} (hf : Fresh s (.adds t)) :
    ∃ m, call (PipelineOperations.addEffect t) s = (.ok (), m) ∧
      Holds m (classes ++ [(s.heap.task t).effect.cls]) := by
  obtain ⟨h, uq, pq, r, ths, ts⟩ := s
  have hlen := hs.shape.length
  rcases eq_or_ne ts [] with rfl | hne
  · obtain rfl : ths = [] := by simpa using hlen
    refine ⟨_, call_addEffect_empty h uq pq r t,
      change_shape (.addFirst h uq pq r t) hf hs.shape, ?_⟩
    rw [effectsOf_restarted, ← hs.classes]
    simp [effectsOf]
  · obtain ⟨xs, a, rfl⟩ := split_last hne
    obtain ⟨us, u, rfl⟩ := split_last (l := ths) (by rintro rfl; simp at hlen)
    refine ⟨_, call_addEffect_last h uq pq r xs us a u t,
      change_shape (.addLast h uq pq r us u xs a t (by simpa using hlen)) hf hs.shape, ?_⟩
    rw [classes_addLast h t uq pq r _ (us ++ [u]) xs a u, hs.classes]

theorem holds_addNewEffect (hs : Holds s classes) (cls : EffectClass) :
    ∃ m, call (addNewEffect cls) s = (.ok (), m) ∧ Holds m (classes ++ [cls]) := by
  obtain ⟨h, p⟩ := s
  have hf : Fresh ⟨h.newEffect.newTask ⟨h.nextEffect, cls⟩, p⟩ (.adds h.nextTask) := by
    rintro _ ⟨⟩
    refine ⟨by simp, fun hm => ?_⟩
    exact absurd (hs.shape.tasks_allocated _ hm) (lt_irrefl _)
  obtain ⟨m, hm, hholds⟩ := holds_addEffect (holds_newTask hs ⟨h.nextEffect, cls⟩) hf
  refine ⟨m, ?_, by simpa using hholds⟩
  simpa [addNewEffect, ref, PipelineObjects.exec] using hm

theorem holds_start (hs : Holds s classes) :
    ∃ m, call PipelineOperations.start s = (.ok (), m) ∧ Holds m classes := by
  obtain ⟨h, p⟩ := s
  exact ⟨_, call_start h p, change_shape (.start h p) (plain_fresh _) hs.shape, hs.classes⟩

theorem holds_clearEffects (hs : Holds s classes) :
    ∃ m, call PipelineOperations.clearEffects s = (.ok (), m) ∧ Holds m [.identity] := by
  obtain ⟨h, uq, pq, r, ths, ts⟩ := s
  refine ⟨_, call_clearEffects h uq pq r ths ts,
    change_shape (.clear h uq pq r ths ts) (plain_fresh _) hs.shape, ?_⟩
  exact classes_clear h uq pq r _ ths

/-- The call that the client makes for an effect adds an effect of the same class. -/
theorem holds_respond (hs : Holds s classes) {cls : EffectClass} {message : Message}
    (hm : cloudCall cls = some message) :
    ∃ m, call (respond message) s = (.ok (), m) ∧ Holds m (classes ++ [cls]) := by
  have hadd := holds_addNewEffect hs cls
  have hthen : ∃ m, call ((addNewEffect cls).bind fun _ => StartFrameProcessor) s = (.ok (), m) ∧
      Holds m (classes ++ [cls]) := by
    obtain ⟨m, hm, hholds⟩ := hadd
    obtain ⟨m', hm', hholds'⟩ := holds_start hholds
    exact ⟨m', (Program.run_bind_of_ok hm).trans hm', hholds'⟩
  cases cls with
  | blur | colorSaturation =>
    cases hm
    exact hthen
  | identity => cases hm
  | _ =>
    cases hm
    exact hadd

end Specs

section Links

variable {x : Link} {edits : List Edit}

/-- Client and server show the same effects, whatever identity stages they hold. -/
structure Mirrored (x : Link) : Prop where
  useCloud : x.client.useCloud = true
  cloudClient : x.client.cloudClient = true
  holds : ∃ local' remote, Holds x.client.pipeline local' ∧ Holds x.server remote ∧
    local'.filter (· ≠ .identity) = remote.filter (· ≠ .identity)

theorem Mirrored.shown (hx : Mirrored x) :
    shownClasses x.client.pipeline = shownClasses x.server := by
  obtain ⟨local', remote, hl, hr, he⟩ := hx.holds
  rw [hl.shown, hr.shown, he]

theorem mirrored_addEffect (hx : Mirrored x) (cls : EffectClass) :
    Mirrored (addEffect x cls) := by
  obtain ⟨hcloud, hclient, local', remote, hl, hr, he⟩ := hx
  obtain ⟨m, hm, hl'⟩ := holds_addNewEffect hl cls
  cases hcall : cloudCall cls with
  | none =>
    -- the identity effect is not sent, and neither side shows it
    obtain rfl : cls = .identity := by
      cases cls <;> first | rfl | cases hcall
    refine ⟨?_, ?_, local' ++ [.identity], remote, ?_, ?_, ?_⟩
    · simpa [addEffect, hcall] using hcloud
    · simpa [addEffect, hcall] using hclient
    · simpa [addEffect, hcall, hm] using hl'
    · simpa [addEffect, hcall] using hr
    · simpa using he
  | some message =>
    obtain ⟨m', hm', hr'⟩ := holds_respond hr hcall
    refine ⟨?_, ?_, local' ++ [cls], remote ++ [cls], ?_, ?_, ?_⟩
    · simp [addEffect, hcall, Link.send, hcloud, hclient]
    · simp [addEffect, hcall, Link.send, hcloud, hclient]
    · simpa [addEffect, hcall, Link.send, hcloud, hclient, hm] using hl'
    · simpa [addEffect, hcall, Link.send, hcloud, hclient, hm'] using hr'
    · rw [List.filter_append, List.filter_append, he]

/-- After `clearEffects` the two sides agree, whatever they held before. -/
theorem mirrored_clearEffects {local' remote : List EffectClass}
    (hcloud : x.client.useCloud = true) (hclient : x.client.cloudClient = true)
    (hl : Holds x.client.pipeline local') (hr : Holds x.server remote) :
    Mirrored (clearEffects x) := by
  obtain ⟨m, hm, hl'⟩ := holds_clearEffects hl
  obtain ⟨m', hm', hr'⟩ := holds_clearEffects hr
  refine ⟨?_, ?_, [.identity], [.identity], ?_, ?_, rfl⟩
  · simp [clearEffects, Link.send, hcloud, hclient]
  · simp [clearEffects, Link.send, hcloud, hclient]
  · simpa [clearEffects, Link.send, hcloud, hclient, hm] using hl'
  · have hserve : call (respond CloudClient.clearEffects) x.server = (.ok (), m') := hm'
    simpa [clearEffects, Link.send, hcloud, hclient, hserve] using hr'

theorem mirrored_edit (hx : Mirrored x) (edit : Edit) : Mirrored (x.edit edit) := by
  cases edit with
  | addEffect cls => exact mirrored_addEffect hx cls
  | clearEffects =>
    obtain ⟨hcloud, hclient, _, _, hl, hr, -⟩ := hx
    exact mirrored_clearEffects hcloud hclient hl hr

theorem mirrored_edits (hx : Mirrored x) (edits : List Edit) : Mirrored (x.edits edits) := by
  induction edits generalizing x with
  | nil => exact hx
  | cons edit edits ih => exact ih (mirrored_edit hx edit)

theorem mirrored_of_identity (hcloud : x.client.useCloud = true)
    (hclient : x.client.cloudClient = true) (hl : Holds x.client.pipeline [.identity])
    (hr : Holds x.server [.identity]) : Mirrored x :=
  ⟨hcloud, hclient, _, _, hl, hr, rfl⟩

/-- After any sequence of edits of a client whose pipeline holds only the identity effect, as the
server's does, both show the same classes of effects. -/
theorem edits_mirrored (hcloud : x.client.useCloud = true) (hclient : x.client.cloudClient = true)
    (hl : Holds x.client.pipeline [.identity]) (hr : Holds x.server [.identity])
    (edits : List Edit) :
    shownClasses (x.edits edits).client.pipeline = shownClasses (x.edits edits).server :=
  (mirrored_edits (mirrored_of_identity hcloud hclient hl hr) edits).shown

/-- `new FrameProcessor(new EffectTask[]{new LocalEffectTask(new IdentityEffect())})`. -/
def newPipeline : State := built constructedHeap 0 1 [0]

theorem new_holds : Holds newPipeline [.identity] := ⟨built_shape constructed_arguments, rfl⟩

theorem newServer_holds : Holds (newServer : Server ℕ ℕ).world.state [.identity] :=
  ⟨new_serving.shape, new_serving.classes⟩

theorem three_edits_mirrored :
    let x : Link := ⟨⟨newPipeline, true, true⟩, (newServer : Server ℕ ℕ).world.state⟩
    let x' := x.edits [.addEffect .blur, .addEffect .identity, .addEffect .xray]
    shownClasses x'.client.pipeline = shownClasses x'.server ∧
      shownClasses x'.server = [.blur, .xray] := by
  constructor
  · exact edits_mirrored rfl rfl new_holds newServer_holds _
  · rfl

end Links

end EffectMirror
