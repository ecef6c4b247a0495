import VideoEditorOffloading.EffectMirror

/-! # The activity that shows the video

The system calls the handlers of the activity in an order that its lifecycle allows. Some of them
replace the `ImageProcessor`, and with it the client's pipeline; the server's pipeline stays. -/
namespace VideoViewing

open PipelineObjects PipelineRuns EffectMirror

/-- Where the activity stands. It is `stopped` before its first `onStart`. -/
inductive Lifecycle where
  | stopped
  | started
  | resumed
  | paused
  deriving DecidableEq, Repr

/-- `cloudClient` says whether the field is set, `editing` counts the editing activities that
have not reported back. Effects are known by their classes. -/
structure VideoViewingActivity where
  lifecycle : Lifecycle
  useCloud : Bool
  cloudClient : Bool
  imageProcessor : Option FrameProcessor
  effectList : Option (List EffectClass)
  editing : ℕ
  server : State

def newImageProcessor (cloudClient : Bool) : FrameProcessor := ⟨newPipeline, true, cloudClient⟩

inductive Result where
  | ok (effects : Option (List EffectClass))
  | canceled
  deriving DecidableEq, Repr

inductive Event where
  | onStart
  | onResume
  | onPause
  | onStop
  | editPipeline
  | clearPipeline
  | onActivityResult (result : Result)
  deriving DecidableEq, Repr

def onStart (x : VideoViewingActivity) : VideoViewingActivity :=
  let cloudClient := x.cloudClient || x.useCloud
  { x with
    lifecycle := .started
    cloudClient := cloudClient
    imageProcessor := some (x.imageProcessor.getD (newImageProcessor cloudClient)) }

def editPipeline (x : VideoViewingActivity) : Option VideoViewingActivity :=
  x.imageProcessor.map fun imageProcessor =>
    { x with
      effectList := some (shownClasses imageProcessor.pipeline)
      editing := x.editing + 1 }

/-- The client's side of edits that the activity makes, and what they do to the server. -/
def apply (x : VideoViewingActivity) (imageProcessor : FrameProcessor) (edits : List Edit) :
    VideoViewingActivity :=
  let link := (⟨imageProcessor, x.server⟩ : Link).edits edits
  { x with imageProcessor := some link.client, server := link.server }

def clearPipeline (x : VideoViewingActivity) : Option VideoViewingActivity :=
  x.imageProcessor.map fun imageProcessor => apply x imageProcessor [.clearEffects]

def onActivityResult (x : VideoViewingActivity) (result : Result) :
    Option VideoViewingActivity :=
  let effectList := match result with
    | .ok effects => some (effects.getD [])
    | .canceled => x.effectList
  effectList.map fun effects =>
    apply { x with effectList := some effects, editing := x.editing - 1 }
      (newImageProcessor x.cloudClient) (.clearEffects :: effects.map .addEffect)

/-- The handlers, where the lifecycle allows them; `none` also for a NullPointerException. -/
def next (x : VideoViewingActivity) : Event → Option VideoViewingActivity
  | .onStart => if x.lifecycle = .stopped then some (onStart x) else none
  | .onResume =>
    if x.lifecycle = .started ∨ x.lifecycle = .paused then some { x with lifecycle := .resumed }
    else none
  | .onPause => if x.lifecycle = .resumed then some { x with lifecycle := .paused } else none
  | .onStop =>
    if x.lifecycle = .started ∨ x.lifecycle = .paused then
      some { x with lifecycle := .stopped, imageProcessor := none }
    else none
  | .editPipeline => if x.lifecycle = .resumed then editPipeline x else none
  | .clearPipeline => if x.lifecycle = .resumed then clearPipeline x else none
  | .onActivityResult result =>
    if 0 < x.editing ∧ x.lifecycle ≠ .resumed then onActivityResult x result else none

/-- `useCloud` is a static field that is false and that nobody sets; the server is what it would
talk to. -/
def newActivity (useCloud : Bool) (server : State) : VideoViewingActivity where
  lifecycle := .stopped
  useCloud := useCloud
  cloudClient := false
  imageProcessor := none
  effectList := none
  editing := 0
  server := server

def Agrees (x : VideoViewingActivity) : Prop :=
  ∀ imageProcessor, x.imageProcessor = some imageProcessor →
    shownClasses imageProcessor.pipeline = shownClasses x.server

/-- `onStart` makes a new `ImageProcessor` only in front of a server without effects. -/
def Clean (x : VideoViewingActivity) (e : Event) : Prop :=
  e = .onStart → x.imageProcessor = none → shownClasses x.server = []

structure Sound (x : VideoViewingActivity) : Prop where
  cloudClient : x.cloudClient = true → x.useCloud = true
  server : ∃ remote, Holds x.server remote
  processor : ∀ imageProcessor, x.imageProcessor = some imageProcessor →
    x.cloudClient = x.useCloud ∧ imageProcessor.useCloud = true ∧
      imageProcessor.cloudClient = x.useCloud ∧ ∃ local', Holds imageProcessor.pipeline local'
  editing : 0 < x.editing → x.cloudClient = x.useCloud

/-- Nobody sets `useCloud`, and without it the server hears nothing. -/
structure Follows (x x' : VideoViewingActivity) : Prop where
  useCloud : x'.useCloud = x.useCloud
  server : x.useCloud = false → x'.server = x.server

theorem Follows.refl (x : VideoViewingActivity) : Follows x x := ⟨rfl, fun _ => rfl⟩

theorem Follows.trans {x x' x'' : VideoViewingActivity} (h : Follows x x') (h' : Follows x' x'') :
    Follows x x'' :=
  ⟨h'.useCloud.trans h.useCloud,
    fun hoff => (h'.server (h.useCloud.trans hoff)).trans (h.server hoff)⟩

section Links

variable {x : Link} {classes : List EffectClass}

def edited (classes : List EffectClass) : Edit → List EffectClass
  | .addEffect cls => classes ++ [cls]
  | .clearEffects => [.identity]

/-- Whether or not the server hears of an edit, the client's pipeline follows it. -/
structure Edited (x : Link) (classes : List EffectClass) (x' : Link) : Prop where
  useCloud : x'.client.useCloud = x.client.useCloud
  cloudClient : x'.client.cloudClient = x.client.cloudClient
  pipeline : Holds x'.client.pipeline classes
  remote : ∃ remote, Holds x'.server remote
  server : x.client.cloudClient = false → x'.server = x.server

theorem send_edited {x' : Link} {message : Message} (h : Edited x classes x')
    (hresponds : ∃ remote, Holds (call (respond message) x'.server).2 remote) :
    Edited x classes (x'.send message) := by
  rw [Link.send]
  split
  · rename_i hon
    refine ⟨h.useCloud, h.cloudClient, h.pipeline, hresponds, ?_⟩
    intro hoff
    rw [← h.cloudClient] at hoff
    simp [hoff] at hon
  · exact h

theorem edit_edited (hl : Holds x.client.pipeline classes) {remote : List EffectClass}
    (hr : Holds x.server remote) (edit : Edit) : Edited x (edited classes edit) (x.edit edit) := by
  cases edit with
  | addEffect cls =>
    obtain ⟨m, hm, hholds⟩ := holds_addNewEffect hl cls
    have hlocal : Edited x (classes ++ [cls])
        { x with client := { x.client with pipeline := m } } :=
      ⟨rfl, rfl, hholds, ⟨remote, hr⟩, fun _ => rfl⟩
    rw [Link.edit, EffectMirror.addEffect, hm]
    cases hcall : cloudCall cls with
    | none => exact hlocal
    | some message =>
      obtain ⟨m', hm', hremote⟩ := holds_respond hr hcall
      apply send_edited hlocal
      rw [hm']
      exact ⟨_, hremote⟩
  | clearEffects =>
    obtain ⟨m, hm, hholds⟩ := holds_clearEffects hl
    obtain ⟨m', hm', hremote⟩ := holds_clearEffects hr
    have hlocal : Edited x [.identity] { x with client := { x.client with pipeline := m } } :=
      ⟨rfl, rfl, hholds, ⟨remote, hr⟩, fun _ => rfl⟩
    rw [Link.edit, EffectMirror.clearEffects, hm]
    apply send_edited hlocal
    have hserve : call (respond CloudClient.clearEffects) x.server = (.ok (), m') := hm'
    rw [hserve]
    exact ⟨_, hremote⟩

theorem edits_edited (hl : Holds x.client.pipeline classes) {remote : List EffectClass}
    (hr : Holds x.server remote) (edits : List Edit) :
    Edited x (edits.foldl edited classes) (x.edits edits) := by
  induction edits generalizing x classes remote with
  | nil => exact ⟨rfl, rfl, hl, ⟨remote, hr⟩, fun _ => rfl⟩
  | cons edit edits ih =>
    have hedit := edit_edited hl hr edit
    obtain ⟨remote', hr'⟩ := hedit.remote
    have hedits := ih hedit.pipeline hr'
    exact ⟨hedits.useCloud.trans hedit.useCloud, hedits.cloudClient.trans hedit.cloudClient,
      hedits.pipeline, hedits.remote,
      fun hoff => (hedits.server (hedit.cloudClient.trans hoff)).trans (hedit.server hoff)⟩

theorem foldl_addEffect (effects : List EffectClass) :
    (effects.map .addEffect).foldl edited classes = classes ++ effects := by
  induction effects generalizing classes with
  | nil => exact (List.append_nil _).symm
  | cons cls effects ih =>
    rw [List.map_cons, List.foldl_cons, ih, edited, List.append_assoc]
    rfl

end Links

section Steps

variable {x x' : VideoViewingActivity} {e : Event}

theorem apply_sound (imageProcessor : FrameProcessor) {classes remote : List EffectClass}
    (edits : List Edit) (hcloud : x.cloudClient = x.useCloud)
    (huse : imageProcessor.useCloud = true) (hclient : imageProcessor.cloudClient = x.useCloud)
    (hl : Holds imageProcessor.pipeline classes) (hr : Holds x.server remote) :
    Sound (apply x imageProcessor edits) ∧ Follows x (apply x imageProcessor edits) := by
  have h := edits_edited (x := ⟨imageProcessor, x.server⟩) hl hr edits
  refine ⟨⟨fun hset => hcloud ▸ hset, h.remote, ?_, fun _ => hcloud⟩, rfl, ?_⟩
  · intro ip hip
    cases hip
    exact ⟨hcloud, h.useCloud.trans huse, h.cloudClient.trans hclient, _, h.pipeline⟩
  · intro hoff
    exact h.server (hclient.trans hoff)

theorem apply_agrees {imageProcessor : FrameProcessor} (edits : List Edit)
    (h : Mirrored ((⟨imageProcessor, x.server⟩ : Link).edits edits)) :
    Agrees (apply x imageProcessor edits) := by
  intro ip hip
  cases hip
  exact h.shown

theorem onStart_cloudClient (hx : Sound x) : (onStart x).cloudClient = x.useCloud := by
  cases hset : x.cloudClient with
  | true => simp [onStart, hset, hx.cloudClient hset]
  | false => simp [onStart, hset]

theorem sound_onStart (hx : Sound x) : Sound (onStart x) := by
  have hclient := onStart_cloudClient hx
  refine ⟨fun hset => hclient ▸ hset, hx.server, ?_, fun _ => hclient⟩
  intro ip hip
  refine ⟨hclient, ?_⟩
  cases hold : x.imageProcessor with
  | none =>
    simp only [onStart, hold, Option.getD_none, Option.some.injEq] at hip
    subst hip
    exact ⟨rfl, hclient, _, new_holds⟩
  | some old =>
    simp only [onStart, hold, Option.getD_some, Option.some.injEq] at hip
    subst hip
    exact (hx.processor _ hold).2

theorem agrees_onStart (ha : Agrees x) : Agrees (onStart x) ↔ Clean x .onStart := by
  cases hold : x.imageProcessor with
  | none =>
    have hnew : shownClasses newPipeline = [] := by rw [new_holds.shown]; rfl
    have hs : Agrees (onStart x) ↔ shownClasses newPipeline = shownClasses x.server := by
      simp [Agrees, onStart, hold, newImageProcessor]
    rw [hs, hnew]
    simp [Clean, hold, eq_comm]
  | some old =>
    have hs : Agrees (onStart x) := by
      intro ip hip
      simp only [onStart, hold, Option.getD_some, Option.some.injEq] at hip
      subst hip
      exact ha _ hold
    simp [Clean, hold, hs]

theorem next_sound (hx : Sound x) (h : next x e = some x') : Sound x' ∧ Follows x x' := by
  cases e with
  | onStart =>
    simp only [next] at h
    split at h <;> cases h
    exact ⟨sound_onStart hx, rfl, fun _ => rfl⟩
  | onResume | onPause =>
    simp only [next] at h
    split at h <;> cases h
    exact ⟨⟨hx.cloudClient, hx.server, hx.processor, hx.editing⟩, rfl, fun _ => rfl⟩
  | onStop =>
    simp only [next] at h
    split at h <;> cases h
    exact ⟨⟨hx.cloudClient, hx.server, nofun, hx.editing⟩, rfl, fun _ => rfl⟩
  | editPipeline =>
    simp only [next] at h
    split at h
    swap
    · cases h
    obtain ⟨ip, hip, rfl⟩ := Option.map_eq_some_iff.mp h
    exact ⟨⟨hx.cloudClient, hx.server, hx.processor, fun _ => (hx.processor _ hip).1⟩, rfl,
      fun _ => rfl⟩
  | clearPipeline =>
    simp only [next] at h
    split at h
    swap
    · cases h
    obtain ⟨ip, hip, rfl⟩ := Option.map_eq_some_iff.mp h
    obtain ⟨hclient, h1, h2, local', hl⟩ := hx.processor _ hip
    obtain ⟨remote, hr⟩ := hx.server
    exact apply_sound ip _ hclient h1 h2 hl hr
  | onActivityResult result =>
    simp only [next] at h
    split at h
    swap
    · cases h
    rename_i hpending
    obtain ⟨effects, -, rfl⟩ := Option.map_eq_some_iff.mp h
    have hclient := hx.editing hpending.1
    obtain ⟨remote, hr⟩ := hx.server
    have happly := apply_sound
      (x := { x with effectList := some effects, editing := x.editing - 1 })
      (newImageProcessor x.cloudClient) (.clearEffects :: effects.map .addEffect) hclient rfl hclient new_holds hr
    exact ⟨happly.1, happly.2.useCloud, happly.2.server⟩

/-- Agreement is lost only in an `onStart` that is not clean. -/
theorem next_agrees (huse : x.useCloud = true) (hx : Sound x) (ha : Agrees x)
    (h : next x e = some x') : Agrees x' ↔ Clean x e := by
  have hclean : e ≠ .onStart → Clean x e := fun hne he => absurd he hne
  cases e with
  | onStart =>
    simp only [next] at h
    split at h <;> cases h
    exact agrees_onStart ha
  | onResume | onPause =>
    simp only [next] at h
    split at h <;> cases h
    exact iff_of_true ha (hclean nofun)
  | onStop =>
    simp only [next] at h
    split at h <;> cases h
    exact iff_of_true nofun (hclean nofun)
  | editPipeline =>
    simp only [next] at h
    split at h
    swap
    · cases h
    obtain ⟨ip, hip, rfl⟩ := Option.map_eq_some_iff.mp h
    exact iff_of_true ha (hclean nofun)
  | clearPipeline =>
    simp only [next] at h
    split at h
    swap
    · cases h
    obtain ⟨ip, hip, rfl⟩ := Option.map_eq_some_iff.mp h
    obtain ⟨-, h1, h2, local', hl⟩ := hx.processor _ hip
    obtain ⟨remote, hr⟩ := hx.server
    have hm : Mirrored (EffectMirror.clearEffects ⟨ip, x.server⟩) :=
      mirrored_clearEffects h1 (h2.trans huse) hl hr
    exact iff_of_true (apply_agrees [.clearEffects] hm) (hclean nofun)
  | onActivityResult result =>
    simp only [next] at h
    split at h
    swap
    · cases h
    rename_i hpending
    obtain ⟨effects, -, rfl⟩ := Option.map_eq_some_iff.mp h
    obtain ⟨remote, hr⟩ := hx.server
    have hm := mirrored_clearEffects (x := ⟨newImageProcessor x.cloudClient, x.server⟩)
      rfl ((hx.editing hpending.1).trans huse) new_holds hr
    have hall := mirrored_edits hm (effects.map .addEffect)
    exact iff_of_true (apply_agrees
      (x := { x with effectList := some effects, editing := x.editing - 1 })
      (.clearEffects :: effects.map .addEffect) hall) (hclean nofun)

end Steps

section Results

variable {server : State} {classes : List EffectClass} {x : VideoViewingActivity}

abbrev Execution (ok : VideoViewingActivity → Event → Prop) (x₀ x : VideoViewingActivity) :
    Prop := TransitionSystems.Execution next ok x₀ x

def AgreesAfter (x : VideoViewingActivity) (e : Event) : Prop :=
  ∀ x', next x e = some x' → Agrees x'

theorem new_sound {useCloud : Bool} (hs : Holds server classes) :
    Sound (newActivity useCloud server) := by
  refine ⟨?_, ⟨_, hs⟩, ?_, ?_⟩
  · intro hset
    cases hset
  · intro ip hip
    cases hip
  · intro hpending
    exact absurd hpending (lt_irrefl 0)

structure Agreed (x : VideoViewingActivity) : Prop where
  useCloud : x.useCloud = true
  sound : Sound x
  agrees : Agrees x

theorem new_agreed (hs : Holds server classes) : Agreed (newActivity true server) := by
  refine ⟨rfl, new_sound hs, ?_⟩
  intro ip hip
  cases hip

/-- With `useCloud` enabled, the runs in which the server shows the effects of the activity after
every event are those whose every `onStart` finds its old `ImageProcessor` or a server without
effects. -/
theorem activity_agrees_iff (hs : Holds server classes) :
    Execution AgreesAfter (newActivity true server) x ↔
      Execution Clean (newActivity true server) x := by
  have hstep : ∀ x x' e, Agreed x → next x e = some x' →
      (Agrees x' ↔ Clean x e) ∧ (Agrees x' → Agreed x') := by
    intro x x' e hx hnext
    obtain ⟨hsound, hfollows⟩ := next_sound hx.sound hnext
    exact ⟨next_agrees hx.useCloud hx.sound hx.agrees hnext,
      fun ha => ⟨hfollows.useCloud.trans hx.useCloud, hsound, ha⟩⟩
  constructor
  · intro h
    refine (h.weaken (I := Agreed) (new_agreed hs) fun x x' e hx hnext hafter => ?_).1
    obtain ⟨hiff, hagreed⟩ := hstep x x' e hx hnext
    have ha := hafter x' hnext
    exact ⟨hiff.mp ha, hagreed ha⟩
  · intro h
    refine (h.weaken (I := Agreed) (new_agreed hs) fun x x' e hx hnext hclean => ?_).1
    obtain ⟨hiff, hagreed⟩ := hstep x x' e hx hnext
    have ha := hiff.mpr hclean
    refine ⟨fun y hy => ?_, hagreed ha⟩
    rw [hnext, Option.some.injEq] at hy
    exact hy ▸ ha

end Results

section Samples

def editBlur : List Event :=
  [.onStart, .onResume, .editPipeline, .onPause, .onStop, .onStart,
    .onActivityResult (.ok (some [.blur])), .onResume]

def homeAndBack : List Event := [.onPause, .onStop, .onStart]

/-- The server is still blurring frames for a client that shows no effect. -/
theorem homeAndBack_disagrees : ∃ x imageProcessor,
    Execution (fun _ _ => True) (newActivity true newPipeline) x ∧
    x.imageProcessor = some imageProcessor ∧ shownClasses imageProcessor.pipeline = [] ∧
    shownClasses x.server = [.blur] := by
  have hrun : ∃ x imageProcessor,
      TransitionSystems.runEvents next (newActivity true newPipeline) (editBlur ++ homeAndBack) =
        some x ∧
      x.imageProcessor = some imageProcessor ∧ shownClasses imageProcessor.pipeline = [] ∧
      shownClasses x.server = [.blur] := ⟨_, _, rfl, rfl, rfl, rfl⟩
  obtain ⟨x, ip, h, hip, hclient, hserver⟩ := hrun
  exact ⟨x, ip, .append .refl (by simp) h, hip, hclient, hserver⟩

theorem editBlur_agrees : ∃ x imageProcessor,
    Execution AgreesAfter (newActivity true newPipeline) x ∧
    x.imageProcessor = some imageProcessor ∧ shownClasses imageProcessor.pipeline = [.blur] := by
  have hclean : ∃ x imageProcessor, Execution Clean (newActivity true newPipeline) x ∧
      x.imageProcessor = some imageProcessor ∧
      shownClasses imageProcessor.pipeline = [.blur] := by
    refine ⟨_, _, .step (e := .onResume) (.step (e := .onActivityResult (.ok (some [.blur])))
      (.step (e := .onStart) (.step (e := .onStop) (.step (e := .onPause)
        (.step (e := .editPipeline) (.step (e := .onResume) (.step (e := .onStart) .refl
          ?_ rfl) ?_ rfl) ?_ rfl) ?_ rfl) ?_ rfl) ?_ rfl) ?_ rfl) ?_ rfl, rfl, rfl⟩
    all_goals intro he hnone
    all_goals cases he
    all_goals rfl
  obtain ⟨x, ip, h, hip, hshown⟩ := hclean
  exact ⟨x, ip, (activity_agrees_iff new_holds).mpr h, hip, hshown⟩

end Samples

end VideoViewing
