import VideoEditorOffloading.VideoViewing

/-! # The activity that edits the pipeline

It gets a copy of the effects in an intent and shows a button for each of them. What it returns is
loaded into a new `ImageProcessor` by the activity that shows the video. -/
namespace PipelineEditing

open PipelineObjects EffectMirror VideoViewing

def effectToString : EffectClass → String
  | .blur => "Blur"
  | .colorSaturation => "Color Saturation"
  | .drawing => "Drawing"
  | .edgeDetection => "Edge Detection"
  | .gradientMagnitude => "Gradient Magnitude"
  | .grayscale => "Grayscale"
  | .horizontalFlip => "Horizontal Flip"
  | .houghCircle => "Circle Detection"
  | .houghLine => "Line Detection"
  | .identity => "Identity"
  | .motionHistory => "Motion History"
  | .negative => "Negative"
  | .seamCarve => "Seam Carver"
  | .sepia => "Sepia"
  | .verticalFlip => "Vertical Flip"
  | .xray => "X-ray"

inductive EffectButton where
  | buttonGrayScale
  | buttonBlur
  | buttonNegative
  | buttonColorSaturation
  | buttonHFlip
  | buttonVFlip
  | buttonEdgeDetection
  | buttonGradientMagnitude
  | buttonMotionHistory
  | buttonLineDetection
  | buttonCircleDetection
  | buttonDrawing
  | buttonSepia
  | buttonSeamCarving
  deriving DecidableEq, Repr

def newEffect : EffectButton → EffectClass
  | .buttonGrayScale => .grayscale
  | .buttonBlur => .blur
  | .buttonNegative => .negative
  | .buttonColorSaturation => .colorSaturation
  | .buttonHFlip => .horizontalFlip
  | .buttonVFlip => .verticalFlip
  | .buttonEdgeDetection => .edgeDetection
  | .buttonGradientMagnitude => .gradientMagnitude
  | .buttonMotionHistory => .motionHistory
  | .buttonLineDetection => .houghLine
  | .buttonCircleDetection => .houghCircle
  | .buttonDrawing => .drawing
  | .buttonSepia => .sepia
  | .buttonSeamCarving => .seamCarve

/-- A button in `pipelineLinearLayout`: the view and its text. -/
structure Button where
  view : ℕ
  text : String
  deriving DecidableEq, Repr

inductive View where
  | effect (b : EffectButton)
  | pipeline (view : ℕ)
  | buttonClearPipeline
  | buttonCancel
  | buttonOk
  deriving DecidableEq, Repr

structure PipelineEditingActivity where
  /-- What the intent held when it was sent. -/
  extra : Option (List EffectClass)
  effects : List EffectClass
  pipelineLinearLayout : List Button
  nextView : ℕ
  /-- Set when the activity has finished. -/
  result : Option Result
  deriving DecidableEq, Repr

section Activity

def addButton (x : PipelineEditingActivity) (e : EffectClass) : PipelineEditingActivity :=
  { x with
    pipelineLinearLayout := x.pipelineLinearLayout ++ [⟨x.nextView, effectToString e⟩]
    nextView := x.nextView + 1 }

def onCreate (extra : Option (List EffectClass)) : PipelineEditingActivity :=
  let effects := extra.getD []
  effects.foldl addButton ⟨extra, effects, [], 0, none⟩

/-- Another configuration: the activity is made again from the same intent object, and the list in
it is the one that has been edited. -/
def relaunch (x : PipelineEditingActivity) : PipelineEditingActivity :=
  { onCreate (x.extra.map fun _ => x.effects) with extra := x.extra }

def indexOfChild (x : PipelineEditingActivity) (view : ℕ) : Option ℕ :=
  x.pipelineLinearLayout.findIdx? (·.view = view)

/-- `none` for an exception: a view without a parent, or an index that is out of bounds. -/
def onClick (x : PipelineEditingActivity) : View → Option PipelineEditingActivity
  | .effect b =>
    let e := newEffect b
    some (addButton { x with effects := x.effects ++ [e] } e)
  | .pipeline view =>
    match indexOfChild x view with
    | none => none
    | some index =>
      if index < x.effects.length then
        some { x with
          pipelineLinearLayout := x.pipelineLinearLayout.eraseIdx index
          effects := x.effects.eraseIdx index }
      else none
  | .buttonClearPipeline => some { x with pipelineLinearLayout := [], effects := [] }
  | .buttonCancel => some { x with result := some .canceled }
  | .buttonOk => some { x with result := some (.ok (some x.effects)) }

def Shows (x : PipelineEditingActivity) : View → Prop
  | .pipeline view => ∃ b ∈ x.pipelineLinearLayout, b.view = view
  | _ => True

/-- Every effect has its button, and no button stands for two. -/
structure InSync (x : PipelineEditingActivity) : Prop where
  texts : x.pipelineLinearLayout.map (·.text) = x.effects.map effectToString
  distinct : (x.pipelineLinearLayout.map (·.view)).Nodup
  fresh : ∀ b ∈ x.pipelineLinearLayout, b.view < x.nextView
  plain : .identity ∉ x.effects
  extra : ∀ effects, x.extra = some effects → .identity ∉ effects
  result : ∀ effects, x.result = some (.ok effects) → effects = some x.effects

variable {x x' : PipelineEditingActivity} {extra : Option (List EffectClass)}

theorem onClick_extra {v : View} (h : onClick x v = some x') : x'.extra = x.extra := by
  cases v with
  | pipeline view =>
    simp only [onClick] at h
    split at h
    · cases h
    · split at h
      · cases h
        rfl
      · cases h
  | _ =>
    cases h
    rfl

theorem InSync.length (h : InSync x) : x.pipelineLinearLayout.length = x.effects.length := by
  have hlen := congrArg List.length h.texts
  rwa [List.length_map, List.length_map] at hlen

theorem addButton_foldl (effects : List EffectClass) (x : PipelineEditingActivity) :
    effects.foldl addButton x = { x with
      pipelineLinearLayout := x.pipelineLinearLayout ++
        effects.mapIdx fun i e => ⟨x.nextView + i, effectToString e⟩
      nextView := x.nextView + effects.length } := by
  induction effects generalizing x with
  | nil => simp
  | cons e effects ih =>
    rw [List.foldl_cons, ih]
    simp [addButton, List.mapIdx_cons, add_assoc, add_comm 1]

theorem onCreate_inSync (h : ∀ effects, extra = some effects → .identity ∉ effects) :
    InSync (onCreate extra) := by
  have hplain : .identity ∉ extra.getD [] := by
    cases extra with
    | none => exact List.not_mem_nil
    | some effects => exact h effects rfl
  rw [onCreate, addButton_foldl]
  constructor
  · apply List.ext_getElem
    · simp
    · intro i hi hi'
      simp
  · have hviews : ((extra.getD []).mapIdx fun i e => (⟨0 + i, effectToString e⟩ : Button)).map
        (·.view) = List.range (extra.getD []).length := by
      apply List.ext_getElem
      · simp
      · intro i hi hi'
        simp
    rw [List.nil_append, hviews]
    exact List.nodup_range
  · intro b hb
    rw [List.nil_append] at hb
    obtain ⟨i, hi, rfl⟩ := List.mem_mapIdx.mp hb
    exact Nat.add_lt_add_left hi 0
  · exact hplain
  · exact h
  · intro effects hresult
    cases hresult

theorem onCreate_extra (extra : Option (List EffectClass)) : (onCreate extra).extra = extra := by
  rw [onCreate, addButton_foldl]

theorem inSync_canceled (h : InSync x) : InSync { x with result := some .canceled } := by
  refine ⟨h.texts, h.distinct, h.fresh, h.plain, h.extra, ?_⟩
  intro effects hok
  cases hok

theorem relaunch_inSync (h : InSync x) : InSync (relaunch x) := by
  have hplain : ∀ effects, (x.extra.map fun _ => x.effects) = some effects →
      .identity ∉ effects := by
    intro effects heffects
    obtain ⟨list, -, rfl⟩ := Option.map_eq_some_iff.mp heffects
    exact h.plain
  have hnew := onCreate_inSync hplain
  exact ⟨hnew.texts, hnew.distinct, hnew.fresh, hnew.plain, h.extra, hnew.result⟩

theorem indexOfChild_eq (h : InSync x) {i : ℕ} {b : Button}
    (hb : x.pipelineLinearLayout[i]? = some b) : indexOfChild x b.view = some i := by
  obtain ⟨hi, rfl⟩ := List.getElem?_eq_some_iff.mp hb
  rw [indexOfChild, List.findIdx?_eq_some_iff_getElem]
  refine ⟨hi, by simp, ?_⟩
  intro j hji
  have hne : x.pipelineLinearLayout[j].view ≠ x.pipelineLinearLayout[i].view := by
    intro heq
    have hnodup := List.nodup_iff_injective_get.mp h.distinct
    have hview : (x.pipelineLinearLayout.map (·.view)).get ⟨j, by simpa using hji.trans hi⟩ =
        (x.pipelineLinearLayout.map (·.view)).get ⟨i, by simpa using hi⟩ := by
      simpa using heq
    exact absurd (Fin.mk.inj (hnodup hview)) hji.ne
  simpa using hne

theorem onClick_pipeline (h : InSync x) {i : ℕ} {b : Button}
    (hb : x.pipelineLinearLayout[i]? = some b) :
    onClick x (.pipeline b.view) = some { x with
      pipelineLinearLayout := x.pipelineLinearLayout.eraseIdx i
      effects := x.effects.eraseIdx i } := by
  have hi : i < x.effects.length := by
    obtain ⟨hi, -⟩ := List.getElem?_eq_some_iff.mp hb
    exact h.length ▸ hi
  simp only [onClick, indexOfChild_eq h hb, if_pos hi]

theorem inSync_erase (h : InSync x) (hresult : x.result = none) (i : ℕ) : InSync { x with
    pipelineLinearLayout := x.pipelineLinearLayout.eraseIdx i
    effects := x.effects.eraseIdx i } := by
  constructor
  · simp only [← List.eraseIdx_map, h.texts]
  · simp only [← List.eraseIdx_map]
    exact h.distinct.sublist (List.eraseIdx_sublist _ _)
  · intro b hb
    exact h.fresh b ((List.eraseIdx_sublist _ _).subset hb)
  · intro hmem
    exact h.plain ((List.eraseIdx_sublist _ _).subset hmem)
  · exact h.extra
  · intro effects hok
    rw [hresult] at hok
    cases hok

theorem newEffect_ne_identity (b : EffectButton) : newEffect b ≠ .identity := by
  cases b <;> decide

theorem inSync_add (h : InSync x) (hresult : x.result = none) (b : EffectButton) :
    InSync (addButton { x with effects := x.effects ++ [newEffect b] } (newEffect b)) := by
  constructor
  · simp only [addButton, List.map_append, h.texts, List.map_cons, List.map_nil]
  · simp only [addButton, List.map_append, List.map_cons, List.map_nil]
    refine List.nodup_append.mpr ⟨h.distinct, List.nodup_singleton _, ?_⟩
    intro v hv w hw heq
    obtain ⟨b', hb', rfl⟩ := List.mem_map.mp hv
    rw [List.mem_singleton.mp hw] at heq
    exact absurd heq (h.fresh b' hb').ne
  · intro b' hb'
    rcases List.mem_append.mp hb' with hb' | hb'
    · exact (h.fresh b' hb').trans (Nat.lt_succ_self _)
    · rw [List.mem_singleton.mp hb']
      exact Nat.lt_succ_self _
  · intro hmem
    rcases List.mem_append.mp hmem with hmem | hmem
    · exact h.plain hmem
    · exact newEffect_ne_identity b (List.mem_singleton.mp hmem).symm
  · exact h.extra
  · intro effects hok
    change x.result = _ at hok
    rw [hresult] at hok
    cases hok

/-- A click on what is shown throws nothing and keeps the buttons in order. -/
theorem onClick_inSync (h : InSync x) (hresult : x.result = none) {v : View} (hv : Shows x v) :
    ∃ x', onClick x v = some x' ∧ InSync x' := by
  cases v with
  | effect b => exact ⟨_, rfl, inSync_add h hresult b⟩
  | pipeline view =>
    obtain ⟨b, hb, rfl⟩ := hv
    obtain ⟨i, hi⟩ := List.mem_iff_getElem?.mp hb
    exact ⟨_, onClick_pipeline h hi, inSync_erase h hresult i⟩
  | buttonClearPipeline =>
    refine ⟨_, rfl, rfl, List.nodup_nil, ?_, List.not_mem_nil, h.extra, ?_⟩
    · intro b hb
      cases hb
    · intro effects hok
      change x.result = _ at hok
      rw [hresult] at hok
      cases hok
  | buttonCancel => exact ⟨_, rfl, inSync_canceled h⟩
  | buttonOk =>
    refine ⟨_, rfl, h.texts, h.distinct, h.fresh, h.plain, h.extra, ?_⟩
    intro effects hok
    cases hok
    rfl

end Activity

section Session

structure Session where
  viewing : VideoViewingActivity
  editors : List PipelineEditingActivity

inductive Event where
  /-- What happens to the first activity, but for its results. -/
  | viewing (e : VideoViewing.Event)
  | click (i : ℕ) (v : View)
  /-- The back button. -/
  | back (i : ℕ)
  | relaunch (i : ℕ)
  /-- The system makes the activity again, from a copy of the intent. -/
  | recreate (i : ℕ)
  /-- An activity that has finished hands its result over. -/
  | deliver (i : ℕ)

def Session.edit (x : Session) (i : ℕ)
    (f : PipelineEditingActivity → Option PipelineEditingActivity) : Option Session := do
  let a ← x.editors[i]?
  if a.result.isSome then none
  else
    let a' ← f a
    return { x with editors := x.editors.set i a' }

def next (x : Session) : Event → Option Session
  | .viewing (.onActivityResult _) => none
  | .viewing .editPipeline => do
    let viewing ← VideoViewing.next x.viewing .editPipeline
    return ⟨viewing, x.editors ++ [onCreate viewing.effectList]⟩
  | .viewing e => do
    let viewing ← VideoViewing.next x.viewing e
    return { x with viewing }
  | .click i v => x.edit i fun a => onClick a v
  | .back i => x.edit i fun a => some { a with result := some .canceled }
  | .relaunch i => x.edit i fun a => some (relaunch a)
  | .recreate i => x.edit i fun a => some (onCreate a.extra)
  | .deliver i => do
    let a ← x.editors[i]?
    let result ← a.result
    let viewing ← VideoViewing.next x.viewing (.onActivityResult result)
    return ⟨viewing, x.editors.eraseIdx i⟩

/-- The user sees only what is shown. -/
def Visible (x : Session) : Event → Prop
  | .click i v => ∀ a, x.editors[i]? = some a → Shows a v
  | _ => True

/-- The menu is used only while no other editing activity is there. -/
def Alone (x : Session) (e : Event) : Prop :=
  Visible x e ∧ (e = .viewing .editPipeline → x.editors = [])

structure Consistent (x : Session) : Prop where
  sound : Sound x.viewing
  editors : ∀ a ∈ x.editors, InSync a
  editing : x.viewing.editing = x.editors.length
  effectList : ∀ effects, x.viewing.effectList = some effects → .identity ∉ effects
  asked : x.editors ≠ [] → x.viewing.effectList ≠ none

variable {x x' : Session} {e : Event} {i : ℕ} {a : PipelineEditingActivity}
  {classes : List EffectClass} {server : State}

theorem edit_some {f : PipelineEditingActivity → Option PipelineEditingActivity}
    (h : x.edit i f = some x') : ∃ a a', x.editors[i]? = some a ∧ a.result = none ∧
      f a = some a' ∧ x' = { x with editors := x.editors.set i a' } := by
  obtain ⟨a, ha, h⟩ := Option.bind_eq_some_iff.mp h
  split at h
  · cases h
  · rename_i hresult
    obtain ⟨a', ha', h⟩ := Option.bind_eq_some_iff.mp h
    exact ⟨a, a', ha, by simpa using hresult, ha', (Option.some.inj h).symm⟩

theorem Consistent.set (h : Consistent x) (ha : InSync a) :
    Consistent { x with editors := x.editors.set i a } := by
  refine ⟨h.sound, ?_, ?_, h.effectList, ?_⟩
  · intro a' ha'
    rcases List.mem_or_eq_of_mem_set ha' with ha' | rfl
    · exact h.editors a' ha'
    · exact ha
  · rw [h.editing, List.length_set]
  · intro hne
    apply h.asked
    intro hnil
    simp only [hnil, List.set_nil, ne_eq, not_true_eq_false] at hne

theorem identity_not_mem_shown {s : State} (h : Holds s classes) : .identity ∉ shownClasses s := by
  rw [h.shown]
  simp

theorem editPipeline_list (hsound : Sound x.viewing) {viewing : VideoViewingActivity}
    (h : VideoViewing.next x.viewing .editPipeline = some viewing) :
    ∃ imageProcessor, x.viewing.imageProcessor = some imageProcessor ∧
      viewing = { x.viewing with
        effectList := some (shownClasses imageProcessor.pipeline)
        editing := x.viewing.editing + 1 } ∧
      .identity ∉ shownClasses imageProcessor.pipeline := by
  simp only [VideoViewing.next] at h
  split at h
  · obtain ⟨imageProcessor, hip, rfl⟩ := Option.map_eq_some_iff.mp h
    obtain ⟨-, -, -, local', hlocal⟩ := hsound.processor imageProcessor hip
    exact ⟨imageProcessor, hip, rfl, identity_not_mem_shown hlocal⟩
  · cases h

/-- Only the menu and results change the list and the number of editing activities. -/
theorem viewing_same {e : VideoViewing.Event} {viewing viewing' : VideoViewingActivity}
    (hmenu : e ≠ .editPipeline) (hresult : ∀ result, e ≠ .onActivityResult result)
    (h : VideoViewing.next viewing e = some viewing') :
    viewing'.effectList = viewing.effectList ∧ viewing'.editing = viewing.editing := by
  cases e with
  | editPipeline => exact absurd rfl hmenu
  | onActivityResult result => exact absurd rfl (hresult result)
  | clearPipeline =>
    simp only [VideoViewing.next] at h
    split at h
    · obtain ⟨imageProcessor, -, rfl⟩ := Option.map_eq_some_iff.mp h
      exact ⟨rfl, rfl⟩
    · cases h
  | _ =>
    simp only [VideoViewing.next] at h
    split at h
    · cases h
      exact ⟨rfl, rfl⟩
    · cases h

/-- The list that a result stands for is shown afterwards, with `useCloud` also by the server. -/
theorem result_shown {viewing : VideoViewingActivity} {result : Result} (hsound : Sound x.viewing)
    (h : VideoViewing.next x.viewing (.onActivityResult result) = some viewing) :
    ∃ effects imageProcessor, viewing.effectList = some effects ∧
      (match result with
        | .ok list => some (list.getD [])
        | .canceled => x.viewing.effectList) = some effects ∧
      viewing.editing = x.viewing.editing - 1 ∧ viewing.imageProcessor = some imageProcessor ∧
      shownClasses imageProcessor.pipeline = effects.filter (· ≠ .identity) ∧
      (x.viewing.useCloud = true →
        shownClasses viewing.server = shownClasses imageProcessor.pipeline) := by
  simp only [VideoViewing.next] at h
  split at h
  swap
  · cases h
  rename_i hpending
  obtain ⟨effects, heffects, rfl⟩ := Option.map_eq_some_iff.mp h
  have hclient := hsound.editing hpending.1
  obtain ⟨remote, hremote⟩ := hsound.server
  have hedited := edits_edited (x := ⟨newImageProcessor x.viewing.cloudClient, x.viewing.server⟩)
    new_holds hremote (.clearEffects :: effects.map .addEffect)
  rw [List.foldl_cons, foldl_addEffect] at hedited
  refine ⟨effects, _, rfl, heffects, rfl, rfl, ?_, ?_⟩
  · exact hedited.pipeline.shown.trans (by simp [edited])
  · intro huse
    have hcleared : Mirrored (EffectMirror.clearEffects
        ⟨newImageProcessor x.viewing.cloudClient, x.viewing.server⟩) :=
      mirrored_clearEffects rfl (hclient.trans huse) new_holds hremote
    exact (mirrored_edits hcleared _).shown.symm

inductive Step (x : Session) : Event → Session → Prop where
  | menu {viewing} : VideoViewing.next x.viewing .editPipeline = some viewing →
    Step x (.viewing .editPipeline) ⟨viewing, x.editors ++ [onCreate viewing.effectList]⟩
  | viewing {e viewing} : e ≠ .editPipeline → (∀ result, e ≠ .onActivityResult result) →
    VideoViewing.next x.viewing e = some viewing → Step x (.viewing e) { x with viewing }
  | editor {e i a a'} : x.editors[i]? = some a → a.result = none → a'.extra = a.extra →
    (InSync a → Visible x e → InSync a') → Step x e { x with editors := x.editors.set i a' }
  | deliver {i a result viewing} : x.editors[i]? = some a → a.result = some result →
    VideoViewing.next x.viewing (.onActivityResult result) = some viewing →
    Step x (.deliver i) ⟨viewing, x.editors.eraseIdx i⟩

theorem step_of_next (h : next x e = some x') : Step x e x' := by
  cases e with
  | viewing e =>
    by_cases hmenu : e = .editPipeline
    · subst hmenu
      obtain ⟨viewing, hviewing, hx'⟩ := Option.bind_eq_some_iff.mp h
      cases hx'
      exact .menu hviewing
    · cases e with
      | onActivityResult result => cases h
      | editPipeline => exact absurd rfl hmenu
      | _ =>
        obtain ⟨viewing, hviewing, hx'⟩ := Option.bind_eq_some_iff.mp h
        cases hx'
        exact .viewing hmenu (fun result => by intro h; cases h) hviewing
  | click i v =>
    obtain ⟨a, a', ha, hresult, hclick, rfl⟩ := edit_some h
    apply Step.editor ha hresult (onClick_extra hclick)
    intro hsync hvisible
    obtain ⟨a'', hclick', hsync'⟩ := onClick_inSync hsync hresult (hvisible a ha)
    rw [hclick] at hclick'
    cases hclick'
    exact hsync'
  | back i =>
    obtain ⟨a, a', ha, hresult, hback, rfl⟩ := edit_some h
    cases hback
    exact .editor ha hresult rfl fun hsync _ => inSync_canceled hsync
  | relaunch i =>
    obtain ⟨a, a', ha, hresult, hagain, rfl⟩ := edit_some h
    cases hagain
    exact .editor ha hresult rfl fun hsync _ => relaunch_inSync hsync
  | recreate i =>
    obtain ⟨a, a', ha, hresult, hagain, rfl⟩ := edit_some h
    cases hagain
    exact .editor ha hresult (onCreate_extra _) fun hsync _ => onCreate_inSync hsync.extra
  | deliver i =>
    obtain ⟨a, ha, h⟩ := Option.bind_eq_some_iff.mp h
    obtain ⟨result, hresult, h⟩ := Option.bind_eq_some_iff.mp h
    obtain ⟨viewing, hviewing, h⟩ := Option.bind_eq_some_iff.mp h
    cases h
    exact .deliver ha hresult hviewing

theorem next_follows (hx : Sound x.viewing) (h : next x e = some x') :
    Follows x.viewing x'.viewing := by
  cases step_of_next h with
  | menu hviewing => exact (next_sound hx hviewing).2
  | viewing _ _ hviewing => exact (next_sound hx hviewing).2
  | editor _ _ _ _ => exact .refl _
  | deliver _ _ hviewing => exact (next_sound hx hviewing).2

theorem next_consistent (hx : Consistent x) (hv : Visible x e) (h : next x e = some x') :
    Consistent x' := by
  cases step_of_next h with
  | menu hviewing =>
    obtain ⟨imageProcessor, -, rfl, hplain⟩ := editPipeline_list hx.sound hviewing
    have hlist : ∀ effects, some (shownClasses imageProcessor.pipeline) = some effects →
        .identity ∉ effects := by
      intro effects heffects
      cases heffects
      exact hplain
    constructor
    · exact (next_sound hx.sound hviewing).1
    · intro a ha
      rcases List.mem_append.mp ha with ha | ha
      · exact hx.editors a ha
      · rw [List.mem_singleton.mp ha]
        exact onCreate_inSync hlist
    · simp [hx.editing]
    · exact hlist
    · intro _ hnone
      cases hnone
  | viewing hmenu hresult hviewing =>
    obtain ⟨hlist, hediting⟩ := viewing_same hmenu hresult hviewing
    constructor
    · exact (next_sound hx.sound hviewing).1
    · exact hx.editors
    · exact hediting.trans hx.editing
    · rw [hlist]
      exact hx.effectList
    · rw [hlist]
      exact hx.asked
  | editor ha hresult hextra hsync =>
    exact hx.set (hsync (hx.editors _ (List.mem_of_getElem? ha)) hv)
  | @deliver i a result viewing ha hresult hviewing =>
    obtain ⟨effects, imageProcessor, hlist, heffects, hediting, -⟩ :=
      result_shown hx.sound hviewing
    obtain ⟨hi, hai⟩ := List.getElem?_eq_some_iff.mp ha
    constructor
    · exact (next_sound hx.sound hviewing).1
    · intro a' ha'
      exact hx.editors a' ((List.eraseIdx_sublist _ _).subset ha')
    · rw [hediting, hx.editing, List.length_eraseIdx_of_lt hi]
    · intro effects' heffects'
      rw [hlist] at heffects'
      cases heffects'
      have hsync := hx.editors a (List.mem_of_getElem? ha)
      cases result with
      | ok list =>
        have hok := hsync.result list hresult
        rw [hok] at heffects
        cases heffects
        exact hsync.plain
      | canceled => exact hx.effectList effects heffects
    · intro _
      rw [hlist]
      exact Option.some_ne_none _

end Session

section Results

variable {x x' : Session} {i : ℕ} {a : PipelineEditingActivity} {result : Result}
  {classes : List EffectClass} {useCloud : Bool} {server : State}

def blurAndSepia : List Event :=
  [.viewing .onStart, .viewing .onResume, .viewing .editPipeline, .viewing .onPause,
    .click 0 (.effect .buttonBlur), .click 0 (.effect .buttonSepia)]

abbrev Execution (ok : Session → Event → Prop) (x₀ x : Session) : Prop :=
  TransitionSystems.Execution next ok x₀ x

def newSession (useCloud : Bool) (server : State) : Session := ⟨newActivity useCloud server, []⟩

theorem new_consistent (hs : Holds server classes) : Consistent (newSession useCloud server) := by
  constructor
  · exact new_sound hs
  · intro a ha
    cases ha
  · rfl
  · intro effects heffects
    cases heffects
  · intro hne
    exact absurd rfl hne

theorem execution_consistent (hs : Holds server classes)
    (h : Execution Visible (newSession useCloud server) x) : Consistent x :=
  h.invariant (new_consistent hs) fun _ _ _ hvisible hnext hx => next_consistent hx hvisible hnext

theorem execution_follows (hs : Holds server classes)
    (h : Execution Visible (newSession useCloud server) x) :
    Follows (newActivity useCloud server) x.viewing := by
  refine (h.invariant (P := fun y => Consistent y ∧ Follows (newActivity useCloud server) y.viewing)
    ⟨new_consistent hs, .refl _⟩ ?_).2
  intro y y' e hvisible hnext hy
  exact ⟨next_consistent hy.1 hvisible hnext, hy.2.trans (next_follows hy.1.sound hnext)⟩

/-- What the server shows when a result has been handed over: without `useCloud` it has never heard
of an effect. -/
theorem server_shown {viewing : VideoViewingActivity} {pipeline : State}
    (hx : Consistent x) (hfollows : Follows (newActivity useCloud server) x.viewing)
    (hviewing : VideoViewing.next x.viewing (.onActivityResult result) = some viewing)
    (hserver : x.viewing.useCloud = true → shownClasses viewing.server = shownClasses pipeline) :
    if useCloud = true then shownClasses viewing.server = shownClasses pipeline
    else viewing.server = server := by
  split
  · rename_i huse
    exact hserver (hfollows.useCloud.trans huse)
  · rename_i huse
    have hoff := Bool.eq_false_of_not_eq_true huse
    exact ((next_sound hx.sound hviewing).2.server (hfollows.useCloud.trans hoff)).trans
      (hfollows.server hoff)

theorem edit_running {f : PipelineEditingActivity → Option PipelineEditingActivity}
    (ha : x.editors[i]? = some a) (hresult : a.result = none) :
    x.edit i f = (f a).map fun a' => { x with editors := x.editors.set i a' } := by
  cases hf : f a with
  | none => simp [Session.edit, ha, hresult, hf]
  | some a' => simp [Session.edit, ha, hresult, hf]

/-- With or without `useCloud`, the buttons of every editing activity are those of its effects. No
click on what it shows throws, and a click on a button of the pipeline removes that button, the
effect it stands for, and nothing else. -/
theorem buttons_stand_for_effects (hs : Holds server classes)
    (h : Execution Visible (newSession useCloud server) x) (ha : x.editors[i]? = some a) :
    a.pipelineLinearLayout.map (·.text) = a.effects.map effectToString ∧
    (a.result = none →
      (∀ v, Shows a v → ∃ x', next x (.click i v) = some x') ∧
      ∀ j b, a.pipelineLinearLayout[j]? = some b →
        next x (.click i (.pipeline b.view)) = some { x with
          editors := x.editors.set i { a with
            pipelineLinearLayout := a.pipelineLinearLayout.eraseIdx j
            effects := a.effects.eraseIdx j } }) := by
  have hsync := (execution_consistent hs h).editors a (List.mem_of_getElem? ha)
  refine ⟨hsync.texts, ?_⟩
  intro hrunning
  constructor
  · intro v hv
    obtain ⟨a', hclick, -⟩ := onClick_inSync hsync hrunning hv
    exact ⟨_, (edit_running ha hrunning).trans (congrArg _ hclick)⟩
  · intro j b hb
    exact (edit_running ha hrunning).trans (congrArg _ (onClick_pipeline hsync hb))

theorem buttons_stand_for_effects_example : ∃ x x' a,
    Execution Visible (newSession true newPipeline) x ∧ x.editors[0]? = some a ∧
    a.pipelineLinearLayout.map (·.text) = ["Blur", "Sepia"] ∧
    next x (.click 0 (.pipeline 0)) = some x' ∧ x'.editors.map (·.effects) = [[.sepia]] := by
  have hrun : ∃ x a, TransitionSystems.runEvents next (newSession true newPipeline) blurAndSepia =
      some x ∧ x.editors[0]? = some a ∧ a.result = none ∧
      a.pipelineLinearLayout = [⟨0, "Blur"⟩, ⟨1, "Sepia"⟩] ∧ a.effects = [.blur, .sepia] ∧
      x.editors.length = 1 := ⟨_, _, rfl, rfl, rfl, rfl, rfl, rfl⟩
  obtain ⟨x, a, h, ha, hrunning, hbuttons, heffects, hlength⟩ := hrun
  have hex : Execution Visible (newSession true newPipeline) x := by
    apply TransitionSystems.Execution.append .refl ?_ h
    simp [blurAndSepia, Visible, Shows]
  obtain ⟨htexts, hclicks⟩ := buttons_stand_for_effects new_holds hex ha
  have hclick := (hclicks hrunning).2 0 ⟨0, "Blur"⟩ (by rw [hbuttons]; rfl)
  refine ⟨x, _, a, hex, ha, ?_, hclick, ?_⟩
  · rw [htexts, heffects]
    rfl
  · obtain ⟨b, hb⟩ := List.length_eq_one_iff.mp hlength
    simp [hb, heffects]

theorem deliver_some (hx : Consistent x) (ha : x.editors[i]? = some a)
    (hresult : a.result = some result) (hcovered : x.viewing.lifecycle ≠ .resumed) :
    ∃ viewing, VideoViewing.next x.viewing (.onActivityResult result) = some viewing ∧
      next x (.deliver i) = some ⟨viewing, x.editors.eraseIdx i⟩ := by
  have hne : x.editors ≠ [] := List.ne_nil_of_mem (List.mem_of_getElem? ha)
  have hediting : 0 < x.viewing.editing := by
    rw [hx.editing]
    exact List.length_pos_of_ne_nil hne
  obtain ⟨effects, heffects⟩ := Option.ne_none_iff_exists'.mp (hx.asked hne)
  have hviewing : ∃ viewing,
      VideoViewing.next x.viewing (.onActivityResult result) = some viewing := by
    simp only [VideoViewing.next, if_pos (And.intro hediting hcovered)]
    cases result with
    | ok list => exact ⟨_, rfl⟩
    | canceled =>
      simp only [onActivityResult, heffects]
      exact ⟨_, rfl⟩
  obtain ⟨viewing, hviewing⟩ := hviewing
  refine ⟨viewing, hviewing, ?_⟩
  simp [next, ha, hresult, hviewing]

theorem filter_of_plain {effects : List EffectClass} (h : .identity ∉ effects) :
    effects.filter (· ≠ .identity) = effects := by
  apply List.filter_eq_self.mpr
  intro e he
  simpa using fun heq : e = .identity => h (heq ▸ he)

/-- A finished editing activity can hand its result over, and the effects that are shown then are
those of its buttons if the user has confirmed them. With `useCloud` the server shows the same ones;
without, it is as it was at the beginning. -/
theorem result_delivered (hs : Holds server classes)
    (h : Execution Visible (newSession useCloud server) x) (ha : x.editors[i]? = some a)
    (hresult : a.result = some result) (hcovered : x.viewing.lifecycle ≠ .resumed) :
    ∃ x' imageProcessor, next x (.deliver i) = some x' ∧
      x'.viewing.imageProcessor = some imageProcessor ∧
      (if useCloud = true then
        shownClasses x'.viewing.server = shownClasses imageProcessor.pipeline
      else x'.viewing.server = server) ∧
      (result ≠ .canceled → (shownClasses imageProcessor.pipeline).map effectToString =
        a.pipelineLinearLayout.map (·.text)) := by
  have hx := execution_consistent hs h
  have hsync := hx.editors a (List.mem_of_getElem? ha)
  obtain ⟨viewing, hviewing, hnext⟩ := deliver_some hx ha hresult hcovered
  obtain ⟨effects, imageProcessor, -, heffects, -, hip, hclient, hserver⟩ :=
    result_shown hx.sound hviewing
  refine ⟨_, imageProcessor, hnext, hip,
    server_shown hx (execution_follows hs h) hviewing hserver, ?_⟩
  intro hok
  cases result with
  | canceled => exact absurd rfl hok
  | ok list =>
    rw [hsync.result list hresult] at heffects
    cases heffects
    rw [hclient, Option.getD_some, filter_of_plain hsync.plain, hsync.texts]

theorem result_delivered_example : ∃ x x' a imageProcessor,
    Execution Visible (newSession true newPipeline) x ∧ x.editors[0]? = some a ∧
    next x (.deliver 0) = some x' ∧ x'.viewing.imageProcessor = some imageProcessor ∧
    (shownClasses imageProcessor.pipeline).map effectToString = ["Blur", "Sepia"] ∧
    shownClasses x'.viewing.server = shownClasses imageProcessor.pipeline := by
  have hrun : ∃ x a, TransitionSystems.runEvents next (newSession true newPipeline)
      (blurAndSepia ++ [.click 0 .buttonOk]) = some x ∧ x.editors[0]? = some a ∧
      a.result = some (.ok (some [.blur, .sepia])) ∧ x.viewing.lifecycle ≠ .resumed ∧
      a.pipelineLinearLayout = [⟨0, "Blur"⟩, ⟨1, "Sepia"⟩] :=
    ⟨_, _, rfl, rfl, rfl, (fun h => by cases h), rfl⟩
  obtain ⟨x, a, h, ha, hresult, hcovered, hbuttons⟩ := hrun
  have hex : Execution Visible (newSession true newPipeline) x := by
    apply TransitionSystems.Execution.append .refl ?_ h
    simp [blurAndSepia, Visible, Shows]
  obtain ⟨x', imageProcessor, hnext, hip, hserver, hshown⟩ :=
    result_delivered new_holds hex ha hresult hcovered
  refine ⟨x, x', a, imageProcessor, hex, ha, hnext, hip, ?_, hserver⟩
  rw [hshown (fun h => by cases h), hbuttons]
  rfl

/-- There is at most one editing activity, and the list that is kept is the one it was given. -/
structure Single (x : Session) : Prop where
  consistent : Consistent x
  single : x.editors.length ≤ 1
  extra : ∀ a ∈ x.editors, a.extra = x.viewing.effectList

theorem next_single {e : Event} (hx : Single x) (halone : Alone x e) (h : next x e = some x') :
    Single x' := by
  have hconsistent := next_consistent hx.consistent halone.1 h
  cases step_of_next h with
  | menu hviewing =>
    have hnil := halone.2 rfl
    refine ⟨hconsistent, ?_, ?_⟩
    · simp [hnil]
    · intro a ha
      rw [hnil, List.nil_append, List.mem_singleton] at ha
      rw [ha, onCreate_extra]
  | viewing hmenu hresult hviewing =>
    obtain ⟨hlist, -⟩ := viewing_same hmenu hresult hviewing
    refine ⟨hconsistent, hx.single, ?_⟩
    intro a ha
    rw [hx.extra a ha]
    exact hlist.symm
  | editor ha hresult hextra hsync =>
    refine ⟨hconsistent, ?_, ?_⟩
    · rw [List.length_set]
      exact hx.single
    · intro b hb
      rcases List.mem_or_eq_of_mem_set hb with hb | rfl
      · exact hx.extra b hb
      · rw [hextra]
        exact hx.extra _ (List.mem_of_getElem? ha)
  | @deliver i a result viewing ha hresult hviewing =>
    obtain ⟨hi, -⟩ := List.getElem?_eq_some_iff.mp ha
    have hnil : (x.editors.eraseIdx i).length = 0 := by
      have hsingle := hx.single
      rw [List.length_eraseIdx_of_lt hi]
      omega
    refine ⟨hconsistent, hnil.le.trans (Nat.zero_le 1), ?_⟩
    intro b hb
    rw [List.eq_nil_of_length_eq_zero hnil] at hb
    cases hb

/-- While the menu is used only without an editing activity, a cancelled one leaves the client, and
with `useCloud` the server, with the effects that it was given. -/
theorem cancel_restores (hs : Holds server classes)
    (h : Execution Alone (newSession useCloud server) x) (ha : x.editors[i]? = some a)
    (hresult : a.result = some .canceled) (hcovered : x.viewing.lifecycle ≠ .resumed) :
    ∃ x' imageProcessor, next x (.deliver i) = some x' ∧
      x'.viewing.imageProcessor = some imageProcessor ∧
      a.extra = some (shownClasses imageProcessor.pipeline) ∧
      (if useCloud = true then
        shownClasses x'.viewing.server = shownClasses imageProcessor.pipeline
      else x'.viewing.server = server) := by
  have hnew : Single (newSession useCloud server) := by
    refine ⟨new_consistent hs, Nat.zero_le 1, ?_⟩
    intro a ha
    cases ha
  obtain ⟨hvisible, hx⟩ := h.weaken (I := Single) hnew fun _ _ _ hx hnext halone =>
    ⟨halone.1, next_single hx halone hnext⟩
  obtain ⟨viewing, hviewing, hnext⟩ := deliver_some hx.consistent ha hresult hcovered
  obtain ⟨effects, imageProcessor, -, heffects, -, hip, hclient, hserver⟩ :=
    result_shown hx.consistent.sound hviewing
  refine ⟨_, imageProcessor, hnext, hip, ?_,
    server_shown hx.consistent (execution_follows hs hvisible) hviewing hserver⟩
  rw [hclient, filter_of_plain (hx.consistent.effectList effects heffects),
    hx.extra a (List.mem_of_getElem? ha)]
  exact heffects

def clearlyAlone (x : Session) : Event → Bool
  | .click _ (.pipeline _) => false
  | .viewing .editPipeline => x.editors.isEmpty
  | _ => true

theorem alone_of_clearlyAlone {e : Event} (h : clearlyAlone x e = true) : Alone x e := by
  constructor
  · cases e with
    | click i v =>
      cases v with
      | pipeline view => cases h
      | _ =>
        intro a ha
        exact True.intro
    | _ => exact True.intro
  · rintro rfl
    exact List.isEmpty_iff.mp h

theorem cancel_restores_example : ∃ x x' a imageProcessor,
    Execution Alone (newSession true newPipeline) x ∧ x.editors[0]? = some a ∧
    a.effects = [.blur, .sepia, .negative] ∧ next x (.deliver 0) = some x' ∧
    x'.viewing.imageProcessor = some imageProcessor ∧
    shownClasses imageProcessor.pipeline = [.blur, .sepia] ∧
    shownClasses x'.viewing.server = shownClasses imageProcessor.pipeline := by
  have hrun : ∃ x a, TransitionSystems.runEvents
      (fun y e => if clearlyAlone y e then next y e else none) (newSession true newPipeline)
      (blurAndSepia ++ [.click 0 .buttonOk, .deliver 0, .viewing .onResume,
        .viewing .editPipeline, .viewing .onPause, .click 0 (.effect .buttonNegative),
        .back 0]) = some x ∧ x.editors[0]? = some a ∧ a.result = some .canceled ∧
      x.viewing.lifecycle ≠ .resumed ∧ a.effects = [.blur, .sepia, .negative] ∧
      a.extra = some [.blur, .sepia] := ⟨_, _, rfl, rfl, rfl, (fun h => by cases h), rfl, rfl⟩
  obtain ⟨x, a, h, ha, hresult, hcovered, heffects, hextra⟩ := hrun
  have hex : Execution Alone (newSession true newPipeline) x :=
    TransitionSystems.Execution.checked (fun _ _ => alone_of_clearlyAlone) .refl h
  obtain ⟨x', imageProcessor, hnext, hip, hshown, hserver⟩ :=
    cancel_restores new_holds hex ha hresult hcovered
  rw [hextra] at hshown
  exact ⟨x, x', a, imageProcessor, hex, ha, heffects, hnext, hip, (Option.some.inj hshown).symm,
    hserver⟩

end Results

end PipelineEditing
