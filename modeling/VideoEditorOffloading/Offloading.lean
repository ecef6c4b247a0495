import VideoEditorOffloading.ServerBatches
import VideoEditorOffloading.ClientProcessor

/-! # Offloaded and local processing of a frame

Client and server are two programs with the same effects. They agree on the encoding of a frame,
but the server decodes with flag 0 and the client with flag -1. -/
namespace Offloading

open SharedStatePrograms PipelineObjects PipelineOperations PipelineRuns EffectThreads
  EffectThreadLine ServerProtocol ServerReconfiguration ServerBatches ClientProcessor

structure Mat where
  rows : ℕ
  cols : ℕ
  channels : ℕ
  data : List UInt8
  deriving DecidableEq, Repr

variable {B : Type}

/-- PNG is lossless, flag -1 restores a matrix as it was encoded, flag 0 makes it grey. -/
structure PngLaws (cv : OpenCv Mat B) : Prop where
  unchanged : ∀ m, cv.imdecode (cv.imencode m) (-1) = m
  greyscale : ∀ m, (cv.imdecode (cv.imencode m) 0).channels = 1

def greyVersion (cv : OpenCv Mat B) (frame : Mat) : Mat := cv.imdecode (cv.imencode frame) 0

/-- One of the effects gives the same image for both, at the place where it stands in the list. -/
def Merges (cv : OpenCv Mat B) : List EffectClass → Mat → Mat → Prop
  | [], _, _ => False
  | cls :: effects, m, m' =>
    cv.applyClass cls m = cv.applyClass cls m' ∨
      Merges cv effects (cv.applyClass cls m) (cv.applyClass cls m')

/-- `mat` is what `handleResult` has put into `processedFrameQueue` for a frame of a request that
a server with these effects has answered. -/
inductive Offloaded (cv : OpenCv Mat B) (effects : List EffectClass) (frame mat : Mat) :
    Prop where
  | mk (x x' : Server Mat B) (c i : ℕ) (request response : List B)
    (hx : ServerProtocol.Execution cv Sequential newServer x) (heffects : x.effects = effects)
    (hreturn : ServerProtocol.next cv x (.handler c) = some x')
    (hresponse : x'.handler c = .returned request response)
    (hframe : request[i]? = some (getByteBufferFromMat cv frame))
    (y y' : Client Mat B) (buf : Buffer B) (rest : List (Buffer B))
    (hbuf : y.results = buf :: rest) (hpixels : response[i]? = some buf.pixels)
    (hy : handleResultStep cv y = some y')
    (hmat : y'.world.log = y.world.log ++
      [.accepted y.world.state.pipe.processedFrameQueue ⟨buf.number, mat⟩])

/-- `mat` is what a local pipeline with these effects has put into `processedFrameQueue` for a
frame that it had accepted. -/
inductive LocallyProcessed (cv : OpenCv Mat B) (effects : List EffectClass) (frame mat : Mat) :
    Prop where
  | mk (w : World Mat) (hr : Running w) (hitems : ∀ q, w.items q = [])
    (hhands : ∀ th, (w.pc th).inHand = []) (hlog : w.log = [])
    (heffects : (getEffects w.state).map (·.cls) = effects.filter (· ≠ .identity))
    (z : Session Mat) (hz : EffectThreadLine.Execution cv.applyTo ⟨w, 0⟩ z) (f g : Frame Mat)
    (hf : f ∈ acceptedAt w.state.pipe.unprocessedFrameQueue z.world.log)
    (hg : g ∈ acceptedAt w.state.pipe.processedFrameQueue z.world.log)
    (hnumber : g.number = f.number) (hframe : f.image = frame) (hmat : g.image = mat)

section Results

variable {cv : OpenCv Mat B} {effects : List EffectClass} {frame mat mat' : Mat}

theorem applyAll_filter (cv : OpenCv Mat B) (effects : List EffectClass) (image : Mat) :
    cv.applyAll (effects.filter (· ≠ .identity)) image = cv.applyAll effects image := by
  induction effects generalizing image with
  | nil => rfl
  | cons cls effects ih =>
    by_cases hcls : cls = .identity
    · subst hcls
      rw [List.filter_cons_of_neg (by simp)]
      exact ih image
    · rw [List.filter_cons_of_pos (by simpa using hcls)]
      exact ih _

theorem applyAll_channels (hkeep : ∀ cls ∈ effects, ∀ m, (cv.applyClass cls m).channels = m.channels)
    (image : Mat) : (cv.applyAll effects image).channels = image.channels := by
  induction effects generalizing image with
  | nil => rfl
  | cons cls effects ih =>
    have hrest := ih (fun c hc => hkeep c (List.mem_cons_of_mem _ hc)) (cv.applyClass cls image)
    exact hrest.trans (hkeep cls List.mem_cons_self image)

theorem offloaded_eq (hcv : PngLaws cv) (h : Offloaded cv effects frame mat) :
    mat = cv.applyAll effects (greyVersion cv frame) := by
  obtain ⟨x, x', c, i, request, response, hx, rfl, hreturn, hresponse, hframe, y, y', buf, rest,
    hbuf, hpixels, hy, hmat⟩ := h
  have hall := (sequential_invariant hx).result hreturn hresponse
  rw [hall, List.getElem?_map, hframe, Option.map_some, Option.some.injEq] at hpixels
  have hput : mat = getMatFromByteBuffer cv buf.pixels := by
    simp only [handleResultStep, hbuf, Option.some.injEq] at hy
    rw [← hy, World.offer] at hmat
    split at hmat
    · simpa [eq_comm] using hmat
    · simp at hmat
  rw [hput, ← hpixels]
  exact hcv.unchanged _

theorem composed_eq (cv : OpenCv Mat B) (s : State) (image : Mat) :
    composed cv.applyTo (effectsOf s) image =
      cv.applyAll ((getEffects s).map (·.cls)) image := by
  rw [composed_applyAll, ← applyAll_filter, getEffects, List.filter_map]
  rfl

theorem locallyProcessed_eq (h : LocallyProcessed cv effects frame mat) :
    mat = cv.applyAll effects frame := by
  obtain ⟨w, hr, hitems, hhands, hlog, heffects, z, hz, f, g, hf, hg, hnumber, rfl, rfl⟩ := h
  obtain ⟨hst, consumed, hx⟩ := execution_fifo hr hitems hhands hlog hz
  rw [← hr.exit] at hg
  have hg' := fifo_processed hx hf hg hnumber
  rw [← hst, processed_stagesOf cv.applyTo (hst ▸ hr.staffed)] at hg'
  rw [hg', hst, composed_eq, heffects, applyAll_filter]

theorem applyAll_eq_iff {m m' : Mat} (hne : m ≠ m') :
    cv.applyAll effects m = cv.applyAll effects m' ↔ Merges cv effects m m' := by
  induction effects generalizing m m' with
  | nil => exact iff_of_false hne not_false
  | cons cls effects ih =>
    by_cases hcls : cv.applyClass cls m = cv.applyClass cls m'
    · refine iff_of_true ?_ (.inl hcls)
      change cv.applyAll effects (cv.applyClass cls m) = cv.applyAll effects (cv.applyClass cls m')
      rw [hcls]
    · rw [Merges, or_iff_right hcls]
      exact ih hcls

theorem greyVersion_ne (hcv : PngLaws cv) (hfour : frame.channels = 4) :
    greyVersion cv frame ≠ frame := by
  intro he
  have hchannels := hcv.greyscale frame
  rw [greyVersion] at he
  rw [he, hfour] at hchannels
  cases hchannels

theorem not_merges_of_keep
    (hkeep : ∀ cls ∈ effects, ∀ m, (cv.applyClass cls m).channels = m.channels) {m m' : Mat}
    (hne : m.channels ≠ m'.channels) : ¬ Merges cv effects m m' := by
  rw [← applyAll_eq_iff fun h => hne (congrArg Mat.channels h)]
  intro he
  have hchannels := congrArg Mat.channels he
  rw [applyAll_channels hkeep, applyAll_channels hkeep] at hchannels
  exact hne hchannels

/-- One of the effects sees no colours, and those in front of it treat the grey version as they treat
the frame. -/
def ColourBlind (cv : OpenCv Mat B) (effects : List EffectClass) : Prop :=
  ∃ before cls after, effects = before ++ cls :: after ∧
    (∀ cls' ∈ before, ∀ m,
      cv.applyClass cls' (greyVersion cv m) = greyVersion cv (cv.applyClass cls' m)) ∧
    ∀ m, cv.applyClass cls (greyVersion cv m) = cv.applyClass cls m

theorem merges_of_colourBlind (h : ColourBlind cv effects) (frame : Mat) :
    Merges cv effects (greyVersion cv frame) frame := by
  obtain ⟨before, cls, after, rfl, hbefore, hblind⟩ := h
  induction before generalizing frame with
  | nil => exact .inl (hblind frame)
  | cons cls' before ih =>
    right
    rw [hbefore cls' List.mem_cons_self]
    exact ih _ fun cls hcls => hbefore cls (List.mem_cons_of_mem _ hcls)

end Results

section Samples

def greyValues : List UInt8 → List UInt8
  | b :: g :: r :: _ :: data =>
    UInt8.ofNat ((114 * b.toNat + 587 * g.toNat + 299 * r.toNat + 500) / 1000) ::
      greyValues data
  | _ => []

def matCv : OpenCv Mat Mat where
  imdecode buf flag :=
    if flag = 0 ∧ buf.channels ≠ 1 then ⟨buf.rows, buf.cols, 1, greyValues buf.data⟩ else buf
  imencode m := m
  apply _ m := m

theorem matCv_laws : PngLaws matCv where
  unchanged m := by simp [matCv]
  greyscale m := by
    by_cases hm : m.channels = 1 <;> simp [matCv, hm]

def pixel : Mat := ⟨1, 1, 4, [77, 77, 77, 255]⟩

theorem pixel_offloaded : Offloaded matCv [] pixel ⟨1, 1, 1, [77]⟩ := by
  have hserver : ∃ x x' : Server Mat Mat, runEvents matCv
        (accept newServer 0 (.addFrames [pixel, pixel]))
        (List.replicate 3 (.handler 0) ++ List.replicate 15 (.thread 0) ++
          List.replicate 2 (.handler 0)) = some x ∧
      x.effects = [] ∧ ServerProtocol.next matCv x (.handler 0) = some x' ∧
      x'.handler 0 = .returned [pixel, pixel] [⟨1, 1, 1, [77]⟩, ⟨1, 1, 1, [77]⟩] :=
    ⟨_, _, rfl, rfl, rfl, rfl⟩
  have hclient : ∃ y y' : Client Mat Mat, TransitionSystems.runEvents
        (ClientProcessor.next matCv) (newClient newWorld true)
        [.capture pixel, .camera .sent, .camera .sent, .capture pixel, .camera .sent,
          .camera .sent, .handleResult [⟨1, 1, 1, [77]⟩, ⟨1, 1, 1, [77]⟩]] = some y ∧
      y.results = [⟨0, 1, 1, 1, [77]⟩, ⟨1, 1, 1, 1, [77]⟩] ∧
      handleResultStep matCv y = some y' ∧
      y'.world.log = y.world.log ++
        [.accepted y.world.state.pipe.processedFrameQueue ⟨0, 1, 1, 1, [77]⟩] :=
    ⟨_, _, rfl, rfl, rfl, rfl⟩
  obtain ⟨x, x', hx, heffects, hreturn, hresponse⟩ := hserver
  obtain ⟨y, y', -, hbuf, hy, hmat⟩ := hclient
  exact .mk x x' 0 0 _ _
    (.append (.step .refl (e := .call 0 _) (fun _ => rfl) rfl) (by simp [ServerBatches.Sequential]) hx)
    heffects hreturn hresponse rfl y y' _ _ hbuf rfl hy hmat

theorem pixel_locallyProcessed : LocallyProcessed matCv [] pixel pixel := by
  have hrun : ∃ z : Session Mat, TransitionSystems.runEvents
        (EffectThreadLine.next matCv.applyTo) ⟨newWorld, 0⟩
        (.produce pixel :: List.replicate 7 (.thread 0)) = some z ∧
      acceptedAt 0 z.world.log = [⟨0, pixel⟩] ∧ acceptedAt 1 z.world.log = [⟨0, pixel⟩] :=
    ⟨_, rfl, rfl, rfl⟩
  obtain ⟨z, hz, hin, hout⟩ := hrun
  exact .mk newWorld (serving_running new_serving new_coherent) new_quiet.items new_quiet.hands
    rfl rfl z (.append .refl (by simp) hz) ⟨0, pixel⟩ ⟨0, pixel⟩ (hin ▸ List.mem_singleton_self _)
    (hout ▸ List.mem_singleton_self _) rfl rfl rfl

def greyCv : OpenCv Mat Mat :=
  { matCv with apply := fun cls m => if cls = .grayscale then matCv.imdecode m 0 else m }

theorem greyCv_laws : PngLaws greyCv := ⟨matCv_laws.unchanged, matCv_laws.greyscale⟩

def greyServer : Server Mat Mat :=
  (runEvents greyCv (accept newServer 0 (.addEffect .grayscale))
    (List.replicate 26 (.handler 0))).getD newServer

theorem greyServer_execution : ServerProtocol.Execution greyCv Sequential newServer greyServer :=
  .append (.step .refl (e := .call 0 _) (fun _ => rfl) rfl) (by simp [ServerBatches.Sequential])
    (show runEvents greyCv (accept newServer 0 (.addEffect .grayscale))
      (List.replicate 26 (.handler 0)) = some greyServer from rfl)

theorem greyServer_rest : ∀ c, (greyServer.handler c).AtRest = true := fun c => by
  cases c <;> rfl

theorem grey_offloaded : Offloaded greyCv [.grayscale] pixel ⟨1, 1, 1, [77]⟩ := by
  have hserver : ∃ x x' : Server Mat Mat, runEvents greyCv
        (accept greyServer 0 (.addFrames [pixel, pixel]))
        (List.replicate 3 (.handler 0) ++ List.replicate 15 (.thread 1) ++
          List.replicate 15 (.thread 2) ++ List.replicate 2 (.handler 0)) = some x ∧
      x.effects = [.grayscale] ∧ ServerProtocol.next greyCv x (.handler 0) = some x' ∧
      x'.handler 0 = .returned [pixel, pixel] [⟨1, 1, 1, [77]⟩, ⟨1, 1, 1, [77]⟩] :=
    ⟨_, _, rfl, rfl, rfl, rfl⟩
  have hclient : ∃ y y' : Client Mat Mat, y.results = [⟨0, 1, 1, 1, [77]⟩, ⟨1, 1, 1, 1, [77]⟩] ∧
      handleResultStep greyCv y = some y' ∧
      y'.world.log = y.world.log ++
        [.accepted y.world.state.pipe.processedFrameQueue ⟨0, 1, 1, 1, [77]⟩] :=
    ⟨{ newClient newWorld true with results := [⟨0, 1, 1, 1, [77]⟩, ⟨1, 1, 1, 1, [77]⟩] }, _, rfl,
      rfl, rfl⟩
  obtain ⟨x, x', hx, heffects, hreturn, hresponse⟩ := hserver
  obtain ⟨y, y', hbuf, hy, hmat⟩ := hclient
  have hcall : ServerProtocol.Execution greyCv Sequential newServer
      (accept greyServer 0 (.addFrames [pixel, pixel])) :=
    .step greyServer_execution (e := .call 0 _) greyServer_rest rfl
  exact .mk x x' 0 0 _ _ (hcall.append (by simp [ServerBatches.Sequential]) hx)
    heffects hreturn hresponse rfl y y' _ _ hbuf rfl hy hmat

theorem grey_locallyProcessed :
    LocallyProcessed greyCv [.grayscale] pixel ⟨1, 1, 1, [77]⟩ := by
  have hrun : ∃ z : Session Mat, TransitionSystems.runEvents
        (EffectThreadLine.next greyCv.applyTo) ⟨greyServer.world, 0⟩ (.produce pixel ::
          (List.replicate 7 (.thread 1) ++ List.replicate 7 (.thread 2))) = some z ∧
      acceptedAt 0 z.world.log = [⟨0, pixel⟩] ∧
      acceptedAt 1 z.world.log = [⟨0, ⟨1, 1, 1, [77]⟩⟩] :=
    ⟨_, rfl, rfl, rfl⟩
  obtain ⟨z, hz, hin, hout⟩ := hrun
  have hinv := sequential_invariant greyServer_execution
  obtain ⟨hserving, hquiet⟩ := hinv.phase.resting_of_rest greyServer_rest
  exact .mk greyServer.world (serving_running hserving hinv.coherent) hquiet.items hquiet.hands
    rfl rfl z (.append .refl (by simp) hz) ⟨0, pixel⟩ ⟨0, ⟨1, 1, 1, [77]⟩⟩
    (hin ▸ List.mem_singleton_self _) (hout ▸ List.mem_singleton_self _) rfl rfl rfl

end Samples

end Offloading
