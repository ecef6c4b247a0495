import VideoEditorOffloading.PipelineObjects
import VideoEditorOffloading.SeamWalk

/-! # The effects on the pixels of a frame

`applyTo` of the effect classes, over the functions of OpenCV they call, and one frame on its way
through a list of effects. A carving is one run of `removeLeastImportantPath` that returned an
image. -/
namespace ImageEffects

open PipelineObjects CheckedArrays LayeredPaths SeamCarve SeamCosts SeamRemoval SeamWalk

inductive ColorCode where
  | RGBA2RGB
  | RGBA2GRAY
  | RGB2RGBA
  | RGB2HSV
  | HSV2RGB
  | BGR2GRAY
  | BGR2BGRA
  | BGRA2BGR
  | BGRA2GRAY
  | BGRA2RGBA
  | GRAY2BGR
  | GRAY2RGBA
  | GRAY2BGRA
  deriving DecidableEq, Repr

def ColorCode.channels : ColorCode → ℕ
  | .RGBA2RGB | .RGB2HSV | .HSV2RGB | .BGRA2BGR | .GRAY2BGR => 3
  | .RGBA2GRAY | .BGR2GRAY | .BGRA2GRAY => 1
  | .RGB2RGBA | .BGR2BGRA | .BGRA2RGBA | .GRAY2RGBA | .GRAY2BGRA => 4

structure ShortMat where
  rows : ℕ
  cols : ℕ
  data : List Int16
  size_eq : data.length = rows * cols
  fits : rows * cols < 2 ^ 31

abbrev Size := ℕ × ℕ
abbrev Point := ℚ × ℚ
abbrev Scalar := ℕ × ℕ × ℕ

/-- What the effects use of `Imgproc` and `Core`. A conversion from four channels takes matrices
with three as well. -/
structure Imgproc where
  cvtColor : ByteMat → ColorCode → ByteMat
  blur : ByteMat → Size → ByteMat
  GaussianBlur : ByteMat → Size → ℚ → ℚ → ByteMat
  Canny : ByteMat → ℚ → ℚ → ByteMat
  Sobel : ByteMat → ℕ → ℕ → ShortMat
  pyrMeanShiftFiltering : ByteMat → ℚ → ℚ → ByteMat
  HoughCircles : ByteMat → ℚ → ℕ → ℚ → ℚ → ℕ → ℕ → List (ℚ × ℚ × ℚ)
  HoughLinesP : ByteMat → ℚ → ℚ → ℕ → ℚ → ℚ → List (ℚ × ℚ × ℚ × ℚ)
  circle : ByteMat → ℤ × ℤ → ℤ → Scalar → ℤ → ByteMat
  line : ByteMat → Point → Point → Scalar → ℤ → ByteMat
  flip : ByteMat → ℤ → ByteMat
  subtract : ByteMat → ByteMat → ByteMat
  absdiff : ByteMat → ByteMat → ByteMat
  transform : ByteMat → List ℚ → ByteMat
  convertScaleAbs : FloatMat → ByteMat
  convertTo8U : FloatMat → ByteMat
  sqrt : ℚ → ℚ
  pi : ℚ

section Matrices

theorem ByteMat.size_lt (m : ByteMat) : m.rows * m.cols < 2 ^ 31 :=
  (Nat.le_mul_of_pos_right _ (by decide)).trans_lt m.fits

/-- `Mat.zeros(size, CvType.CV_32FC1)` for the size of an image. -/
def zeros (m : ByteMat) : FloatMat :=
  ⟨m.rows, m.cols, List.replicate (m.rows * m.cols) 0, List.length_replicate, ByteMat.size_lt m⟩

/-- `new Mat(size, CvType.CV_8UC1)`. What it holds is not specified. -/
def newGrey (m : ByteMat) : ByteMat :=
  ⟨m.rows, m.cols, 1, List.replicate (m.rows * m.cols * 1) 0, by decide, List.length_replicate,
    m.fits⟩

def ShortMat.convertTo32F (m : ShortMat) : FloatMat :=
  ⟨m.rows, m.cols, m.data.map fun d => (d.toInt : ℚ), by rw [List.length_map, m.size_eq], m.fits⟩

def accumulateSquare (src dst : FloatMat) : Option FloatMat :=
  if h : src.rows = dst.rows ∧ src.cols = dst.cols then
    some { dst with
      data := List.zipWith (fun x y => y + x * x) src.data dst.data
      size_eq := by rw [List.length_zipWith, src.size_eq, dst.size_eq, h.1, h.2, Nat.min_self] }
  else none

/-- `Imgproc.accumulateWeighted`, for a matrix with one channel. -/
def accumulateWeighted (src : ByteMat) (dst : FloatMat) (alpha : ℚ) : Option FloatMat :=
  if h : src.rows = dst.rows ∧ src.cols = dst.cols ∧ src.channels = 1 then
    some { dst with
      data := List.zipWith (fun x y => (1 - alpha) * y + alpha * (unsigned x : ℚ)) src.data dst.data
      size_eq := by
        rw [List.length_zipWith, src.size_eq, dst.size_eq, h.1, h.2.1, h.2.2, Nat.mul_one,
          Nat.min_self] }
  else none

def FloatMat.sqrt (cv : Imgproc) (mag : FloatMat) : FloatMat :=
  { mag with data := mag.data.map cv.sqrt, size_eq := by rw [List.length_map, mag.size_eq] }

def bitwise_not (m : ByteMat) : ByteMat :=
  { m with data := m.data.map (~~~ ·), size_eq := by rw [List.length_map, m.size_eq] }

end Matrices

section Effects

variable (cv : Imgproc)

def blur (frame : ByteMat) : ByteMat := cv.blur frame (50, 50)

/-- The result is the conversion of the frame itself: the last call overwrites the matrix whose
hues have been set. -/
def colorSaturation (frame : ByteMat) : Option ByteMat := do
  let newFrame := cv.cvtColor frame .RGBA2RGB
  let newFrame := cv.cvtColor newFrame .RGB2HSV
  let size := newFrame.rows * newFrame.cols * newFrame.channels
  let buff := copyInto newFrame.data (List.replicate size 0)
  let buff ← forUp 0 ((size + 2) / 3) buff fun buff i => set buff (3 * i) 90
  let newFrame := newFrame.put buff
  let _ := cv.cvtColor newFrame .HSV2RGB
  return cv.cvtColor frame .RGB2RGBA

def drawing (frame : ByteMat) : ByteMat :=
  let bgr := cv.cvtColor frame .BGRA2BGR
  let bgr := cv.pyrMeanShiftFiltering bgr 10 35
  let gray := cv.cvtColor frame .BGRA2GRAY
  let edges := cv.Canny gray 150 150
  let edgesBgr := cv.cvtColor edges .GRAY2BGR
  let bgr := cv.subtract bgr edgesBgr
  cv.cvtColor bgr .BGR2BGRA

def edgeDetection (frame : ByteMat) : ByteMat :=
  cv.cvtColor (cv.Canny frame 80 100) .GRAY2BGRA

/-- `SeamCarveEffect.computeGradientMagnitude`, and the same lines in `GradientMagnitudeEffect`. -/
def computeGradientMagnitude (frame : ByteMat) : Option FloatMat := do
  let grayScale := cv.cvtColor frame .RGBA2GRAY
  let mag := zeros grayScale
  let drv32f := (cv.Sobel grayScale 1 0).convertTo32F
  let mag ← accumulateSquare drv32f mag
  let drv32f := (cv.Sobel grayScale 0 1).convertTo32F
  let mag ← accumulateSquare drv32f mag
  return FloatMat.sqrt cv mag

def gradientMagnitude (frame : ByteMat) : Option ByteMat := do
  let mag ← computeGradientMagnitude cv frame
  return cv.cvtColor (cv.convertTo8U mag) .GRAY2RGBA

def grayscale (frame : ByteMat) : ByteMat :=
  cv.cvtColor (cv.cvtColor frame .RGBA2GRAY) .GRAY2RGBA

def horizontalFlip (frame : ByteMat) : ByteMat := cv.flip frame 1

def verticalFlip (frame : ByteMat) : ByteMat := cv.flip frame 0

def round (x : ℚ) : ℤ := ⌊x + 1 / 2⌋

/-- The blurred grey image is overwritten by the edges of the frame. The circles are drawn into the
frame, which is then copied. -/
def houghCircle (frame : ByteMat) : ByteMat :=
  let newFrame := cv.cvtColor frame .BGR2GRAY
  let _ := cv.GaussianBlur newFrame (9, 9) 2 2
  let newFrame := cv.Canny frame 80 100
  let circles := cv.HoughCircles newFrame 1 (newFrame.rows / 8) 200 100 0 0
  circles.foldl (fun frame (x, y, radius) =>
    let frame := cv.circle frame (round x, round y) 3 (0, 255, 0) (-1)
    cv.circle frame (round x, round y) (round radius) (0, 0, 255) 3) frame

def houghLine (frame : ByteMat) : ByteMat :=
  let newFrame := cv.cvtColor frame .BGR2GRAY
  let _ := cv.GaussianBlur newFrame (9, 9) 2 2
  let newFrame := cv.Canny frame 80 100
  let lines := cv.HoughLinesP newFrame 1 (cv.pi / 180) 80 30 10
  lines.foldl (fun frame (x0, y0, x1, y1) => cv.line frame (x0, y0) (x1, y1) (0, 0, 255) 3) frame

def identity (frame : ByteMat) : ByteMat := frame

/-- The fields of a `MotionHistoryEffect`, which are null before its first frame. -/
structure History where
  greyImage : ByteMat
  movingAverage : FloatMat
  difference : ByteMat
  temp : ByteMat

def motionHistory (history : Option History) (frame : ByteMat) : Option (ByteMat × History) := do
  let history ← match history with
    | none =>
      let greyImage := newGrey frame
      some ⟨greyImage, zeros frame, greyImage, frame⟩
    | some history => do
      let greyImage := cv.cvtColor frame .RGBA2GRAY
      let movingAverage ← accumulateWeighted greyImage history.movingAverage (1 / 2)
      let temp := cv.convertScaleAbs movingAverage
      some ⟨greyImage, movingAverage, cv.absdiff greyImage temp, temp⟩
  return (cv.cvtColor history.difference .GRAY2RGBA, history)

def negative (frame : ByteMat) : ByteMat := bitwise_not (cv.cvtColor frame .RGBA2RGB)

def sepia_data : List ℚ :=
  [0.272, 0.534, 0.131, 0, 0.349, 0.686, 0.168, 0, 0.393, 0.769, 0.189, 0, 0, 0, 0, 1]

def sepia (frame : ByteMat) : ByteMat :=
  cv.cvtColor (cv.transform frame sepia_data) .BGRA2RGBA

/-- The two conversions to grey and back are overwritten by the third one. -/
def xray (frame : ByteMat) : ByteMat :=
  let newFrame := cv.cvtColor frame .RGBA2GRAY
  let _ := cv.cvtColor newFrame .GRAY2RGBA
  let newFrame := cv.cvtColor frame .RGBA2RGB
  bitwise_not newFrame

/-- What an effect returns, or `none` for an exception, and the carvings, input and output. -/
structure Outcome where
  image : Option ByteMat
  carvings : List (ByteMat × ByteMat) := []

def carveRounds (frame : ByteMat) : ℕ → ByteMat → List (ByteMat × ByteMat) → Outcome
  | 0, newFrame, carvings => ⟨some newFrame, carvings⟩
  | rounds + 1, newFrame, carvings =>
    match (computeGradientMagnitude cv newFrame).bind computePathIntensityMat with
    | none => ⟨none, carvings⟩
    | some none => ⟨some frame, carvings⟩
    | some (some pathIntensityMat) =>
      match removeLeastImportantPath newFrame pathIntensityMat with
      | none => ⟨none, carvings⟩
      | some none => ⟨some frame, carvings⟩
      | some (some (output, _)) => carveRounds frame rounds output (carvings ++ [(newFrame, output)])

def seamCarve (frame : ByteMat) : Outcome := carveRounds cv frame 10 frame []

end Effects

/-- An effect object. Only a `MotionHistoryEffect` has a history. -/
structure EffectObject where
  cls : EffectClass
  history : Option History := none

def EffectObject.applyTo (cv : Imgproc) (effect : EffectObject) (frame : ByteMat) : Outcome :=
  match effect.cls with
  | .blur => ⟨some (blur cv frame), []⟩
  | .colorSaturation => ⟨colorSaturation cv frame, []⟩
  | .drawing => ⟨some (drawing cv frame), []⟩
  | .edgeDetection => ⟨some (edgeDetection cv frame), []⟩
  | .gradientMagnitude => ⟨gradientMagnitude cv frame, []⟩
  | .grayscale => ⟨some (grayscale cv frame), []⟩
  | .horizontalFlip => ⟨some (horizontalFlip cv frame), []⟩
  | .houghCircle => ⟨some (houghCircle cv frame), []⟩
  | .houghLine => ⟨some (houghLine cv frame), []⟩
  | .identity => ⟨some (identity frame), []⟩
  | .motionHistory => ⟨(motionHistory cv effect.history frame).map (·.1), []⟩
  | .negative => ⟨some (negative cv frame), []⟩
  | .seamCarve => seamCarve cv frame
  | .sepia => ⟨some (sepia cv frame), []⟩
  | .verticalFlip => ⟨some (verticalFlip cv frame), []⟩
  | .xray => ⟨some (xray cv frame), []⟩

def through (cv : Imgproc) (effects : List EffectObject) (frame : ByteMat) : Option ByteMat :=
  effects.foldlM (fun image effect => (effect.applyTo cv image).image) frame

def carvings (cv : Imgproc) : List EffectObject → ByteMat → List (ByteMat × ByteMat)
  | [], _ => []
  | effect :: effects, frame =>
    (effect.applyTo cv frame).carvings ++
      match (effect.applyTo cv frame).image with
      | none => []
      | some image => carvings cv effects image

def SameSize (a b : ByteMat) : Prop := a.rows = b.rows ∧ a.cols = b.cols

def SameShape (a b : ByteMat) : Prop := SameSize a b ∧ a.channels = b.channels

structure ImgprocLaws (cv : Imgproc) : Prop where
  cvtColor_size : ∀ m code, SameSize (cv.cvtColor m code) m
  cvtColor_channels : ∀ m code, (cv.cvtColor m code).channels = code.channels
  blur : ∀ m size, SameShape (cv.blur m size) m
  flip : ∀ m axis, SameShape (cv.flip m axis) m
  circle : ∀ m center radius color thickness,
    SameShape (cv.circle m center radius color thickness) m
  line : ∀ m p q color thickness, SameShape (cv.line m p q color thickness) m
  Canny : ∀ m low high, SameSize (cv.Canny m low high) m
  Sobel : ∀ m dx dy, (cv.Sobel m dx dy).rows = m.rows ∧ (cv.Sobel m dx dy).cols = m.cols
  pyrMeanShiftFiltering : ∀ m sp sr, SameSize (cv.pyrMeanShiftFiltering m sp sr) m
  subtract : ∀ a b, SameSize (cv.subtract a b) a
  absdiff : ∀ a b, SameSize (cv.absdiff a b) a
  transform : ∀ m kernel, SameSize (cv.transform m kernel) m
  convertTo8U : ∀ m : FloatMat, m.rows * m.cols * 4 < 2 ^ 31 →
    (cv.convertTo8U m).rows = m.rows ∧ (cv.convertTo8U m).cols = m.cols
  sqrt_le : ∀ x, 0 ≤ x → cv.sqrt x ≤ x + 1

section Gradients

variable {cv : Imgproc}

def Bounded (m : FloatMat) (b : ℚ) : Prop := ∀ x ∈ m.data, 0 ≤ x ∧ x ≤ b

theorem zeros_bounded (m : ByteMat) : Bounded (zeros m) 0 := by
  intro x hx
  obtain rfl := List.eq_of_mem_replicate hx
  exact ⟨le_rfl, le_rfl⟩

theorem accumulateSquare_spec (src : ShortMat) {dst : FloatMat} {b : ℚ}
    (hrows : src.rows = dst.rows) (hcols : src.cols = dst.cols) (hdst : Bounded dst b) :
    ∃ m, accumulateSquare src.convertTo32F dst = some m ∧ m.rows = dst.rows ∧
      m.cols = dst.cols ∧ Bounded m (b + 2 ^ 30) := by
  refine ⟨_, dif_pos ⟨hrows, hcols⟩, rfl, rfl, ?_⟩
  intro x hx
  change x ∈ List.zipWith _ _ _ at hx
  rw [← List.map_uncurry_zip_eq_zipWith] at hx
  obtain ⟨⟨d, y⟩, hmem, rfl⟩ := List.mem_map.mp hx
  obtain ⟨hd, hy⟩ := List.of_mem_zip hmem
  obtain ⟨d, -, rfl⟩ := List.mem_map.mp hd
  obtain ⟨h0, hb⟩ := hdst y hy
  have hlow : (-2 ^ 15 : ℚ) ≤ d.toInt := by exact_mod_cast d.le_toInt
  have hhigh : (d.toInt : ℚ) ≤ 2 ^ 15 := by exact_mod_cast d.toInt_lt.le
  constructor
  · exact add_nonneg h0 (mul_self_nonneg _)
  · simp only [Function.uncurry]
    nlinarith

theorem computeGradientMagnitude_squares (hsize : ∀ m code, SameSize (cv.cvtColor m code) m)
    (hsobel : ∀ m dx dy, (cv.Sobel m dx dy).rows = m.rows ∧ (cv.Sobel m dx dy).cols = m.cols)
    (frame : ByteMat) :
    ∃ m, computeGradientMagnitude cv frame = some (FloatMat.sqrt cv m) ∧ m.rows = frame.rows ∧
      m.cols = frame.cols ∧ Bounded m (0 + 2 ^ 30 + 2 ^ 30) := by
  have hgrey := hsize frame .RGBA2GRAY
  obtain ⟨m₁, h₁, hr₁, hc₁, hb₁⟩ := accumulateSquare_spec
    (cv.Sobel (cv.cvtColor frame .RGBA2GRAY) 1 0) (hsobel _ 1 0).1 (hsobel _ 1 0).2
    (zeros_bounded (cv.cvtColor frame .RGBA2GRAY))
  obtain ⟨m₂, h₂, hr₂, hc₂, hb₂⟩ := accumulateSquare_spec
    (cv.Sobel (cv.cvtColor frame .RGBA2GRAY) 0 1) ((hsobel _ 0 1).1.trans hr₁.symm)
    ((hsobel _ 0 1).2.trans hc₁.symm) hb₁
  refine ⟨m₂, ?_, (hr₂.trans hr₁).trans hgrey.1, (hc₂.trans hc₁).trans hgrey.2, hb₂⟩
  exact Option.bind_eq_some_iff.mpr ⟨m₁, h₁, Option.bind_eq_some_iff.mpr ⟨m₂, h₂, rfl⟩⟩

theorem computeGradientMagnitude_spec (hcv : ImgprocLaws cv) (frame : ByteMat) :
    ∃ g, computeGradientMagnitude cv frame = some g ∧ g.rows = frame.rows ∧
      g.cols = frame.cols ∧ ∀ r c, g.at r c ≤ 2 ^ 31 + 1 := by
  obtain ⟨m, hm, hr, hc, hb⟩ :=
    computeGradientMagnitude_squares hcv.cvtColor_size hcv.Sobel frame
  refine ⟨FloatMat.sqrt cv m, hm, hr, hc, ?_⟩
  intro r c
  rw [FloatMat.at, List.getD_eq_getElem?_getD]
  cases hget : (FloatMat.sqrt cv m).data[c + r * (FloatMat.sqrt cv m).cols]? with
  | none => norm_num
  | some x =>
    obtain ⟨y, hy, rfl⟩ := List.mem_map.mp (List.mem_of_getElem? hget)
    obtain ⟨h0, hle⟩ := hb y hy
    have := hcv.sqrt_le y h0
    rw [Option.getD_some]
    linarith

/-- The energies of one frame are far too small to add up to `Float.MAX_VALUE`. -/
theorem gradient_representable (hcv : ImgprocLaws cv) {frame : ByteMat} {g : FloatMat}
    (hg : computeGradientMagnitude cv frame = some g) : Representable g.at g.cols g.rows := by
  obtain ⟨g', hg', hr, hc, hbound⟩ := computeGradientMagnitude_spec hcv frame
  obtain rfl := Option.some.inj (hg.symm.trans hg')
  rcases Nat.eq_zero_or_pos g.cols with h0 | hpos
  · intro r _ s hs
    have := hs.inside 0 (Nat.zero_le r)
    rw [h0] at this
    exact absurd this (Nat.not_lt_zero _)
  · have hfew : (g.rows : ℚ) ≤ 2 ^ 31 := by
      have h1 := Nat.le_mul_of_pos_right g.rows hpos
      exact_mod_cast (h1.trans g.fits.le)
    apply representable_of_le (by norm_num) (fun r _ c _ => hbound r c)
    calc (g.rows : ℚ) * (2 ^ 31 + 1) ≤ 2 ^ 31 * (2 ^ 31 + 1) := by gcongr
      _ < MAX_VALUE := by rw [MAX_VALUE]; norm_num

end Gradients

section Carvings

variable {cv : Imgproc}

def ByteMat.byte (m : ByteMat) (r c k : ℕ) : Int8 := pixelByte m.data m.cols m.channels r c k

/-- The output has the format of the input, and each row has lost one pixel; only the neighbours of
that pixel may have changed. -/
structure Carved (input output : ByteMat) : Prop where
  channels : output.channels = input.channels
  rows : output.rows = input.rows
  cols : output.cols + 1 = input.cols
  seam : ∃ s : ℕ → ℕ, ∀ r < input.rows, s r < input.cols ∧ ∀ c < output.cols,
    ∀ k < input.channels,
      (c + 1 < s r → ByteMat.byte output r c k = ByteMat.byte input r c k) ∧
        (s r < c → ByteMat.byte output r c k = ByteMat.byte input r (c + 1) k)

theorem carve_sheltered {newFrame : ByteMat} {g : FloatMat}
    (hg : computeGradientMagnitude cv newFrame = some g) (hgr : g.rows = newFrame.rows)
    (hgc : g.cols = newFrame.cols) (hrows : 1 ≤ newFrame.rows) (hcols : 1 ≤ newFrame.cols)
    (hch : 3 ≤ newFrame.channels)
    (hsafe : ∀ map, computePathIntensityMat g = some (some map) → Sheltered map) :
    ∃ map output removed,
      (computeGradientMagnitude cv newFrame).bind computePathIntensityMat = some (some map) ∧
      removeLeastImportantPath newFrame map = some (some (output, removed)) ∧
      output.rows = newFrame.rows ∧ output.cols = newFrame.cols - 1 ∧ output.channels = 4 ∧
      (newFrame.channels = 4 → Carved newFrame output) := by
  obtain ⟨map, hmap, hr, hc, -⟩ :=
    computePathIntensityMat_bordered (hgr ▸ hrows) (hgc ▸ hcols)
  obtain ⟨s, output, hremove, hs, hor, hoc, hoch, hcarved⟩ := removeLeastImportantPath_spec newFrame
    map (hr.trans hgr) (hc.trans hgc) hrows hcols hch (hsafe map hmap)
  refine ⟨map, output, _, by rw [hg, Option.bind_some, hmap], hremove, hor, hoc, hoch, ?_⟩
  intro h4
  rw [h4] at hcarved
  have hseam := hcarved.seamRemoved
  rw [Nat.sub_add_cancel hcols] at hseam
  refine ⟨hoch.trans h4.symm, hor, by omega, s, ?_⟩
  intro r hlt
  constructor
  · rw [← hgc, ← hc]
    exact hs.lt r (by omega)
  · intro c hlt' k hk
    rw [ByteMat.byte, ByteMat.byte, ByteMat.byte, h4, hoch, hoc]
    rw [hoc] at hlt'
    rw [h4] at hk
    exact ⟨fun hleft => hseam.left r hlt c hlt' hleft k hk,
      fun hright => hseam.right r hlt c hlt' hright k hk⟩

theorem sheltered_of_representable {g map : FloatMat}
    (hrep : Representable g.at g.cols g.rows)
    (hmap : computePathIntensityMat g = some (some map)) : Sheltered map := by
  obtain ⟨-, -, hr, hc, hcost⟩ := computePathIntensityMat_some hmap
  apply sheltered_of_le
  intro r hlt c hlt'
  rw [hcost r hlt c hlt', hrep.borderedCost_eq (hr ▸ hlt) (hc ▸ hlt')]
  exact (hrep.pathCost_lt (hr ▸ hlt) (hc ▸ hlt')).le

theorem carve_round (hcv : ImgprocLaws cv) {newFrame : ByteMat} (hrows : 1 ≤ newFrame.rows)
    (hcols : 1 ≤ newFrame.cols) (hch : 3 ≤ newFrame.channels) :
    ∃ map output removed,
      (computeGradientMagnitude cv newFrame).bind computePathIntensityMat = some (some map) ∧
      removeLeastImportantPath newFrame map = some (some (output, removed)) ∧
      output.rows = newFrame.rows ∧ output.cols = newFrame.cols - 1 ∧ output.channels = 4 ∧
      (newFrame.channels = 4 → Carved newFrame output) := by
  obtain ⟨g, hg, hgr, hgc, -⟩ := computeGradientMagnitude_spec hcv newFrame
  exact carve_sheltered hg hgr hgc hrows hcols hch fun map hmap =>
    sheltered_of_representable (gradient_representable hcv hg) hmap

theorem carveRounds_spec (hcv : ImgprocLaws cv) (frame : ByteMat) (rounds : ℕ)
    {newFrame : ByteMat} (done : List (ByteMat × ByteMat)) (hrows : 1 ≤ newFrame.rows)
    (hcols : rounds ≤ newFrame.cols) (hch : newFrame.channels = 4) :
    ∃ image more, carveRounds cv frame rounds newFrame done = ⟨some image, done ++ more⟩ ∧
      image.rows = newFrame.rows ∧ image.channels = 4 ∧ ∀ p ∈ more, Carved p.1 p.2 := by
  induction rounds generalizing newFrame done with
  | zero =>
    refine ⟨newFrame, [], ?_, rfl, hch, fun p hp => absurd hp List.not_mem_nil⟩
    rw [carveRounds, List.append_nil]
  | succ rounds ih =>
    obtain ⟨map, output, removed, hmap, hremove, hor, hoc, hoch, hcarved⟩ :=
      carve_round hcv hrows (by omega) (by omega)
    obtain ⟨image, more, hrest, hir, hich, hall⟩ :=
      ih (done ++ [(newFrame, output)]) (by omega) (by omega) hoch
    refine ⟨image, (newFrame, output) :: more, ?_, hir.trans hor, hich, ?_⟩
    · rw [carveRounds, hmap]
      simp only [hremove, hrest, List.append_assoc, List.singleton_append]
    · rw [List.forall_mem_cons]
      exact ⟨hcarved hch, hall⟩

/-- The rounds on a frame of ten columns or more: all carvings are right exactly if the frame has
four channels. -/
theorem seamCarve_spec (hcv : ImgprocLaws cv) {frame : ByteMat} (hrows : 1 ≤ frame.rows)
    (hcols : 10 ≤ frame.cols) (hch : 3 ≤ frame.channels) :
    ∃ image carvings, seamCarve cv frame = ⟨some image, carvings⟩ ∧ image.rows = frame.rows ∧
      image.channels = 4 ∧ ((∀ p ∈ carvings, Carved p.1 p.2) ↔ frame.channels = 4) := by
  obtain ⟨map, output, removed, hmap, hremove, hor, hoc, hoch, hcarved⟩ :=
    carve_round hcv hrows (by omega) hch
  obtain ⟨image, more, hrest, hir, hich, hall⟩ :=
    carveRounds_spec hcv frame 9 [(frame, output)] (by omega) (by omega) hoch
  refine ⟨image, (frame, output) :: more, ?_, hir.trans hor, hich, ?_⟩
  · rw [seamCarve, carveRounds, hmap]
    simp only [hremove, List.nil_append, hrest, List.singleton_append]
  · rw [List.forall_mem_cons]
    constructor
    · rintro ⟨hfirst, -⟩
      exact hfirst.channels.symm.trans hoch
    · intro h4
      exact ⟨hcarved h4, hall⟩

theorem seamCarve_empty (hcv : ImgprocLaws cv) {frame : ByteMat} (hrows : frame.rows = 0) :
    seamCarve cv frame = ⟨some frame, []⟩ := by
  obtain ⟨g, hg, hgr, -, -⟩ := computeGradientMagnitude_spec hcv frame
  have hempty : g.rows * g.cols = 0 := by rw [hgr, hrows, Nat.zero_mul]
  rw [seamCarve, carveRounds, hg, Option.bind_some, computePathIntensityMat_empty hempty]

end Carvings

section Stages

variable {cv : Imgproc} {effect : EffectObject} {frame image : ByteMat}

def channelsAfter : EffectClass → ℕ → ℕ
  | .negative, _ | .xray, _ => 3
  | .blur, n | .horizontalFlip, n | .verticalFlip, n | .houghCircle, n | .houghLine, n
  | .identity, n => n
  | _, _ => 4

theorem sameShape_foldl {α : Type} (f : ByteMat → α → ByteMat)
    (hf : ∀ m x, SameShape (f m x) m) (l : List α) (m : ByteMat) :
    SameShape (l.foldl f m) m := by
  induction l generalizing m with
  | nil => exact ⟨⟨rfl, rfl⟩, rfl⟩
  | cons x l ih =>
    obtain ⟨⟨h1, h2⟩, h3⟩ := ih (f m x)
    obtain ⟨⟨h4, h5⟩, h6⟩ := hf m x
    exact ⟨⟨h1.trans h4, h2.trans h5⟩, h3.trans h6⟩

theorem cvtColor_shape (hcv : ImgprocLaws cv) {m : ByteMat} (hsize : SameSize m frame)
    (code : ColorCode) :
    SameSize (cv.cvtColor m code) frame ∧ (cv.cvtColor m code).channels = code.channels := by
  obtain ⟨h1, h2⟩ := hcv.cvtColor_size m code
  exact ⟨⟨h1.trans hsize.1, h2.trans hsize.2⟩, hcv.cvtColor_channels m code⟩

theorem SameSize.trans {a b c : ByteMat} (h : SameSize a b) (h' : SameSize b c) : SameSize a c :=
  ⟨h.1.trans h'.1, h.2.trans h'.2⟩

theorem motionHistory_shape (hcv : ImgprocLaws cv) {history : Option History}
    {result : ByteMat × History} (h : motionHistory cv history frame = some result) :
    SameSize result.1 frame ∧ result.1.channels = 4 := by
  cases history with
  | none =>
    obtain rfl := Option.some.inj h
    exact cvtColor_shape hcv ⟨rfl, rfl⟩ .GRAY2RGBA
  | some history =>
    obtain ⟨movingAverage, -, hnext⟩ := Option.bind_eq_some_iff.mp h
    obtain rfl := Option.some.inj hnext
    exact cvtColor_shape hcv ((hcv.absdiff _ _).trans (hcv.cvtColor_size _ _)) .GRAY2RGBA

theorem gradientMagnitude_shape (hcv : ImgprocLaws cv)
    (h : gradientMagnitude cv frame = some image) : SameSize image frame ∧ image.channels = 4 := by
  obtain ⟨mag, hmag, himage⟩ := Option.bind_eq_some_iff.mp h
  obtain rfl := Option.some.inj himage
  obtain ⟨g, hg, hr, hc, -⟩ := computeGradientMagnitude_spec hcv frame
  obtain rfl := Option.some.inj (hmag.symm.trans hg)
  have hsize := hcv.convertTo8U mag (by rw [hr, hc]; exact frame.fits)
  exact cvtColor_shape hcv ⟨hsize.1.trans hr, hsize.2.trans hc⟩ .GRAY2RGBA

theorem applyTo_shape (hcv : ImgprocLaws cv) (hcls : effect.cls ≠ .seamCarve)
    (h : (effect.applyTo cv frame).image = some image) :
    SameSize image frame ∧ image.channels = channelsAfter effect.cls frame.channels := by
  have hself : SameSize frame frame := ⟨rfl, rfl⟩
  cases hc : effect.cls <;> simp only [EffectObject.applyTo, hc] at h
  case seamCarve => exact absurd hc hcls
  case colorSaturation =>
    obtain ⟨buff, -, himage⟩ := Option.bind_eq_some_iff.mp h
    obtain rfl := Option.some.inj himage
    exact cvtColor_shape hcv hself .RGB2RGBA
  case gradientMagnitude => exact gradientMagnitude_shape hcv h
  case motionHistory =>
    obtain ⟨result, hresult, rfl⟩ := Option.map_eq_some_iff.mp h
    exact motionHistory_shape hcv hresult
  all_goals obtain rfl := Option.some.inj h
  case blur => exact hcv.blur frame (50, 50)
  case drawing =>
    have hbgr : SameSize (cv.pyrMeanShiftFiltering (cv.cvtColor frame .BGRA2BGR) 10 35) frame :=
      (hcv.pyrMeanShiftFiltering _ _ _).trans (hcv.cvtColor_size _ _)
    exact cvtColor_shape hcv ((hcv.subtract _ _).trans hbgr) .BGR2BGRA
  case edgeDetection => exact cvtColor_shape hcv (hcv.Canny _ _ _) .GRAY2BGRA
  case grayscale => exact cvtColor_shape hcv (hcv.cvtColor_size _ _) .GRAY2RGBA
  case horizontalFlip => exact hcv.flip frame 1
  case verticalFlip => exact hcv.flip frame 0
  case houghCircle =>
    refine sameShape_foldl _ ?_ _ _
    rintro m ⟨x, y, radius⟩
    have hcircle := hcv.circle m (round x, round y) 3 (0, 255, 0) (-1)
    have hcircle' := hcv.circle (cv.circle m (round x, round y) 3 (0, 255, 0) (-1))
      (round x, round y) (round radius) (0, 0, 255) 3
    exact ⟨hcircle'.1.trans hcircle.1, hcircle'.2.trans hcircle.2⟩
  case houghLine =>
    refine sameShape_foldl _ ?_ _ _
    rintro m ⟨x0, y0, x1, y1⟩
    exact hcv.line m (x0, y0) (x1, y1) (0, 0, 255) 3
  case identity => exact ⟨hself, rfl⟩
  case negative => exact cvtColor_shape hcv hself .RGBA2RGB
  case sepia => exact cvtColor_shape hcv (hcv.transform _ _) .BGRA2RGBA
  case xray => exact cvtColor_shape hcv hself .RGBA2RGB

theorem applyTo_carvings (hcls : effect.cls ≠ .seamCarve) :
    (effect.applyTo cv frame).carvings = [] := by
  cases hc : effect.cls <;> simp only [EffectObject.applyTo, hc]
  exact absurd hc hcls

end Stages

section Lists

variable {cv : Imgproc} {effects : List EffectObject} {frame : ByteMat}

theorem forall_split_cons {α : Type} {P : List α → α → Prop} {x : α} {l : List α} :
    (∀ pre y post, x :: l = pre ++ y :: post → P pre y) ↔
      P [] x ∧ ∀ pre y post, l = pre ++ y :: post → P (x :: pre) y := by
  constructor
  · intro h
    refine ⟨h [] x l rfl, fun pre y post heq => h (x :: pre) y post ?_⟩
    rw [heq, List.cons_append]
  · rintro ⟨hfirst, hrest⟩ pre y post heq
    cases pre with
    | nil =>
      obtain ⟨rfl, -⟩ := List.cons.inj heq
      exact hfirst
    | cons z pre =>
      obtain ⟨rfl, htail⟩ := List.cons.inj heq
      exact hrest pre y post htail

def channelsThrough (effects : List EffectObject) (channels : ℕ) : ℕ :=
  effects.foldl (fun n effect => channelsAfter effect.cls n) channels

/-- The frame is at least 11 pixels wide wherever it gets to a `SeamCarveEffect`. -/
def WideEnough (cv : Imgproc) (effects : List EffectObject) (frame : ByteMat) : Prop :=
  ∀ pre effect post, effects = pre ++ effect :: post → effect.cls = .seamCarve →
    ∀ image, through cv pre frame = some image → 11 ≤ image.cols

/-- The frame has four channels wherever it gets to a `SeamCarveEffect`: behind the last
`NegativeEffect` or `XrayEffect` before it stands an effect that converts to four channels. -/
def AlphaAtCarving (cv : Imgproc) (effects : List EffectObject) (frame : ByteMat) : Prop :=
  ∀ pre effect post, effects = pre ++ effect :: post → effect.cls = .seamCarve →
    (through cv pre frame).isSome → channelsThrough pre frame.channels = 4

theorem three_le_channelsAfter (cls : EffectClass) {n : ℕ} (hn : 3 ≤ n) :
    3 ≤ channelsAfter cls n := by
  rw [channelsAfter.eq_def]
  split <;> omega

theorem through_cons {effect : EffectObject} {image : ByteMat}
    (h : (effect.applyTo cv frame).image = some image) (pre : List EffectObject) :
    through cv (effect :: pre) frame = through cv pre image := by
  rw [through, List.foldlM_cons, h]
  rfl

theorem through_cons_none {effect : EffectObject} (h : (effect.applyTo cv frame).image = none)
    (pre : List EffectObject) : through cv (effect :: pre) frame = none := by
  rw [through, List.foldlM_cons, h]
  rfl

theorem carvings_empty (hcv : ImgprocLaws cv) (hrows : frame.rows = 0) :
    carvings cv effects frame = [] := by
  induction effects generalizing frame with
  | nil => rfl
  | cons effect effects ih =>
    by_cases hcls : effect.cls = .seamCarve
    · rw [carvings, EffectObject.applyTo, hcls]
      simp only [seamCarve_empty hcv hrows, List.nil_append]
      exact ih hrows
    · rw [carvings, applyTo_carvings hcls, List.nil_append]
      split
      · rfl
      · rename_i image himage
        exact ih ((applyTo_shape hcv hcls himage).1.1.trans hrows)

theorem carvings_carved_iff (hcv : ImgprocLaws cv) (hrows : 1 ≤ frame.rows)
    (hch : 3 ≤ frame.channels) (hwide : WideEnough cv effects frame) :
    (∀ p ∈ carvings cv effects frame, Carved p.1 p.2) ↔ AlphaAtCarving cv effects frame := by
  induction effects generalizing frame with
  | nil =>
    refine iff_of_true (fun p hp => absurd hp List.not_mem_nil) ?_
    intro pre effect post heq
    exact absurd heq (by simp)
  | cons effect effects ih =>
    rw [carvings, List.forall_mem_append, AlphaAtCarving, forall_split_cons]
    rw [WideEnough, forall_split_cons] at hwide
    have hnext : ∀ image, (effect.applyTo cv frame).image = some image →
        1 ≤ image.rows → 3 ≤ image.channels →
        image.channels = channelsAfter effect.cls frame.channels →
        ((∀ p ∈ carvings cv effects image, Carved p.1 p.2) ↔
          ∀ pre e post, effects = pre ++ e :: post → e.cls = .seamCarve →
            (through cv (effect :: pre) frame).isSome →
            channelsThrough (effect :: pre) frame.channels = 4) := by
      intro image himage hr hc hafter
      have hwide' : WideEnough cv effects image := by
        intro pre e post heq hcls image' hthrough
        exact hwide.2 pre e post heq hcls image' ((through_cons himage pre).trans hthrough)
      rw [ih hr hc hwide', AlphaAtCarving]
      simp only [through_cons himage, channelsThrough, List.foldl_cons, hafter]
    by_cases hcls : effect.cls = .seamCarve
    · obtain ⟨image, done, hseam, hr, hc, hiff⟩ := seamCarve_spec hcv hrows
        (by have := hwide.1 hcls frame rfl; omega) hch
      have happly : effect.applyTo cv frame = ⟨some image, done⟩ := by
        rw [EffectObject.applyTo, hcls]
        exact hseam
      have hrest := hnext image (by rw [happly]) (by omega) (by omega) (by rw [hc, hcls]; rfl)
      rw [happly]
      refine and_congr ?_ hrest
      rw [hiff]
      exact ⟨fun h _ _ => h, fun h => h hcls rfl⟩
    · rw [applyTo_carvings hcls]
      refine and_congr ?_ ?_
      · exact iff_of_true (fun p hp => absurd hp List.not_mem_nil) fun h => absurd h hcls
      · cases himage : (effect.applyTo cv frame).image with
        | none =>
          refine iff_of_true (fun p hp => absurd hp List.not_mem_nil) ?_
          intro pre e post _ _ hsome
          rw [through_cons_none himage] at hsome
          exact absurd hsome (by decide)
        | some image =>
          obtain ⟨hsize, hafter⟩ := applyTo_shape hcv hcls himage
          refine hnext image himage (by rw [hsize.1]; exact hrows) ?_ hafter
          rw [hafter]
          exact three_le_channelsAfter _ hch

end Lists

section Results

def black (m : ByteMat) (channels : ℕ) (h : channels ≤ 4) : ByteMat :=
  ⟨m.rows, m.cols, channels, List.replicate (m.rows * m.cols * channels) 0, h,
    List.length_replicate, m.fits⟩

/-- OpenCV on images whose bytes are all 0: they stay so, and there is nothing to detect. -/
def blackCv : Imgproc where
  cvtColor := fun m code => black m code.channels (by cases code <;> decide)
  blur := fun m _ => m
  GaussianBlur := fun m _ _ _ => m
  Canny := fun m _ _ => black m 1 (by decide)
  Sobel := fun m _ _ =>
    ⟨m.rows, m.cols, List.replicate (m.rows * m.cols) 0, List.length_replicate, ByteMat.size_lt m⟩
  pyrMeanShiftFiltering := fun m _ _ => m
  HoughCircles := fun _ _ _ _ _ _ _ => []
  HoughLinesP := fun _ _ _ _ _ _ => []
  circle := fun m _ _ _ _ => m
  line := fun m _ _ _ _ => m
  flip := fun m _ => m
  subtract := fun a _ => a
  absdiff := fun a _ => a
  transform := fun m _ => m
  convertScaleAbs := fun m =>
    if h : m.rows * m.cols * 4 < 2 ^ 31 then
      ⟨m.rows, m.cols, 1, List.replicate (m.rows * m.cols * 1) 0, by decide, List.length_replicate,
        h⟩
    else ⟨0, 0, 1, [], by decide, rfl, by decide⟩
  convertTo8U := fun m =>
    if h : m.rows * m.cols * 4 < 2 ^ 31 then
      ⟨m.rows, m.cols, 1, List.replicate (m.rows * m.cols * 1) 0, by decide, List.length_replicate,
        h⟩
    else ⟨0, 0, 1, [], by decide, rfl, by decide⟩
  sqrt := fun x => x
  pi := 355 / 113

theorem blackCv_laws : ImgprocLaws blackCv where
  cvtColor_size := fun _ _ => ⟨rfl, rfl⟩
  cvtColor_channels := fun _ _ => rfl
  blur := fun _ _ => ⟨⟨rfl, rfl⟩, rfl⟩
  flip := fun _ _ => ⟨⟨rfl, rfl⟩, rfl⟩
  circle := fun _ _ _ _ _ => ⟨⟨rfl, rfl⟩, rfl⟩
  line := fun _ _ _ _ _ => ⟨⟨rfl, rfl⟩, rfl⟩
  Canny := fun _ _ _ => ⟨rfl, rfl⟩
  Sobel := fun _ _ _ => ⟨rfl, rfl⟩
  pyrMeanShiftFiltering := fun _ _ _ => ⟨rfl, rfl⟩
  subtract := fun _ _ => ⟨rfl, rfl⟩
  absdiff := fun _ _ => ⟨rfl, rfl⟩
  transform := fun _ _ => ⟨rfl, rfl⟩
  convertTo8U := by
    intro m h
    simp only [blackCv, dif_pos h, and_self]
  sqrt_le := fun x _ => by
    change x ≤ x + 1
    linarith

def blackFrame : ByteMat :=
  { smallPicture with
    rows := 1
    cols := 11
    data := List.replicate 44 0
    size_eq := List.length_replicate
    fits := by decide }

theorem blackFrame_wide (cv : Imgproc) (hcv : ImgprocLaws cv) (cls : EffectClass)
    (hcls : cls ≠ .seamCarve) : WideEnough cv [⟨cls, none⟩, ⟨.seamCarve, none⟩] blackFrame := by
  rw [WideEnough, forall_split_cons, forall_split_cons]
  refine ⟨fun h => absurd h hcls, ?_, fun pre effect post h => absurd h (by simp)⟩
  intro _ image himage
  obtain ⟨next, hnext, heq⟩ := Option.bind_eq_some_iff.mp himage
  obtain rfl := Option.some.inj heq
  exact (applyTo_shape hcv hcls hnext).1.2.ge

end Results

end ImageEffects
