import VideoEditorOffloading.ImageEffects

/-! # The hue of a frame

`ColorSaturationEffect.applyTo` converts the frame to HSV, sets the hue of every pixel and converts
back to RGB. The last conversion reads `frame` where it should read `newFrame`. -/
namespace HueReplacement

open CheckedArrays SeamCarve SeamCosts SeamRemoval ImageEffects

def pixel (m : ByteMat) (r c : ℕ) : List Int8 := (List.range m.channels).map (ByteMat.byte m r c)

/-- Colour conversions treat each pixel on its own. -/
structure PixelLaws (cv : Imgproc) (convert : ColorCode → List Int8 → List Int8) : Prop where
  size : ∀ m code, SameSize (cv.cvtColor m code) m
  channels : ∀ m code, (cv.cvtColor m code).channels = code.channels
  pixel_eq : ∀ m code, 3 ≤ m.channels → ∀ r < m.rows, ∀ c < m.cols,
    pixel (cv.cvtColor m code) r c = convert code (pixel m r c)

/-- The conversions as documented, for bytes without a sign. What is not a whole number is rounded
somehow: by `saturation` to the saturation of a maximum and its distance from the minimum, by
`level` to the byte that a value and a saturation stand for. Hue 90 is cyan. -/
structure ColourLaws (convert : ColorCode → List Int8 → List Int8) (saturation level : ℤ → ℤ → ℤ) :
    Prop where
  RGBA2RGB : ∀ r g b a, convert .RGBA2RGB [r, g, b, a] = [r, g, b]
  RGB2RGBA : ∀ r g b, convert .RGB2RGBA [r, g, b] = [r, g, b, -1]
  RGBA2RGBA : ∀ r g b a, convert .RGB2RGBA [r, g, b, a] = [r, g, b, a]
  RGB2HSV : ∀ r g b, ∃ h s v, convert .RGB2HSV [r, g, b] = [h, s, v] ∧
    unsigned v = max (unsigned r) (max (unsigned g) (unsigned b)) ∧
    unsigned s =
      saturation (unsigned v) (unsigned v - min (unsigned r) (min (unsigned g) (unsigned b)))
  HSV2RGB : ∀ s v, ∃ r, convert .HSV2RGB [90, s, v] = [r, v, v] ∧
    unsigned r = level (unsigned v) (unsigned s)

/-- Both are rounded to the nearest byte: `255 * d / v` and `v * (1 - s / 255)`. -/
structure Nearest (saturation level : ℤ → ℤ → ℤ) : Prop where
  saturation_zero : saturation 0 0 = 0
  saturation_near : ∀ v d, 0 < v → v < 256 → 0 ≤ d → d ≤ v →
    |2 * (v * saturation v d) - 510 * d| ≤ v
  level_near : ∀ v s, 0 ≤ v → v < 256 → 0 ≤ s → s < 256 →
    |510 * level v s - 2 * (v * (255 - s))| ≤ 255

def CyanOrGrey (p : List Int8) (red value : Int8) : Prop :=
  p = [red, value, value, -1] ∧ unsigned red ≤ unsigned value

def hsv (convert : ColorCode → List Int8 → List Int8) (p : List Int8) : List Int8 :=
  convert .RGB2HSV (convert .RGBA2RGB p)

/-- What is to be shown in place of a pixel: its saturation and its value with hue 90. -/
def replaceHue (convert : ColorCode → List Int8 → List Int8) (p : List Int8) : List Int8 :=
  convert .RGB2RGBA (convert .HSV2RGB ((hsv convert p).set 0 90))

def HueReplaced (convert : ColorCode → List Int8 → List Int8) (frame image : ByteMat) : Prop :=
  SameSize image frame ∧ image.channels = 4 ∧
    ∀ r < frame.rows, ∀ c < frame.cols, pixel image r c = replaceHue convert (pixel frame r c)

/-- `newFrame` before the last line of `applyTo`. -/
def saturated (cv : Imgproc) (frame : ByteMat) : Option ByteMat := do
  let newFrame := cv.cvtColor frame .RGBA2RGB
  let newFrame := cv.cvtColor newFrame .RGB2HSV
  let size := newFrame.rows * newFrame.cols * newFrame.channels
  let buff := copyInto newFrame.data (List.replicate size 0)
  let buff ← forUp 0 ((size + 2) / 3) buff fun buff i => set buff (3 * i) 90
  let newFrame := newFrame.put buff
  return cv.cvtColor newFrame .HSV2RGB

theorem colorSaturation_eq (cv : Imgproc) (frame : ByteMat) :
    colorSaturation cv frame = (saturated cv frame).map fun _ => cv.cvtColor frame .RGB2RGBA := by
  simp only [colorSaturation, saturated, Option.bind_eq_bind, Option.map_bind]
  rfl

section Loop

theorem setHues_spec {data : List Int8} {n : ℕ} (hlen : data.length = n * 3) :
    ∃ b, forUp 0 ((data.length + 2) / 3) data (fun buff i => set buff (3 * i) 90) = some b ∧
      b.length = data.length ∧
      ∀ j < data.length, b.getD j 0 = if j % 3 = 0 then 90 else data.getD j 0 := by
  have hcount : (data.length + 2) / 3 = n := by omega
  have hstep : ∀ i b, 0 ≤ i → i < 0 + n →
      (b.length = data.length ∧
        ∀ j, b.getD j 0 = if j % 3 = 0 ∧ j < 3 * i then 90 else data.getD j 0) →
      ∃ b', set b (3 * (i : ℤ)) 90 = some b' ∧ b'.length = data.length ∧
        ∀ j, b'.getD j 0 = if j % 3 = 0 ∧ j < 3 * (i + 1) then 90 else data.getD j 0 := by
    rintro i b - hi ⟨hb, hbytes⟩
    have hlt : 3 * i < b.length := by omega
    refine ⟨b.set (3 * i) 90, ?_, ?_, ?_⟩
    · exact_mod_cast set_of_lt hlt 90
    · rw [List.length_set, hb]
    · intro j
      rw [getD_set hlt, hbytes j]
      by_cases hj : j = 3 * i
      · rw [if_pos hj, if_pos (by omega)]
      · rw [if_neg hj]
        congr 1
        simp only [eq_iff_iff]
        omega
  obtain ⟨b, hb, hlength, hbytes⟩ := forUp_spec (b := data)
    (fun i b => b.length = data.length ∧
      ∀ j, b.getD j 0 = if j % 3 = 0 ∧ j < 3 * i then 90 else data.getD j 0) n
    ⟨rfl, fun j => by rw [if_neg (by omega)]⟩ hstep
  refine ⟨b, hcount ▸ hb, hlength, ?_⟩
  intro j hj
  rw [hbytes j]
  congr 1
  simp only [eq_iff_iff]
  omega

end Loop

section Conversions

variable {cv : Imgproc} {convert : ColorCode → List Int8 → List Int8} {frame : ByteMat}

theorem length_pixel (m : ByteMat) (r c : ℕ) : (pixel m r c).length = m.channels := by
  rw [pixel, List.length_map, List.length_range]

theorem byte_index_lt {m : ByteMat} {r c k : ℕ} (hr : r < m.rows) (hc : c < m.cols)
    (hk : k < m.channels) : (r * m.cols + c) * m.channels + k < m.data.length := by
  rw [m.size_eq, Nat.add_comm _ k]
  apply index_lt _ hk
  rw [Nat.add_comm]
  exact index_lt hr hc

theorem pixel_put {m : ByteMat} {b : List Int8} (hm : m.channels = 3)
    (hlength : b.length = m.data.length)
    (hbytes : ∀ j < m.data.length, b.getD j 0 = if j % 3 = 0 then 90 else m.data.getD j 0)
    {r c : ℕ} (hr : r < m.rows) (hc : c < m.cols) :
    pixel (m.put b) r c = (pixel m r c).set 0 90 := by
  have hput : copyInto b m.data = b := copyInto_eq hlength
  have hbyte : ∀ k < 3, ByteMat.byte (m.put b) r c k =
      if k = 0 then 90 else ByteMat.byte m r c k := by
    intro k hk
    have hlt := byte_index_lt hr hc (hm ▸ hk)
    have hget := hbytes _ hlt
    rw [hm] at hget
    change (copyInto b m.data).getD ((r * m.cols + c) * m.channels + k) 0 = _
    rw [hput, ByteMat.byte, pixelByte, hm, hget]
    congr 1
    simp only [eq_iff_iff]
    omega
  have hrange : List.range 3 = [0, 1, 2] := rfl
  have hchannels : (m.put b).channels = 3 := hm
  simp only [pixel, hchannels, hm, hrange, List.map_cons, List.map_nil, List.set_cons_zero]
  rw [hbyte 0 (by omega), hbyte 1 (by omega), hbyte 2 (by omega)]
  simp

/-- Up to the last line all is well: `newFrame` holds the image in RGB. -/
theorem saturated_spec (hcv : PixelLaws cv convert) (hchannels : frame.channels = 4) :
    ∃ m, saturated cv frame = some m ∧ SameSize m frame ∧ m.channels = 3 ∧
      ∀ r < frame.rows, ∀ c < frame.cols,
        pixel m r c = convert .HSV2RGB ((hsv convert (pixel frame r c)).set 0 90) := by
  have hrgb := hcv.size frame .RGBA2RGB
  have hsize := (hcv.size (cv.cvtColor frame .RGBA2RGB) .RGB2HSV).trans hrgb
  have hch := hcv.channels (cv.cvtColor frame .RGBA2RGB) .RGB2HSV
  have hpixel : ∀ r < frame.rows, ∀ c < frame.cols,
      pixel (cv.cvtColor (cv.cvtColor frame .RGBA2RGB) .RGB2HSV) r c =
        hsv convert (pixel frame r c) := by
    intro r hr c hc
    rw [hcv.pixel_eq _ _ (hcv.channels frame .RGBA2RGB).ge r (hrgb.1 ▸ hr) c (hrgb.2 ▸ hc),
      hcv.pixel_eq frame _ (by omega) r hr c hc, hsv]
  simp only [saturated]
  generalize cv.cvtColor (cv.cvtColor frame .RGBA2RGB) .RGB2HSV = m at hsize hch hpixel ⊢
  have hm : m.channels = 3 := hch
  obtain ⟨b, hb, hlength, hbytes⟩ := setHues_spec (m.size_eq.trans (by rw [hm]))
  rw [m.size_eq] at hb
  have hback := hcv.size (m.put b) .HSV2RGB
  refine ⟨cv.cvtColor (m.put b) .HSV2RGB, ?_, hback.trans hsize, hcv.channels _ _, ?_⟩
  · rw [ByteMat.copyInto_data, hb]
    rfl
  · intro r hr c hc
    have hr' : r < m.rows := hsize.1 ▸ hr
    have hc' : c < m.cols := hsize.2 ▸ hc
    rw [hcv.pixel_eq (m.put b) _ hm.ge r hr' c hc', pixel_put hm hlength hbytes hr' hc',
      hpixel r hr c hc]

theorem hue_replaced_pixels (hcv : PixelLaws cv convert) (hchannels : frame.channels = 4) :
    (∃ image, colorSaturation cv frame = some image ∧ HueReplaced convert frame image) ↔
      ∀ r < frame.rows, ∀ c < frame.cols,
        convert .RGB2RGBA (pixel frame r c) = replaceHue convert (pixel frame r c) := by
  obtain ⟨m, hm, -, -, -⟩ := saturated_spec hcv hchannels
  have hresult : colorSaturation cv frame = some (cv.cvtColor frame .RGB2RGBA) := by
    rw [colorSaturation_eq, hm, Option.map_some]
  constructor
  · rintro ⟨image, himage, -, -, hpixel⟩ r hr c hc
    obtain rfl := Option.some.inj (hresult.symm.trans himage)
    rw [← hcv.pixel_eq frame _ (by omega) r hr c hc]
    exact hpixel r hr c hc
  · intro hall
    refine ⟨_, hresult, hcv.size _ _, hcv.channels _ _, ?_⟩
    intro r hr c hc
    rw [hcv.pixel_eq frame _ (by omega) r hr c hc]
    exact hall r hr c hc

theorem pixel_four {m : ByteMat} (hm : m.channels = 4) (r c : ℕ) :
    pixel m r c = [ByteMat.byte m r c 0, ByteMat.byte m r c 1, ByteMat.byte m r c 2,
      ByteMat.byte m r c 3] := by
  rw [pixel, hm]
  rfl

theorem unsigned_injective {x y : Int8} (h : unsigned x = unsigned y) : x = y := by
  apply Int8.toInt_inj.mp
  have hx := x.toInt_lt
  have hx' := x.le_toInt
  have hy := y.toInt_lt
  have hy' := y.le_toInt
  simp only [unsigned] at h
  split at h <;> split at h <;> omega

variable {saturation level : ℤ → ℤ → ℤ}

/-- The pixels that look the same with hue 90: the cyan ones and the grey ones, unless the two
roundings change how much red there is in them. -/
theorem replaceHue_eq_iff (hc : ColourLaws convert saturation level) (r g b a : Int8) :
    convert .RGB2RGBA [r, g, b, a] = replaceHue convert [r, g, b, a] ↔
      ∃ red value, CyanOrGrey [r, g, b, a] red value ∧
        level (unsigned value)
          (saturation (unsigned value) (unsigned value - unsigned red)) = unsigned red := by
  obtain ⟨h, s, v, hhsv, hv, hs⟩ := hc.RGB2HSV r g b
  obtain ⟨red, hrgb, hred⟩ := hc.HSV2RGB s v
  have hreplaced : replaceHue convert [r, g, b, a] = [red, v, v, -1] := by
    rw [replaceHue, hsv, hc.RGBA2RGB, hhsv, List.set_cons_zero, hrgb, hc.RGB2RGBA]
  rw [hc.RGBA2RGBA, hreplaced]
  constructor
  · intro heq
    simp only [List.cons.injEq, and_true] at heq
    obtain ⟨rfl, rfl, rfl, rfl⟩ := heq
    have hle : unsigned r ≤ unsigned b := by
      rw [hv]
      exact le_max_left _ _
    rw [min_self, min_eq_left hle] at hs
    exact ⟨r, _, ⟨rfl, hle⟩, by rw [← hs, ← hred]⟩
  · rintro ⟨red', value, ⟨hp, hle⟩, hlevel⟩
    simp only [List.cons.injEq, and_true] at hp
    obtain ⟨rfl, rfl, rfl, rfl⟩ := hp
    have hvalue : v = b := unsigned_injective (by rw [hv, max_self, max_eq_right hle])
    rw [hvalue, min_self, min_eq_left hle] at hs
    have hsame : red = r := unsigned_injective (by rw [hred, hvalue, hs, hlevel])
    rw [hvalue, hsame]

theorem Nearest.saturation_range (hn : Nearest saturation level) {v d : ℤ} (hlt : v < 256)
    (h0 : 0 ≤ d) (hle : d ≤ v) : 0 ≤ saturation v d ∧ saturation v d < 256 := by
  rcases (h0.trans hle).eq_or_lt with rfl | hpos
  · obtain rfl : d = 0 := le_antisymm hle h0
    rw [hn.saturation_zero]
    decide
  · have hnear := abs_le.mp (hn.saturation_near v d hpos hlt h0 hle)
    constructor
    · by_contra hneg
      have hprod : v * saturation v d ≤ v * (-1) := by gcongr; omega
      omega
    · by_contra hlarge
      have hprod : v * 256 ≤ v * saturation v d := by gcongr; omega
      omega

theorem Nearest.level_saturation (hn : Nearest saturation level) {red value : ℤ} (h0 : 0 ≤ red)
    (hle : red ≤ value) (hlt : value < 256) :
    level value (saturation value (value - red)) = red := by
  obtain ⟨hs0, hs1⟩ := hn.saturation_range hlt (by omega : 0 ≤ value - red) (by omega)
  have hlevel := abs_le.mp (hn.level_near value _ (h0.trans hle) hlt hs0 hs1)
  rw [mul_sub] at hlevel
  rcases (h0.trans hle).eq_or_lt with rfl | hpos
  · rw [zero_mul, zero_mul] at hlevel
    omega
  · have hsat := abs_le.mp (hn.saturation_near value (value - red) hpos hlt (by omega) (by omega))
    rcases (by omega : value < 255 ∨ value = 255) with hsmall | rfl
    · omega
    · omega

end Conversions

section Results

variable {cv : Imgproc} {convert : ColorCode → List Int8 → List Int8}

def mapPixels (m : ByteMat) (n : ℕ) (hn : n ≤ 4) (f : List Int8 → List Int8) : ByteMat where
  rows := m.rows
  cols := m.cols
  channels := n
  data := (List.range (m.rows * m.cols * n)).map fun i =>
    (f (pixel m (i / n / m.cols) (i / n % m.cols))).getD (i % n) 0
  channels_le := hn
  size_eq := by rw [List.length_map, List.length_range]
  fits := m.fits

theorem pixel_mapPixels {m : ByteMat} {n : ℕ} (hn : n ≤ 4) {f : List Int8 → List Int8}
    {r c : ℕ} (hr : r < m.rows) (hc : c < m.cols) (hf : (f (pixel m r c)).length = n) :
    pixel (mapPixels m n hn f) r c = f (pixel m r c) := by
  apply List.ext_getElem
  · rw [length_pixel, hf]
    rfl
  · intro k hk hk'
    have hlt : k < n := hf ▸ hk'
    have hindex : (r * m.cols + c) * n + k < m.rows * m.cols * n :=
      (byte_index_lt (m := mapPixels m n hn f) hr hc hlt).trans_eq (mapPixels m n hn f).size_eq
    have hpos : ((r * m.cols + c) * n + k) / n = r * m.cols + c := by
      rw [Nat.mul_comm, Nat.mul_add_div (by omega), Nat.div_eq_of_lt hlt, Nat.add_zero]
    have hrow : (r * m.cols + c) / m.cols = r := by
      rw [Nat.mul_comm, Nat.mul_add_div (by omega), Nat.div_eq_of_lt hc, Nat.add_zero]
    have hcol : (r * m.cols + c) % m.cols = c := by
      rw [Nat.mul_comm, Nat.mul_add_mod, Nat.mod_eq_of_lt hc]
    have hbyte : ((r * m.cols + c) * n + k) % n = k := by
      rw [Nat.mul_comm, Nat.mul_add_mod, Nat.mod_eq_of_lt hlt]
    have hget : (mapPixels m n hn f).data.getD ((r * m.cols + c) * n + k) 0 =
        (f (pixel m r c)).getD k 0 := by
      rw [mapPixels, List.getD_eq_getElem _ _ (by simpa using hindex), List.getElem_map,
        List.getElem_range, hpos, hrow, hcol, hbyte]
    rw [← List.getD_eq_getElem _ 0 hk', ← hget]
    simp only [pixel, List.getElem_map, List.getElem_range]
    rfl

def toHsv (r g b : ℤ) : List Int8 :=
  let v := max r (max g b)
  let d := v - min r (min g b)
  let s : ℚ := if v = 0 then 0 else 255 * d / v
  let h : ℚ :=
    if d = 0 then 0
    else if v = r then 30 * (g - b) / d
    else if v = g then 60 + 30 * (b - r) / d
    else 120 + 30 * (r - g) / d
  let h := if h < 0 then h + 180 else h
  [Int8.ofInt (ImageEffects.round h), Int8.ofInt (ImageEffects.round s), Int8.ofInt v]

def saturation (v d : ℤ) : ℤ := ImageEffects.round (if v = 0 then 0 else 255 * d / v)

def level (v s : ℤ) : ℤ := ImageEffects.round (v * (1 - s * 1 / 255))

def toRgb (h s v : ℤ) : List Int8 :=
  let f : ℚ := (h % 30 : ℤ) / 30
  let level (x : ℚ) : Int8 := Int8.ofInt (ImageEffects.round (v * (1 - s * x / 255)))
  let p := level 1
  let q := level f
  let t := level (1 - f)
  let v := Int8.ofInt v
  match h / 30 with
  | 0 => [v, t, p]
  | 1 => [q, v, p]
  | 2 => [p, v, t]
  | 3 => [p, q, v]
  | 4 => [t, p, v]
  | _ => [v, p, q]

def convertPixel : ColorCode → List Int8 → List Int8
  | .RGBA2RGB, [r, g, b, _] => [r, g, b]
  | .RGB2HSV, [r, g, b] => toHsv (unsigned r) (unsigned g) (unsigned b)
  | .HSV2RGB, [h, s, v] => toRgb (unsigned h) (unsigned s) (unsigned v)
  | .RGB2RGBA, [r, g, b] => [r, g, b, -1]
  | .RGB2RGBA, [r, g, b, a] => [r, g, b, a]
  | code, _ => List.replicate code.channels 0

theorem length_toRgb (h s v : ℤ) : (toRgb h s v).length = 3 := by
  simp only [toRgb]
  split <;> rfl

theorem length_convertPixel (code : ColorCode) (p : List Int8) :
    (convertPixel code p).length = code.channels := by
  rw [convertPixel.eq_def]
  split
  case h_3 => exact length_toRgb _ _ _
  case h_6 => exact List.length_replicate
  all_goals rfl

theorem channels_le (code : ColorCode) : code.channels ≤ 4 := by
  cases code <;> decide

theorem toRgb_ninety (s v : ℤ) :
    toRgb 90 s v = [Int8.ofInt (level v s), Int8.ofInt v, Int8.ofInt v] := by
  have hround : ImageEffects.round (v * (1 - s * (((90 % 30 : ℤ) : ℚ) / 30) / 255)) = v := by
    rw [ImageEffects.round, Int.floor_eq_iff]
    norm_num
  change [Int8.ofInt (level v s),
    Int8.ofInt (ImageEffects.round (v * (1 - s * (((90 % 30 : ℤ) : ℚ) / 30) / 255))),
    Int8.ofInt v] = _
  rw [hround]

theorem round_near (x : ℚ) : x - 1 / 2 ≤ ImageEffects.round x ∧ ImageEffects.round x ≤ x + 1 / 2 := by
  constructor
  · have := Int.lt_floor_add_one (x + 1 / 2)
    rw [ImageEffects.round]
    linarith
  · exact Int.floor_le (x + 1 / 2)

theorem nearest_laws : Nearest saturation level where
  saturation_zero := by decide +kernel
  saturation_near := by
    intro v d hv _ _ _
    obtain ⟨hlow, hhigh⟩ := round_near (255 * d / v)
    have hpos : (0 : ℚ) < v := by exact_mod_cast hv
    have hdiv : (v : ℚ) * (255 * d / v) = 255 * d := mul_div_cancel₀ _ hpos.ne'
    rw [saturation, if_neg hv.ne', abs_le]
    constructor
    · have hprod := mul_le_mul_of_nonneg_left hlow hpos.le
      rw [mul_sub, hdiv] at hprod
      have : (-v : ℚ) ≤ 2 * (v * ImageEffects.round (255 * d / v)) - 510 * d := by linarith
      exact_mod_cast this
    · have hprod := mul_le_mul_of_nonneg_left hhigh hpos.le
      rw [mul_add, hdiv] at hprod
      have : 2 * (v * ImageEffects.round (255 * d / v)) - 510 * d ≤ (v : ℚ) := by linarith
      exact_mod_cast this
  level_near := by
    intro v s _ _ _ _
    obtain ⟨hlow, hhigh⟩ := round_near (v * (1 - s * 1 / 255))
    rw [abs_le, level]
    constructor
    · have : (-255 : ℚ) ≤
          510 * ImageEffects.round (v * (1 - s * 1 / 255)) - 2 * (v * (255 - s)) := by linarith
      exact_mod_cast this
    · have : 510 * ImageEffects.round (v * (1 - s * 1 / 255)) - 2 * (v * (255 - s)) ≤
          (255 : ℚ) := by linarith
      exact_mod_cast this

theorem level_range {v s : ℤ} (hv0 : 0 ≤ v) (hv : v < 256) (hs0 : 0 ≤ s) (hs : s < 256) :
    0 ≤ level v s ∧ level v s < 256 := by
  have hnear := abs_le.mp (nearest_laws.level_near v s hv0 hv hs0 hs)
  have hprod0 : 0 ≤ v * (255 - s) := mul_nonneg hv0 (by omega)
  have hprod1 : v * (255 - s) ≤ v * 255 := by gcongr; omega
  omega

theorem convertPixel_laws : ColourLaws convertPixel saturation level where
  RGBA2RGB _ _ _ _ := rfl
  RGB2RGBA _ _ _ := rfl
  RGBA2RGBA _ _ _ _ := rfl
  RGB2HSV := by
    intro r g b
    have hr := unsigned_nonneg r
    have hg := unsigned_nonneg g
    have hb := unsigned_nonneg b
    have hr' := unsigned_lt r
    have hg' := unsigned_lt g
    have hb' := unsigned_lt b
    obtain ⟨h0, h1⟩ := nearest_laws.saturation_range
      (v := max (unsigned r) (max (unsigned g) (unsigned b)))
      (d := max (unsigned r) (max (unsigned g) (unsigned b)) -
        min (unsigned r) (min (unsigned g) (unsigned b))) (by omega) (by omega) (by omega)
    have hmax : unsigned (Int8.ofInt (max (unsigned r) (max (unsigned g) (unsigned b)))) =
        max (unsigned r) (max (unsigned g) (unsigned b)) := unsigned_ofInt (by omega) (by omega)
    refine ⟨_, _, _, rfl, hmax, ?_⟩
    rw [hmax]
    exact unsigned_ofInt h0 h1
  HSV2RGB := by
    intro s v
    obtain ⟨h0, h1⟩ := level_range (unsigned_nonneg v) (unsigned_lt v) (unsigned_nonneg s)
      (unsigned_lt s)
    refine ⟨Int8.ofInt (level (unsigned v) (unsigned s)), ?_, unsigned_ofInt h0 h1⟩
    have hbyte : Int8.ofInt (unsigned v) = v :=
      unsigned_injective (unsigned_ofInt (unsigned_nonneg v) (unsigned_lt v))
    change toRgb 90 (unsigned s) (unsigned v) = _
    rw [toRgb_ninety, hbyte]

def pixelCv : Imgproc :=
  { blackCv with
    cvtColor := fun m code => mapPixels m code.channels (channels_le code) (convertPixel code) }

theorem pixelCv_laws : PixelLaws pixelCv convertPixel where
  size := fun _ _ => ⟨rfl, rfl⟩
  channels := fun _ _ => rfl
  pixel_eq := fun _ code _ _ hr _ hc => pixel_mapPixels _ hr hc (length_convertPixel code _)

def magenta : ByteMat :=
  { blackFrame with
    cols := 1
    data := [-1, 0, -1, -1]
    size_eq := rfl
    fits := by decide }

def green : ByteMat := { magenta with data := [0, -1, 0, -1], size_eq := rfl }

def cyan : ByteMat := { magenta with data := [10, -56, -56, -1], size_eq := rfl }

end Results

end HueReplacement
