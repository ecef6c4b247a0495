import VideoEditorOffloading.ImageEffects

/-! # The size of a carved frame

`SeamCarveEffect.applyTo` gives the frame back when there is nothing left to carve, but it looks
for that only before a seam is removed. Of a frame with exactly ten columns the last round leaves
an empty one. -/
namespace NarrowedFrames

open CheckedArrays SeamCarve SeamCosts SeamWalk ImageEffects

/-- What is known of the gradient: a value for each pixel, none of them negative or infinite. -/
def GradientLaws (cv : Imgproc) : Prop :=
  ∀ m, ∃ g, computeGradientMagnitude cv m = some g ∧ g.rows = m.rows ∧ g.cols = m.cols ∧
    ∀ x ∈ g.data, 0 ≤ x ∧ x ≤ MAX_VALUE

/-- No sum of gradients from the top down exceeds `Float.MAX_VALUE`. -/
def FiniteSums (cv : Imgproc) : Prop :=
  ∀ m g, computeGradientMagnitude cv m = some g → Representable g.at g.cols g.rows

/-- Without an exception, the frame comes back as it is or ten columns narrower, and then it is not
empty. -/
def KeptOrNarrowed (cv : Imgproc) (frame : ByteMat) : Prop :=
  ∃ image, (seamCarve cv frame).image = some image ∧
    (image = frame ∨
      image.rows = frame.rows ∧ image.cols + 10 = frame.cols ∧ 1 ≤ image.cols)

theorem finiteSums_of_laws {cv : Imgproc} (hcv : ImgprocLaws cv) : FiniteSums cv := by
  intro m g hg
  exact gradient_representable hcv hg

section Rounds

variable {cv : Imgproc} {frame : ByteMat}

/-- No walk over a frame of this height and at most this width leaves it. -/
def StaysInside (cv : Imgproc) (h w : ℕ) : Prop :=
  ∀ m g map, m.rows = h → m.cols ≤ w → computeGradientMagnitude cv m = some g →
    computePathIntensityMat g = some (some map) → Sheltered map

theorem carveRounds_narrow (hgrad : GradientLaws cv) (frame : ByteMat) {w : ℕ} (rounds : ℕ)
    {newFrame : ByteMat} (done : List (ByteMat × ByteMat)) (hrows : 1 ≤ newFrame.rows)
    (hw : newFrame.cols ≤ w) (hch : newFrame.channels = 4)
    (hinside : StaysInside cv newFrame.rows w) :
    ∃ image, (carveRounds cv frame rounds newFrame done).image = some image ∧
      if newFrame.cols < rounds then image = frame
      else image.rows = newFrame.rows ∧ image.cols + rounds = newFrame.cols := by
  induction rounds generalizing newFrame done with
  | zero => exact ⟨newFrame, rfl, by simp⟩
  | succ rounds ih =>
    obtain ⟨g, hg, hgr, hgc, -⟩ := hgrad newFrame
    rcases Nat.eq_zero_or_pos newFrame.cols with h0 | hpos
    · have hempty : g.rows * g.cols = 0 := by rw [hgc, h0, Nat.mul_zero]
      refine ⟨frame, ?_, by simp [h0]⟩
      rw [carveRounds, hg, Option.bind_some, computePathIntensityMat_empty hempty]
    · obtain ⟨map, output, removed, hmap, hremove, hor, hoc, hoch, -⟩ :=
        carve_sheltered hg hgr hgc hrows hpos (by omega)
          fun map hmap => hinside newFrame g map rfl hw hg hmap
      obtain ⟨image, himage, hsize⟩ := ih (done ++ [(newFrame, output)]) (by omega) (by omega)
        hoch (hor ▸ hinside)
      refine ⟨image, ?_, ?_⟩
      · rw [carveRounds, hmap]
        simpa only [hremove] using himage
      · rw [hoc] at hsize
        split at hsize
        case isTrue hlt => rwa [if_pos (by omega)]
        case isFalse hge =>
          rw [if_neg (by omega)]
          exact ⟨hsize.1.trans hor, by omega⟩

theorem keptOrNarrowed_iff (hgrad : GradientLaws cv) (hchannels : frame.channels = 4)
    (hrow : 1 ≤ frame.rows) (hinside : StaysInside cv frame.rows frame.cols) :
    KeptOrNarrowed cv frame ↔ frame.cols ≠ 10 := by
  obtain ⟨image, himage, hsize⟩ :=
    carveRounds_narrow hgrad frame 10 [] hrow le_rfl hchannels hinside
  constructor
  · rintro ⟨image', himage', hkept⟩ h10
    obtain rfl := Option.some.inj (himage.symm.trans himage')
    rw [if_neg (by omega)] at hsize
    rcases hkept with rfl | ⟨-, -, hpos⟩
    · omega
    · omega
  · intro h10
    refine ⟨image, himage, ?_⟩
    split at hsize
    case isTrue => exact Or.inl hsize
    case isFalse => exact Or.inr ⟨hsize.1, hsize.2, by omega⟩

theorem staysInside_of_finiteSums (hsums : FiniteSums cv) (h w : ℕ) : StaysInside cv h w := by
  intro m g map _ _ hg hmap
  exact sheltered_of_representable (hsums m g hg) hmap

theorem staysInside_of_small (hgrad : GradientLaws cv) {h w : ℕ} (hsmall : h ≤ 2 ∨ w ≤ 1) :
    StaysInside cv h w := by
  intro m g map hr hc hg hmap
  obtain ⟨g', hg', hgr, hgc, hfinite⟩ := hgrad m
  obtain rfl := Option.some.inj (hg.symm.trans hg')
  obtain ⟨hrows, hcols, hmr, hmc, hcost⟩ := computePathIntensityMat_some hmap
  rcases hsmall with hle | hle
  · right
    intro r hlt c hlt'
    obtain rfl : r = 0 := by omega
    rw [hcost 0 (by omega) c hlt', borderedCost]
    exact (hfinite _ (at_mem (by omega) (by omega))).2
  · exact Or.inl (by omega)

end Rounds

section Overflow

def steepCv : Imgproc := { blackCv with sqrt := fun _ => MAX_VALUE }

theorem steepCv_gradient (m : ByteMat) :
    ∃ g, computeGradientMagnitude steepCv m = some g ∧ g.rows = m.rows ∧ g.cols = m.cols ∧
      ∀ x ∈ g.data, x = MAX_VALUE := by
  obtain ⟨s, hs, hr, hc, -⟩ := @computeGradientMagnitude_squares steepCv
    blackCv_laws.cvtColor_size blackCv_laws.Sobel m
  refine ⟨_, hs, hr, hc, ?_⟩
  intro x hx
  obtain ⟨-, -, rfl⟩ := List.mem_map.mp hx
  rfl

theorem MAX_VALUE_pos : 0 < MAX_VALUE := by
  rw [MAX_VALUE]
  norm_num

theorem steepCv_laws : GradientLaws steepCv := by
  intro m
  obtain ⟨g, hg, hr, hc, hmax⟩ := steepCv_gradient m
  refine ⟨g, hg, hr, hc, ?_⟩
  intro x hx
  rw [hmax x hx]
  exact ⟨MAX_VALUE_pos.le, le_rfl⟩

variable {h w : ℕ} {e : ℕ → ℕ → ℚ}

theorem le_above {row : ℕ → ℚ} {c : ℕ} (hrow : ∀ c < w, MAX_VALUE ≤ row c) (hc : c < w) :
    MAX_VALUE ≤ min (min (if 0 < c then row (c - 1) else MAX_VALUE) (row c))
      (if c + 1 < w then row (c + 1) else MAX_VALUE) := by
  apply le_min (le_min _ (hrow c hc))
  · split
    · exact hrow (c + 1) ‹_›
    · exact le_rfl
  · split
    · exact hrow (c - 1) (by omega)
    · exact le_rfl

theorem le_borderedCost (he : ∀ r < h, ∀ c < w, e r c = MAX_VALUE) {r c : ℕ} (hr : r < h)
    (hc : c < w) : MAX_VALUE ≤ borderedCost w e r c := by
  induction r generalizing c with
  | zero => exact (he 0 hr c hc).ge
  | succ r ih =>
    have habove := le_above (fun c hc => ih (by omega) hc) hc
    rw [borderedCost, he (r + 1) hr c hc]
    exact le_add_of_nonneg_right (MAX_VALUE_pos.le.trans habove)

/-- Below the first row the left border costs least: the outside counts as `MAX_VALUE`. -/
theorem borderedCost_succ (he : ∀ r < h, ∀ c < w, e r c = MAX_VALUE) {r c : ℕ}
    (hr : r + 1 < h) (hc : c < w) :
    borderedCost w e (r + 1) 0 = MAX_VALUE + MAX_VALUE ∧
      MAX_VALUE + MAX_VALUE ≤ borderedCost w e (r + 1) c := by
  have hrow : ∀ c < w, MAX_VALUE ≤ borderedCost w e r c :=
    fun c hc => le_borderedCost he (by omega) hc
  constructor
  · have hleast := le_antisymm ((min_le_left _ _).trans ((min_le_left _ _).trans_eq
      (if_neg (Nat.lt_irrefl 0)))) (le_above hrow (by omega : 0 < w))
    rw [borderedCost, he (r + 1) hr 0 (by omega), hleast]
  · rw [borderedCost, he (r + 1) hr c hc]
    apply add_le_add_right
    exact le_above hrow hc

theorem removePixel_left {original neo : List Int8} {width row channels : ℤ}
    (hch : 1 ≤ channels) : removePixel original neo width row channels (-1) = none := by
  have hcopy : ∀ s t, arraycopy original s neo t (-1 * channels) = none := by
    intro s t
    rw [arraycopy, if_neg (by omega)]
  simp only [removePixel, hcopy, Option.bind_eq_bind, Option.bind_none]

theorem walkRow_leaves {map : FloatMat} {original neo : List Int8} {width channels : ℤ}
    {r : ℕ} {removed : List ℤ} (hch : 1 ≤ channels) (hr : r < map.rows) (hcol : 2 ≤ map.cols)
    (hborder : MAX_VALUE < map.at r 0) (hnext : MAX_VALUE < map.at r 1) :
    walkRow map.data map.cols original width channels ⟨0, neo, removed⟩ r = none := by
  have hp1 : intensity map.data ((0 : ℕ) - 1 : ℤ) r map.cols = some MAX_VALUE :=
    intensity_left (row_at hr) (by omega)
  have hp2 : intensity map.data (0 : ℕ) r map.cols = some (map.at r 0) :=
    intensity_inside (row_at hr) (by omega)
  have hp3 : intensity map.data ((0 : ℕ) + 1 : ℤ) r map.cols = some (map.at r 1) := by
    rw [intensity_right (row_at hr), if_pos (by omega)]
  have hadjust : adjust MAX_VALUE (map.at r 0) (map.at r 1) 0 = -1 :=
    if_pos ⟨hborder, hnext⟩
  rw [Nat.cast_zero] at hp1 hp2 hp3
  simp only [walkRow, hp1, hp2, hp3, Option.bind_eq_bind, Option.bind_some, hadjust,
    removePixel_left hch, Option.bind_none]

theorem removeLeastImportantPath_leaves {original : ByteMat} {map : FloatMat}
    (hrows : map.rows = original.rows) (hcols : map.cols = original.cols) (hrow : 2 ≤ map.rows)
    (hcol : 2 ≤ map.cols) (hch : 1 ≤ original.channels)
    (hstart : LeftmostMin map.cols (map.at (map.rows - 1)) 0)
    (hborder : MAX_VALUE < map.at (map.rows - 2) 0)
    (hnext : MAX_VALUE < map.at (map.rows - 2) 1) :
    removeLeastImportantPath original map = none := by
  obtain ⟨c, hfind, hmin⟩ := findMinCol_spec map (by omega) (by omega)
  obtain rfl : c = 0 := hmin.eq hstart fun x _ => rfl
  have hfirst : ∀ b : List Int8, forDown (original.rows - 1) (Walk.mk 0 b [0])
      (walkRow map.data map.cols original.data original.cols original.channels) = none := by
    intro b
    rw [show original.rows - 1 = map.rows - 2 + 1 by omega]
    apply forDown_succ_none
    exact walkRow_leaves (by omega) (by omega) hcol hborder hnext
  rw [removeLeastImportantPath_eq hrows hcols (by omega) (by omega) hch, hfind]
  simp only [Option.bind_eq_bind, Option.bind_some, Nat.cast_zero, hfirst, Option.bind_none,
    Option.bind_fun_none]

/-- With such gradients the carver fails on three rows and two columns, and on all larger frames. -/
theorem steepCv_fails {frame : ByteMat} (hchannels : frame.channels = 4) (hrow : 3 ≤ frame.rows)
    (hcol : 2 ≤ frame.cols) : (seamCarve steepCv frame).image = none := by
  obtain ⟨g, hg, hgr, hgc, hmax⟩ := steepCv_gradient frame
  obtain ⟨map, hmap, hr, hc, hcost⟩ :=
    computePathIntensityMat_bordered (by omega : 1 ≤ g.rows) (by omega)
  have he : ∀ r < g.rows, ∀ c < g.cols, g.at r c = MAX_VALUE := by
    intro r hr c hc
    exact hmax _ (at_mem hr hc)
  have hrest : ∀ r, r + 1 < map.rows → ∀ c < map.cols, map.at (r + 1) 0 = MAX_VALUE + MAX_VALUE ∧
      MAX_VALUE + MAX_VALUE ≤ map.at (r + 1) c := by
    intro r hlt c hlt'
    rw [hcost (r + 1) hlt 0 (by omega), hcost (r + 1) hlt c hlt']
    exact borderedCost_succ he (by omega) (by omega)
  have hover : ∀ c < map.cols, MAX_VALUE < map.at (map.rows - 2) c := by
    intro c hc
    have hge := (hrest (map.rows - 3) (by omega) c hc).2
    rw [show map.rows - 3 + 1 = map.rows - 2 by omega] at hge
    exact (lt_add_of_pos_right _ MAX_VALUE_pos).trans_le hge
  have hstart : LeftmostMin map.cols (map.at (map.rows - 1)) 0 := by
    refine ⟨by omega, ?_, fun x hx => absurd hx (Nat.not_lt_zero x)⟩
    intro x hx
    obtain ⟨heq, hle⟩ := hrest (map.rows - 2) (by omega) x hx
    rw [show map.rows - 2 + 1 = map.rows - 1 by omega] at heq hle
    exact heq.trans_le hle
  have hnone := removeLeastImportantPath_leaves (hr.trans hgr) (hc.trans hgc) (by omega)
    (by omega) (by omega : 1 ≤ frame.channels) hstart (hover 0 (by omega)) (hover 1 (by omega))
  rw [seamCarve, carveRounds, hg, Option.bind_some, hmap]
  simp only [hnone]

end Overflow

section Results

theorem blackCv_gradientLaws : GradientLaws blackCv := by
  intro m
  obtain ⟨s, hs, hr, hc, hbound⟩ :=
    computeGradientMagnitude_squares blackCv_laws.cvtColor_size blackCv_laws.Sobel m
  refine ⟨_, hs, hr, hc, ?_⟩
  intro x hx
  obtain ⟨y, hy, rfl⟩ := List.mem_map.mp hx
  obtain ⟨h0, hle⟩ := hbound y hy
  refine ⟨h0, hle.trans ?_⟩
  rw [MAX_VALUE]
  norm_num

/-- Exactly when a carved frame is never an empty one. If nothing but finite values is known of the
gradient, the sums of three rows can exceed `Float.MAX_VALUE`, and then the walk leaves the image.
In two rows it looks at no sum, so how sums are rounded makes no difference. -/
theorem frame_not_emptied_iff (frame : ByteMat) (hchannels : frame.channels = 4)
    (hrow : 1 ≤ frame.rows) (hcol : 1 ≤ frame.cols) :
    (∀ cv, GradientLaws cv → KeptOrNarrowed cv frame) ↔
      frame.cols ≠ 10 ∧ (frame.rows ≤ 2 ∨ frame.cols = 1) := by
  constructor
  · intro hall
    constructor
    · have hinside := staysInside_of_finiteSums (finiteSums_of_laws blackCv_laws)
        frame.rows frame.cols
      exact (keptOrNarrowed_iff blackCv_gradientLaws hchannels hrow hinside).mp
        (hall blackCv blackCv_gradientLaws)
    · by_contra hlarge
      obtain ⟨image, himage, -⟩ := hall steepCv steepCv_laws
      rw [steepCv_fails hchannels (by omega) (by omega)] at himage
      exact absurd himage (by simp)
  · rintro ⟨h10, hsmall⟩ cv hgrad
    have hinside : StaysInside cv frame.rows frame.cols :=
      staysInside_of_small hgrad (by omega)
    exact (keptOrNarrowed_iff hgrad hchannels hrow hinside).mpr h10

theorem black_frame_not_emptied :
    (∀ cv, GradientLaws cv → KeptOrNarrowed cv blackFrame) ↔
      blackFrame.cols ≠ 10 ∧ (blackFrame.rows ≤ 2 ∨ blackFrame.cols = 1) :=
  frame_not_emptied_iff blackFrame rfl (by decide) (by decide)

def tenColumns : ByteMat :=
  { blackFrame with
    cols := 10
    data := List.replicate 40 0
    size_eq := List.length_replicate
    fits := by decide }

theorem ten_columns_emptied :
    tenColumns.channels = 4 ∧ 1 ≤ tenColumns.rows ∧ 1 ≤ tenColumns.cols ∧
      GradientLaws blackCv ∧ FiniteSums blackCv ∧ ¬ KeptOrNarrowed blackCv tenColumns ∧
      ∃ image, (seamCarve blackCv tenColumns).image = some image ∧ image.rows = 1 ∧
        image.cols = 0 := by
  have hsums := finiteSums_of_laws blackCv_laws
  have hinside := staysInside_of_finiteSums hsums tenColumns.rows tenColumns.cols
  refine ⟨rfl, by decide, by decide, blackCv_gradientLaws, hsums, ?_, ?_⟩
  · intro hkept
    exact (keptOrNarrowed_iff blackCv_gradientLaws rfl (by decide) hinside).mp hkept rfl
  · obtain ⟨image, himage, hsize⟩ :=
      carveRounds_narrow blackCv_gradientLaws tenColumns 10 [] (by decide) le_rfl rfl hinside
    rw [if_neg (by decide)] at hsize
    have hwidth : image.cols + 10 = 10 := hsize.2
    exact ⟨image, himage, hsize.1, by omega⟩

end Results

end NarrowedFrames
