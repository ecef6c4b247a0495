import VideoEditorOffloading.SeamCosts
import VideoEditorOffloading.SeamRemoval

/-! # The walk back through the table

`removeLeastImportantPath` starts from the leftmost cheapest element of the last row and looks at
the three elements above the current one. Of two equally cheap elements on the left and on the
right it takes neither, also when both are cheaper than the middle one. -/
namespace SeamWalk

open CheckedArrays LayeredPaths SeamCarve SeamCosts SeamRemoval

section Steps

variable {w : ℕ} {row : ℕ → ℚ} {c c' : ℕ}

def stepUp (w : ℕ) (row : ℕ → ℚ) (c : ℕ) : ℕ :=
  if 0 < c ∧ row (c - 1) < row c ∧ (c + 1 < w → row (c - 1) < row (c + 1)) then c - 1
  else if c + 1 < w ∧ row (c + 1) < row c ∧ (0 < c → row (c + 1) < row (c - 1)) then c + 1
  else c

theorem adjust_eq (hc : row c ≤ MAX_VALUE) :
    adjust (if 0 < c then row (c - 1) else MAX_VALUE) (row c)
      (if c + 1 < w then row (c + 1) else MAX_VALUE) c = (stepUp w row c : ℤ) := by
  have hleft : ((if 0 < c then row (c - 1) else MAX_VALUE) < row c ∧
      (if 0 < c then row (c - 1) else MAX_VALUE) < (if c + 1 < w then row (c + 1) else MAX_VALUE)) ↔
      0 < c ∧ row (c - 1) < row c ∧ (c + 1 < w → row (c - 1) < row (c + 1)) := by
    by_cases h0 : 0 < c
    · by_cases h1 : c + 1 < w
      · simp only [h0, h1, if_true, true_and, forall_const]
      · simp only [h0, h1, if_true, if_false, true_and, false_implies, and_true]
        exact and_iff_left_of_imp fun h => h.trans_le hc
    · simp only [h0, if_false, false_and, iff_false]
      exact fun h => absurd h.1 (not_lt.mpr hc)
  have hright : ((if c + 1 < w then row (c + 1) else MAX_VALUE) <
        (if 0 < c then row (c - 1) else MAX_VALUE) ∧
      (if c + 1 < w then row (c + 1) else MAX_VALUE) < row c) ↔
      c + 1 < w ∧ row (c + 1) < row c ∧ (0 < c → row (c + 1) < row (c - 1)) := by
    by_cases h1 : c + 1 < w
    · by_cases h0 : 0 < c
      · simp only [h0, h1, if_true, true_and, forall_const]
        exact and_comm
      · simp only [h0, h1, if_true, if_false, true_and, false_implies, and_true]
        exact and_iff_right_of_imp fun h => h.trans_le hc
    · simp only [h1, if_false, false_and, iff_false]
      exact fun h => absurd h.2 (not_lt.mpr hc)
  simp only [adjust, stepUp, hleft, hright]
  split
  · rename_i h
    rw [Nat.cast_sub h.1, Nat.cast_one]
  · split
    · rw [Nat.cast_succ]
    · rfl

theorem stepUp_lt (hc : c < w) : stepUp w row c < w := by
  rw [stepUp]
  split
  · omega
  · split
    · rename_i h
      exact h.1
    · exact hc

theorem stepUp_near : (columns w).Near (stepUp w row c) c := by
  rw [stepUp]
  split
  · exact ⟨by omega, by omega⟩
  · split <;> exact ⟨by omega, by omega⟩

/-- `c'` is strictly the cheapest of the elements above `c`, or it is straight above and none of
them is cheaper. -/
structure Up (w : ℕ) (row : ℕ → ℚ) (c c' : ℕ) : Prop where
  inside : c' < w
  near : (columns w).Near c' c
  least : ∀ x < w, (columns w).Near x c → row c' ≤ row x
  strict : c' ≠ c → ∀ x < w, (columns w).Near x c → x ≠ c' → row c' < row x

theorem Up.eq_stepUp (hc : c < w) (h : Up w row c c') : c' = stepUp w row c := by
  obtain ⟨h1, h2⟩ := h.near
  have hself : (columns w).Near c c := ⟨by omega, by omega⟩
  have hleft : 0 < c → (columns w).Near (c - 1) c := fun h => ⟨by omega, by omega⟩
  have hright : (columns w).Near (c + 1) c := ⟨by omega, by omega⟩
  rw [stepUp]
  rcases lt_trichotomy c' c with hlt | rfl | hlt
  · obtain rfl : c' = c - 1 := by omega
    rw [if_pos]
    refine ⟨by omega, h.strict (by omega) c hc hself (by omega), fun h1 => ?_⟩
    exact h.strict (by omega) (c + 1) h1 hright (by omega)
  · rw [if_neg, if_neg]
    · rintro ⟨h1, hlt, -⟩
      exact absurd (h.least _ h1 hright) (not_le.mpr hlt)
    · rintro ⟨h1, hlt, -⟩
      exact absurd (h.least _ (by omega) (hleft h1)) (not_le.mpr hlt)
  · obtain rfl : c' = c + 1 := by omega
    have hmid := h.strict (by omega) c hc hself (by omega)
    have hother : 0 < c → row (c + 1) < row (c - 1) := fun h0 =>
      h.strict (by omega) (c - 1) (by omega) (hleft h0) (by omega)
    rw [if_neg, if_pos ⟨h.inside, hmid, hother⟩]
    rintro ⟨h0, hlt, h3⟩
    exact lt_asymm (h3 h.inside) (hother h0)

theorem up_stepUp (hc : c < w)
    (hleast : ∀ x < w, (columns w).Near x c → row (stepUp w row c) ≤ row x) :
    Up w row c (stepUp w row c) := by
  refine ⟨stepUp_lt hc, stepUp_near, hleast, ?_⟩
  intro hne x hx ⟨h1, h2⟩ hxne
  have hcases : x = c - 1 ∧ 0 < c ∨ x = c ∨ x = c + 1 := by omega
  rw [stepUp] at hne hxne ⊢
  split at hne
  case isTrue h =>
    rw [if_pos h] at hxne ⊢
    rcases hcases with ⟨rfl, -⟩ | rfl | rfl
    · exact absurd rfl hxne
    · exact h.2.1
    · exact h.2.2 hx
  case isFalse h =>
    rw [if_neg h] at hxne ⊢
    split at hne
    case isTrue h' =>
      rw [if_pos h'] at hxne ⊢
      rcases hcases with ⟨rfl, h0⟩ | rfl | rfl
      · exact h'.2.2 h0
      · exact h'.2.1
      · exact absurd rfl hxne
    case isFalse => exact absurd rfl hne

end Steps

section Start

structure LeftmostMin (w : ℕ) (row : ℕ → ℚ) (c : ℕ) : Prop where
  inside : c < w
  least : ∀ x < w, row c ≤ row x
  leftmost : ∀ x < c, row c < row x

theorem LeftmostMin.eq {w : ℕ} {row row' : ℕ → ℚ} {c c' : ℕ} (h : LeftmostMin w row c)
    (h' : LeftmostMin w row' c') (heq : ∀ x < w, row x = row' x) : c = c' := by
  rcases lt_trichotomy c c' with hlt | rfl | hlt
  · have := h'.leftmost c hlt
    rw [← heq c h.inside, ← heq c' h'.inside] at this
    exact absurd (h.least c' h'.inside) (not_le.mpr this)
  · rfl
  · have := h.leftmost c' hlt
    rw [heq c h.inside, heq c' h'.inside] at this
    exact absurd (h'.least c h.inside) (not_le.mpr this)

theorem LeftmostMin.next {w : ℕ} {row : ℕ → ℚ} {c : ℕ} (h : LeftmostMin w row c) :
    LeftmostMin (w + 1) row (if row w < row c then w else c) := by
  split
  case isTrue hlt =>
    refine ⟨Nat.lt_succ_self w, fun x hx => ?_, fun x hx => hlt.trans_le (h.least x hx)⟩
    rcases Nat.lt_or_eq_of_le (Nat.le_of_lt_succ hx) with hx' | rfl
    · exact hlt.le.trans (h.least x hx')
    · exact le_rfl
  case isFalse hge =>
    refine ⟨h.inside.trans (Nat.lt_succ_self w), fun x hx => ?_, h.leftmost⟩
    rcases Nat.lt_or_eq_of_le (Nat.le_of_lt_succ hx) with hx' | rfl
    · exact h.least x hx'
    · exact not_lt.mp hge

variable {map : FloatMat}

theorem row_at {r : ℕ} (hr : r < map.rows) : Row map.data map.rows map.cols r (map.at r) :=
  ⟨map.size_eq, hr, fun _ _ => rfl⟩

theorem at_mem {r c : ℕ} (hr : r < map.rows) (hc : c < map.cols) : map.at r c ∈ map.data := by
  have hlt : c + r * map.cols < map.data.length := map.size_eq ▸ index_lt hr hc
  rw [FloatMat.at, List.getD_eq_getElem _ _ hlt]
  exact List.getElem_mem hlt

theorem findMinCol_spec (map : FloatMat) (hrows : 1 ≤ map.rows) (hcols : 1 ≤ map.cols) :
    ∃ c : ℕ, findMinCol map.data map = some (c : ℤ) ∧
      LeftmostMin map.cols (map.at (map.rows - 1)) c := by
  have hget : ∀ col < map.cols, get map.data (((map.rows : ℤ) - 1) * map.cols + col) =
      some (map.at (map.rows - 1) col) := by
    intro col hcol
    rw [← Nat.cast_one, ← Nat.cast_sub hrows, ← Nat.cast_mul, ← Nat.cast_add, Nat.add_comm]
    exact get_of_lt (map.size_eq ▸ index_lt (by omega) hcol) 0
  have hfirst : get map.data (((map.rows : ℤ) - 1) * map.cols) =
      some (map.at (map.rows - 1) 0) := by
    rw [← hget 0 hcols, Nat.cast_zero, add_zero]
  have hstart : LeftmostMin 1 (map.at (map.rows - 1)) 0 := by
    refine ⟨one_pos, fun x hx => ?_, fun x hx => absurd hx (Nat.not_lt_zero x)⟩
    rw [Nat.lt_one_iff.mp hx]
  have hstep : ∀ col found, 1 ≤ col → col < 1 + (map.cols - 1) →
      (∃ c : ℕ, found = ((c : ℤ), map.at (map.rows - 1) c) ∧
        LeftmostMin col (map.at (map.rows - 1)) c) →
      ∃ found', (do
          let currPixel ← get map.data (((map.rows : ℤ) - 1) * map.cols + col)
          if currPixel < found.2 then return ((col : ℤ), currPixel)
          return found) = some found' ∧
        ∃ c : ℕ, found' = ((c : ℤ), map.at (map.rows - 1) c) ∧
          LeftmostMin (col + 1) (map.at (map.rows - 1)) c := by
    rintro col found - hcol ⟨c, rfl, hmin⟩
    refine ⟨_, ?_, _, rfl, hmin.next⟩
    rw [hget col (by omega), Option.bind_eq_bind, Option.bind_some]
    split
    · rfl
    · rfl
  obtain ⟨found, hfound, c, rfl, hmin⟩ := forUp_spec
    (fun col (found : ℤ × ℚ) => ∃ c : ℕ, found = ((c : ℤ), map.at (map.rows - 1) c) ∧
      LeftmostMin col (map.at (map.rows - 1)) c) (map.cols - 1) ⟨0, rfl, hstart⟩ hstep
  rw [Nat.add_sub_cancel' hcols] at hmin
  refine ⟨c, ?_, hmin⟩
  rw [findMinCol, hfirst]
  exact Option.bind_eq_some_iff.mpr ⟨_, rfl, Option.bind_eq_some_iff.mpr ⟨_, hfound, rfl⟩⟩

end Start

section Walks

variable {original : ByteMat} {map : FloatMat}

structure Walked (map : FloatMat) (s : ℕ → ℕ) : Prop where
  start : LeftmostMin map.cols (map.at (map.rows - 1)) (s (map.rows - 1))
  up : ∀ r < map.rows - 1, s r = stepUp map.cols (map.at r) (s (r + 1))

def climb (map : FloatMat) (start : ℕ) : ℕ → ℕ
  | 0 => start
  | k + 1 => stepUp map.cols (map.at (map.rows - 1 - (k + 1))) (climb map start k)

/-- The walk stays inside: above the last row no element exceeds `Float.MAX_VALUE`, or there is
only one column. -/
def Sheltered (map : FloatMat) : Prop :=
  map.cols = 1 ∨ ∀ r < map.rows - 1, ∀ c < map.cols, map.at r c ≤ MAX_VALUE

theorem sheltered_of_le (h : ∀ r < map.rows, ∀ c < map.cols, map.at r c ≤ MAX_VALUE) :
    Sheltered map := by
  right
  intro r hr
  exact h r (by omega)

theorem Sheltered.adjust_eq (h : Sheltered map) {r c : ℕ} (hr : r < map.rows - 1)
    (hc : c < map.cols) :
    adjust (if 0 < c then map.at r (c - 1) else MAX_VALUE) (map.at r c)
      (if c + 1 < map.cols then map.at r (c + 1) else MAX_VALUE) c =
      (stepUp map.cols (map.at r) c : ℤ) := by
  rcases h with hone | hmax
  · -- Both sides of the only column count the same, so neither is strictly smaller.
    obtain rfl : c = 0 := by omega
    simp [adjust, stepUp, hone]
  · exact SeamWalk.adjust_eq (hmax r hr c hc)

theorem exists_walked {start : ℕ}
    (hstart : LeftmostMin map.cols (map.at (map.rows - 1)) start) :
    ∃ s, Walked map s ∧ s (map.rows - 1) = start := by
  refine ⟨fun r => climb map start (map.rows - 1 - r), ⟨?_, ?_⟩, ?_⟩
  · simpa only [Nat.sub_self, climb] using hstart
  · intro r hr
    have hnext : map.rows - 1 - r = map.rows - 1 - (r + 1) + 1 := by omega
    have hback : map.rows - 1 - (map.rows - 1 - (r + 1) + 1) = r := by omega
    simp only [hnext, climb, hback]
  · simp only [Nat.sub_self, climb]

theorem Walked.lt {s : ℕ → ℕ} (h : Walked map s) : ∀ r < map.rows, s r < map.cols := by
  intro r hr
  induction hk : map.rows - 1 - r generalizing r with
  | zero =>
    obtain rfl : r = map.rows - 1 := by omega
    exact h.start.inside
  | succ k ih =>
    rw [h.up r (by omega)]
    exact stepUp_lt (ih (r + 1) (by omega) (by omega))

theorem Walked.path {s : ℕ → ℕ} (h : Walked map s) (hrows : 1 ≤ map.rows) :
    Path (columns map.cols) (map.rows - 1) s := by
  constructor
  · intro i hi
    exact h.lt i (by omega)
  · intro i hi
    rw [h.up i hi]
    exact stepUp_near

structure WalkedFrom (original : ByteMat) (s : ℕ → ℕ) (length row : ℕ) (walk : Walk) : Prop where
  minCol : walk.minCol = s row
  removed : walk.removed =
    ((List.range' row (original.rows - row)).map fun r => (s r : ℤ)).reverse
  length_eq : walk.buffNew.length = length
  carved : CarvedFrom original.data walk.buffNew original.rows (original.cols - 1)
    original.channels s row

theorem walkRow_spec {s : ℕ → ℕ} {length row : ℕ} {walk : Walk} (hs : Walked map s)
    (hrows : map.rows = original.rows) (hcols : map.cols = original.cols)
    (hpos : 1 ≤ original.cols) (hch : 3 ≤ original.channels) (hsafe : Sheltered map)
    (hlength : original.rows * (original.cols - 1) * original.channels ≤ length)
    (hrow : row < original.rows - 1) (hw : WalkedFrom original s length (row + 1) walk) :
    ∃ walk', walkRow map.data map.cols original.data original.cols original.channels walk row =
      some walk' ∧ WalkedFrom original s length row walk' := by
  have hlt : row < map.rows := by omega
  have hc := hs.lt (row + 1) (by omega)
  obtain ⟨b, hb, hlen, hcarved⟩ := removePixel_row walk.buffNew (v := original.cols - 1)
    (s := s) hch
    (by rw [original.size_eq, Nat.sub_add_cancel hpos]) (hlength.trans hw.length_eq.ge)
    (by omega : row < original.rows)
    (by rw [Nat.sub_add_cancel hpos, ← hcols]; exact hs.lt row hlt) hw.carved
  rw [Nat.sub_add_cancel hpos] at hb
  refine ⟨⟨s row, b, walk.removed ++ [(s row : ℤ)]⟩, ?_, rfl, ?_, hlen.trans hw.length_eq, hcarved⟩
  · rw [walkRow, hw.minCol, intensity_left (row_at hlt) hc, intensity_inside (row_at hlt) hc,
      intensity_right (row_at hlt)]
    simp only [Option.bind_eq_bind, Option.bind_some]
    rw [hsafe.adjust_eq (by omega) hc, ← hs.up row (by omega), hb]
    rfl
  · rw [hw.removed, show original.rows - row = original.rows - (row + 1) + 1 by omega,
      List.range'_succ, List.map_cons, List.reverse_cons]

theorem removeLeastImportantPath_eq (hrows : map.rows = original.rows)
    (hcols : map.cols = original.cols) (hrow : 1 ≤ original.rows) (hcol : 1 ≤ original.cols)
    (hch : 1 ≤ original.channels) :
    removeLeastImportantPath original map = do
      let minCol ← findMinCol map.data map
      let buffNew ← removePixel original.data
        (List.replicate (original.rows * (original.cols - 1) * 4) 0) original.cols
        (original.rows - 1) original.channels minCol
      let walk ← forDown (original.rows - 1) (Walk.mk minCol buffNew [minCol])
        (walkRow map.data map.cols original.data original.cols original.channels)
      return some (original.narrower.put walk.buffNew, walk.removed) := by
  have hnonempty : ¬ (map.rows * map.cols = 0 ∨
      original.rows * original.cols * original.channels = 0) := by
    have hpos : 0 < original.rows * original.cols := Nat.mul_pos hrow hcol
    have hpos' := Nat.mul_pos hpos hch
    rw [hrows, hcols]
    omega
  rw [removeLeastImportantPath]
  simp only [FloatMat.copyInto_data, ByteMat.copyInto_data, map.size_eq, original.size_eq]
  exact (if_neg (by omega)).trans (if_neg hnonempty)

theorem removeLeastImportantPath_spec (original : ByteMat) (map : FloatMat)
    (hrows : map.rows = original.rows) (hcols : map.cols = original.cols)
    (hrow : 1 ≤ original.rows) (hcol : 1 ≤ original.cols) (hch : 3 ≤ original.channels)
    (hsafe : Sheltered map) :
    ∃ s newMat, removeLeastImportantPath original map = some (some (newMat,
        ((List.range original.rows).map fun r => (s r : ℤ)).reverse)) ∧
      Walked map s ∧ newMat.rows = original.rows ∧ newMat.cols = original.cols - 1 ∧
      newMat.channels = 4 ∧ CarvedFrom original.data newMat.data original.rows
        (original.cols - 1) original.channels s 0 := by
  obtain ⟨start, hfind, hstart⟩ := findMinCol_spec map (by omega) (by omega)
  obtain ⟨s, hs, rfl⟩ := exists_walked hstart
  rw [hrows] at hfind
  have hlength : original.rows * (original.cols - 1) * original.channels ≤
      original.rows * (original.cols - 1) * 4 := Nat.mul_le_mul_left _ original.channels_le
  have hlast : original.rows - 1 < original.rows := by omega
  obtain ⟨b, hb, hlen, hcarved⟩ := removePixel_row
    (List.replicate (original.rows * (original.cols - 1) * 4) 0) (v := original.cols - 1)
    (s := s) hch
    (by rw [original.size_eq, Nat.sub_add_cancel hcol]) (by rwa [List.length_replicate])
    hlast (by rw [Nat.sub_add_cancel hcol, ← hcols]; exact hs.lt _ (by omega))
    (fun r hle hr => absurd hr (by omega))
  rw [Nat.sub_add_cancel hcol] at hb
  have hw : WalkedFrom original s (original.rows * (original.cols - 1) * 4) (original.rows - 1)
      ⟨s (original.rows - 1), b, [(s (original.rows - 1) : ℤ)]⟩ := by
    refine ⟨rfl, ?_, by rw [hlen, List.length_replicate], hcarved⟩
    rw [show original.rows - (original.rows - 1) = 1 by omega]
    rfl
  obtain ⟨walk, hwalk, hw'⟩ := forDown_spec
    (fun row walk => WalkedFrom original s (original.rows * (original.cols - 1) * 4) row walk) hw
    fun row walk hlt hw => walkRow_spec hs hrows hcols hcol hch hsafe hlength hlt hw
  have hput : copyInto walk.buffNew original.narrower.data = walk.buffNew :=
    copyInto_eq (by rw [hw'.length_eq, original.narrower.size_eq]; rfl)
  refine ⟨s, original.narrower.put walk.buffNew, ?_, hs, rfl, rfl, rfl, ?_⟩
  · have hb' : removePixel original.data
        (List.replicate (original.rows * (original.cols - 1) * 4) 0) original.cols
        ((original.rows : ℤ) - 1) original.channels (s (original.rows - 1)) = some b := by
      rw [← hb, Nat.cast_sub hrow, Nat.cast_one]
    rw [removeLeastImportantPath_eq hrows hcols hrow hcol (by omega)]
    refine Option.bind_eq_some_iff.mpr ⟨_, hfind, Option.bind_eq_some_iff.mpr ⟨b, hb',
      Option.bind_eq_some_iff.mpr ⟨walk, hwalk, ?_⟩⟩⟩
    rw [hw'.removed, Nat.sub_zero, ← List.range_eq_range']
    rfl
  · rw [show (original.narrower.put walk.buffNew).data = walk.buffNew from hput]
    exact hw'.carved

end Walks

section Results

theorem stepUp_congr {w c : ℕ} {row row' : ℕ → ℚ} (hc : c < w) (h : ∀ x < w, row x = row' x) :
    stepUp w row c = stepUp w row' c := by
  have hleft := h (c - 1) (by omega)
  have hmid := h c hc
  by_cases hlt : c + 1 < w
  · rw [stepUp, stepUp, hleft, hmid, h (c + 1) hlt]
  · simp only [stepUp, hleft, hmid, hlt, false_and, false_implies, if_false]

def seamEnergies (e : ℕ → ℕ → ℚ) (w h : ℕ) : Set ℚ :=
  {x | ∃ t, Path (columns w) (h - 1) t ∧ weight e t (h - 1) = x}

/-- From the leftmost cheapest element of the last row one can go up row by row, always to an
element whose cheapest path costs strictly less than those of the other two above, or straight up
to one that costs no more than they. This fails where the two neighbours of the element straight
above cost the same and less than it. -/
def Unforked (e : ℕ → ℕ → ℚ) (w h : ℕ) : Prop :=
  ∃ (cost : ℕ → ℕ → ℚ) (s : ℕ → ℕ),
    (∀ r < h, ∀ c < w, IsLeast (weights (columns w) e r c) (cost r c)) ∧
      LeftmostMin w (cost (h - 1)) (s (h - 1)) ∧
      ∀ r < h - 1, Up w (cost r) (s (r + 1)) (s r)

theorem greedy_iff_unforked {map : FloatMat} {e : ℕ → ℕ → ℚ} {s : ℕ → ℕ} (hrows : 1 ≤ map.rows)
    (hcost : ∀ r < map.rows, ∀ c < map.cols,
      IsLeast (weights (columns map.cols) e r c) (map.at r c)) (hs : Walked map s) :
    Greedy (columns map.cols) map.at s (map.rows - 1) ↔ Unforked e map.cols map.rows := by
  constructor
  · intro hgreedy
    refine ⟨map.at, s, hcost, hs.start, ?_⟩
    intro r hr
    have hup := hs.up r hr
    rw [hup]
    apply up_stepUp (hs.lt (r + 1) (by omega))
    rw [← hup]
    exact hgreedy r hr
  · rintro ⟨cost, t, hcost', hstart, hup⟩
    have heq : ∀ r < map.rows, ∀ c < map.cols, map.at r c = cost r c :=
      fun r hr c hc => (hcost r hr c hc).unique (hcost' r hr c hc)
    have hsame : ∀ r < map.rows, s r = t r := by
      intro r hr
      induction hk : map.rows - 1 - r generalizing r with
      | zero =>
        obtain rfl : r = map.rows - 1 := by omega
        exact hs.start.eq hstart (heq _ hr)
      | succ k ih =>
        have hnext := ih (r + 1) (by omega) (by omega)
        have hc := hs.lt (r + 1) (by omega)
        rw [hs.up r (by omega), stepUp_congr hc (heq r hr), hnext]
        exact ((hup r (by omega)).eq_stepUp (hnext ▸ hc)).symm
    intro i hi c hc hnear
    rw [hsame (i + 1) (by omega)] at hnear
    rw [hsame i (by omega), heq i (by omega) _ (hup i hi).inside, heq i (by omega) c hc]
    exact (hup i hi).least c hc hnear

/-- Exactly when the removed seam is one of least energy. -/
theorem removed_seam_least_iff (rawEnergyMap : FloatMat) (original : ByteMat)
    (hrows : original.rows = rawEnergyMap.rows) (hcols : original.cols = rawEnergyMap.cols)
    (hchannels : 3 ≤ original.channels) (hrow : 1 ≤ rawEnergyMap.rows)
    (hcol : 1 ≤ rawEnergyMap.cols)
    (hrep : Representable rawEnergyMap.at rawEnergyMap.cols rawEnergyMap.rows) :
    ∃ map newMat s, computePathIntensityMat rawEnergyMap = some (some map) ∧
      removeLeastImportantPath original map =
        some (some (newMat, ((List.range rawEnergyMap.rows).map fun r => (s r : ℤ)).reverse)) ∧
      Path (columns rawEnergyMap.cols) (rawEnergyMap.rows - 1) s ∧
      (IsLeast (seamEnergies rawEnergyMap.at rawEnergyMap.cols rawEnergyMap.rows)
          (weight rawEnergyMap.at s (rawEnergyMap.rows - 1)) ↔
        Unforked rawEnergyMap.at rawEnergyMap.cols rawEnergyMap.rows) := by
  obtain ⟨map, hmap, hr, hc, hcost⟩ := computePathIntensityMat_spec hrow hcol hrep
  have htable := pathCost_table rawEnergyMap.cols rawEnergyMap.at rawEnergyMap.rows
  obtain ⟨s, newMat, hremove, hs, -⟩ := removeLeastImportantPath_spec original map
    (by omega) (by omega) (by omega) (by omega) hchannels
    (sheltered_of_le fun r hlt c hlt' => by
      rw [hcost r hlt c hlt']
      exact (hrep.pathCost_lt (hr ▸ hlt) (hc ▸ hlt')).le)
  rw [hr, hc] at hcost
  have hleast : ∀ r < map.rows, ∀ c < map.cols,
      IsLeast (weights (columns map.cols) rawEnergyMap.at r c) (map.at r c) := by
    rw [hr, hc]
    intro r hlt c hlt'
    rw [hcost r hlt c hlt']
    exact htable.isLeast hlt hlt'
  refine ⟨map, newMat, s, hmap, by rw [← hrows, hremove], ?_, ?_⟩
  · rw [← hr, ← hc]
    exact hs.path (by omega)
  · have hgreedy := greedy_iff_unforked (by omega) hleast hs
    have hpath := hs.path (by omega)
    have hlast := hs.start.least
    rw [hr, hc] at hgreedy hpath hlast
    rw [← hgreedy]
    exact (htable.congr hcost hrow).isLeast_iff_greedy (by omega) hpath hlast

def square : ByteMat :=
  { smallPicture with
    rows := 3
    data := List.replicate 36 0
    size_eq := List.length_replicate
    fits := by decide }

/-- The path followed is a seam inside the image, whatever the map holds. The pixels are removed
from the last row to the first. -/
theorem path_inside_image (original : ByteMat) (importanceMap : FloatMat)
    (hrows : original.rows = importanceMap.rows) (hcols : original.cols = importanceMap.cols)
    (hchannels : 3 ≤ original.channels) (hrow : 1 ≤ importanceMap.rows)
    (hcol : 1 ≤ importanceMap.cols) (hmax : ∀ x ∈ importanceMap.data, x ≤ MAX_VALUE) :
    ∃ (newMat : ByteMat) (s : ℕ → ℕ), removeLeastImportantPath original importanceMap =
        some (some (newMat, ((List.range importanceMap.rows).map fun r => (s r : ℤ)).reverse)) ∧
      (∀ r < importanceMap.rows, s r < importanceMap.cols) ∧
      LeftmostMin importanceMap.cols (importanceMap.at (importanceMap.rows - 1))
        (s (importanceMap.rows - 1)) ∧
      ∀ r, r + 1 < importanceMap.rows → s r ≤ s (r + 1) + 1 ∧ s (r + 1) ≤ s r + 1 := by
  have hsafe : Sheltered importanceMap :=
    sheltered_of_le fun r hr c hc => hmax _ (at_mem hr hc)
  obtain ⟨s, newMat, hremove, hs, -⟩ := removeLeastImportantPath_spec original importanceMap
    hrows.symm hcols.symm (by omega) (by omega) hchannels hsafe
  refine ⟨newMat, s, ?_, hs.lt, hs.start, ?_⟩
  · rw [← hrows]
    exact hremove
  · intro r hr
    rw [hs.up r (by omega)]
    exact stepUp_near

/-- With negative elements, and with elements as large as those outside. -/
def signedMap : FloatMat :=
  { flatMap with data := [MAX_VALUE, -1, MAX_VALUE, -3, 0, -3, MAX_VALUE, -2, -2]
                 size_eq := by decide }

theorem signedMap_path_inside :
    ∃ (newMat : ByteMat) (s : ℕ → ℕ), removeLeastImportantPath square signedMap =
        some (some (newMat, ((List.range 3).map fun r => (s r : ℤ)).reverse)) ∧
      (∀ r < 3, s r < 3) ∧ LeftmostMin 3 (signedMap.at 2) (s 2) ∧
      ∀ r, r + 1 < 3 → s r ≤ s (r + 1) + 1 ∧ s (r + 1) ≤ s r + 1 :=
  path_inside_image square signedMap rfl rfl (by decide) (by decide) (by decide)
    (by decide +kernel)

theorem square_seam_least_iff :
    ∃ map newMat s, computePathIntensityMat flatMap = some (some map) ∧
      removeLeastImportantPath square map =
        some (some (newMat, ((List.range 3).map fun r => (s r : ℤ)).reverse)) ∧
      Path (columns 3) 2 s ∧
      (IsLeast (seamEnergies flatMap.at 3 3) (weight flatMap.at s 2) ↔ Unforked flatMap.at 3 3) :=
  removed_seam_least_iff flatMap square rfl rfl (by decide) (by decide) (by decide)
    flatMap_representable

def flatMapCosts : FloatMat :=
  { flatMap with data := [1, 5, 1, 1, 1, 1, 4, 1, 5], size_eq := by decide }

/-- The seam removed from the middle of `flatMap` costs 5, one that ends on the left costs 1. -/
theorem fork_not_least :
    Representable flatMap.at 3 3 ∧ (∀ x ∈ flatMap.data, 0 ≤ x) ∧
      computePathIntensityMat flatMap = some (some flatMapCosts) ∧
      (∃ newMat, removeLeastImportantPath square flatMapCosts =
        some (some (newMat, [1, 1, 1]))) ∧
      ¬ IsLeast (seamEnergies flatMap.at 3 3) (weight flatMap.at (fun _ => 1) 2) := by
  refine ⟨flatMap_representable, by decide, by decide +kernel, ⟨_, rfl⟩, ?_⟩
  intro hleast
  have hcheap : (1 : ℚ) ∈ seamEnergies flatMap.at 3 3 := by
    refine ⟨fun i => if i = 0 then 0 else 1, ⟨by decide, by decide⟩, by decide +kernel⟩
  have hcost : weight flatMap.at (fun _ => 1) 2 = 5 := by decide +kernel
  have := hleast.2 hcheap
  rw [hcost] at this
  norm_num at this

end Results

end SeamWalk
