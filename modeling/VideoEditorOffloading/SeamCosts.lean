import VideoEditorOffloading.SeamCarve

/-! # The table of path costs

`computePathIntensityMat` fills its buffer row by row with the costs of the cheapest paths. -/
namespace SeamCosts

open CheckedArrays LayeredPaths SeamCarve

def columns (w : ℕ) : Layers ℕ where
  Inside := fun c => c < w
  Near := fun c' c => c' ≤ c + 1 ∧ c ≤ c' + 1

instance (w c : ℕ) : Decidable ((columns w).Inside c) := inferInstanceAs (Decidable (c < w))

instance (w c' c : ℕ) : Decidable ((columns w).Near c' c) :=
  inferInstanceAs (Decidable (c' ≤ c + 1 ∧ c ≤ c' + 1))

/-- The smallest of the up to three elements above a column. -/
def cheapest (w : ℕ) (row : ℕ → ℚ) (c : ℕ) : ℚ :=
  min (min (if 0 < c then row (c - 1) else row c) (row c)) (if c + 1 < w then row (c + 1) else row c)

def pathCost (w : ℕ) (e : ℕ → ℕ → ℚ) : ℕ → ℕ → ℚ
  | 0, c => e 0 c
  | r + 1, c => e (r + 1) c + cheapest w (pathCost w e r) c

/-- The table for any energies. Elements outside the matrix count as `MAX_VALUE`, also when the
elements inside are larger. -/
def borderedCost (w : ℕ) (e : ℕ → ℕ → ℚ) : ℕ → ℕ → ℚ
  | 0, c => e 0 c
  | r + 1, c => e (r + 1) c +
      min (min (if 0 < c then borderedCost w e r (c - 1) else MAX_VALUE) (borderedCost w e r c))
        (if c + 1 < w then borderedCost w e r (c + 1) else MAX_VALUE)

section Costs

variable {w : ℕ} {row : ℕ → ℚ} {e : ℕ → ℕ → ℚ} {c : ℕ}

theorem cheapest_le {c' : ℕ} (hc' : c' < w) (hnear : (columns w).Near c' c) :
    cheapest w row c ≤ row c' := by
  obtain ⟨h1, h2⟩ := hnear
  rw [cheapest, min_le_iff, min_le_iff]
  rcases lt_trichotomy c' c with hlt | rfl | hlt
  · left; left
    rw [if_pos (by omega), show c - 1 = c' by omega]
  · exact Or.inl (Or.inr le_rfl)
  · right
    rw [if_pos (by omega), show c + 1 = c' by omega]

theorem cheapest_mem (hc : c < w) :
    ∃ c', c' < w ∧ (columns w).Near c' c ∧ row c' = cheapest w row c := by
  have hself : (columns w).Near c c := ⟨by omega, by omega⟩
  rcases min_choice (min (if 0 < c then row (c - 1) else row c) (row c))
    (if c + 1 < w then row (c + 1) else row c) with h | h
  · rcases min_choice (if 0 < c then row (c - 1) else row c) (row c) with h' | h'
    · by_cases h0 : 0 < c
      · refine ⟨c - 1, by omega, ⟨by omega, by omega⟩, ?_⟩
        rw [cheapest, h, h', if_pos h0]
      · refine ⟨c, hc, hself, ?_⟩
        rw [cheapest, h, h', if_neg h0]
    · refine ⟨c, hc, hself, ?_⟩
      rw [cheapest, h, h']
  · by_cases h0 : c + 1 < w
    · refine ⟨c + 1, h0, ⟨by omega, by omega⟩, ?_⟩
      rw [cheapest, h, if_pos h0]
    · refine ⟨c, hc, hself, ?_⟩
      rw [cheapest, h, if_neg h0]

theorem pathCost_table (w : ℕ) (e : ℕ → ℕ → ℚ) (h : ℕ) :
    Table (columns w) e (pathCost w e) h := by
  constructor
  · intro c _
    rfl
  · intro r c _ hc
    refine ⟨cheapest w (pathCost w e r) c, ⟨cheapest_mem hc, ?_⟩, rfl⟩
    rintro x ⟨c', hc', hnear, rfl⟩
    exact cheapest_le hc' hnear

/-- Elements outside the matrix count as `MAX_VALUE`, which no element of the row exceeds. -/
theorem min_intensity (hc : row c < MAX_VALUE) :
    min (min (if 0 < c then row (c - 1) else MAX_VALUE) (row c))
      (if c + 1 < w then row (c + 1) else MAX_VALUE) = cheapest w row c := by
  have hmax : min MAX_VALUE (row c) = row c := min_eq_right hc.le
  rw [cheapest]
  split_ifs
  · rfl
  · rw [min_assoc, min_comm (row c), hmax, min_assoc, min_self]
  · rw [hmax, min_self]
  · rw [hmax, min_self, min_self, min_comm, hmax]

/-- All sums over paths down to a row below `h` are below `Float.MAX_VALUE`. -/
def Representable (e : ℕ → ℕ → ℚ) (w h : ℕ) : Prop :=
  ∀ r < h, ∀ s, Path (columns w) r s → weight e s r < MAX_VALUE

theorem representable_of_le {h : ℕ} {b : ℚ} (h0 : 0 ≤ b) (he : ∀ r < h, ∀ c < w, e r c ≤ b)
    (hb : h * b < MAX_VALUE) : Representable e w h := by
  intro r hr s hs
  calc weight e s r ≤ ∑ _i ∈ Finset.range (r + 1), b := by
        apply Finset.sum_le_sum
        intro i hi
        have hi' : i < r + 1 := Finset.mem_range.mp hi
        exact he i (by omega) (s i) (hs.inside i (by omega))
    _ = (r + 1 : ℕ) * b := by rw [Finset.sum_const, Finset.card_range, nsmul_eq_mul]
    _ ≤ h * b := by gcongr; omega
    _ < MAX_VALUE := hb

theorem Representable.pathCost_lt {h r : ℕ} (hrep : Representable e w h) (hr : r < h)
    (hc : c < w) : pathCost w e r c < MAX_VALUE := by
  obtain ⟨s, hs, -, hw⟩ := (pathCost_table w e h).mem_weights hr hc
  rw [← hw]
  exact hrep r hr s hs

theorem Representable.borderedCost_eq {h r : ℕ} (hrep : Representable e w h) (hr : r < h)
    (hc : c < w) : borderedCost w e r c = pathCost w e r c := by
  induction r generalizing c with
  | zero => rfl
  | succ r ih =>
    have habove : ∀ c < w, borderedCost w e r c = pathCost w e r c :=
      fun c hc => ih (by omega) hc
    have hleft : (if 0 < c then borderedCost w e r (c - 1) else MAX_VALUE) =
        if 0 < c then pathCost w e r (c - 1) else MAX_VALUE := by
      rw [habove (c - 1) (by omega)]
    have hright : (if c + 1 < w then borderedCost w e r (c + 1) else MAX_VALUE) =
        if c + 1 < w then pathCost w e r (c + 1) else MAX_VALUE := by
      split
      · rename_i hlt
        exact habove (c + 1) hlt
      · rfl
    rw [borderedCost, pathCost, hleft, hright, habove c hc,
      min_intensity (hrep.pathCost_lt (by omega) hc)]

end Costs

section Rows

theorem index_lt {h w r c : ℕ} (hr : r < h) (hc : c < w) : c + r * w < h * w := by
  have hrow : (r + 1) * w ≤ h * w := Nat.mul_le_mul_right w hr
  rw [Nat.succ_mul] at hrow
  omega

theorem index_inj {w r r' c c' : ℕ} (hc : c < w) (hc' : c' < w)
    (heq : c + r * w = c' + r' * w) : r = r' ∧ c = c' := by
  have hmod := congrArg (· % w) heq
  simp only [Nat.add_mul_mod_self_right, Nat.mod_eq_of_lt hc, Nat.mod_eq_of_lt hc'] at hmod
  subst hmod
  exact ⟨Nat.eq_of_mul_eq_mul_right (by omega) (Nat.add_left_cancel heq), rfl⟩

structure Row (map : List ℚ) (h w r : ℕ) (row : ℕ → ℚ) : Prop where
  length_eq : map.length = h * w
  lt : r < h
  getD_eq : ∀ c < w, map.getD (c + r * w) 0 = row c

variable {map : List ℚ} {h w r c : ℕ} {row : ℕ → ℚ}

theorem intensity_inside (hrow : Row map h w r row) (hc : c < w) :
    intensity map c r w = some (row c) := by
  rw [intensity, if_neg (by omega), ← Nat.cast_mul, ← Nat.cast_add, ← hrow.getD_eq c hc]
  exact get_of_lt (hrow.length_eq ▸ index_lt hrow.lt hc) 0

theorem intensity_left (hrow : Row map h w r row) (hc : c < w) :
    intensity map ((c : ℤ) - 1) r w = some (if 0 < c then row (c - 1) else MAX_VALUE) := by
  by_cases h0 : 0 < c
  · rw [if_pos h0, ← intensity_inside hrow (by omega : c - 1 < w), Nat.cast_sub h0, Nat.cast_one]
  · rw [if_neg h0, intensity, if_pos (by omega)]

theorem intensity_right (hrow : Row map h w r row) :
    intensity map ((c : ℤ) + 1) r w = some (if c + 1 < w then row (c + 1) else MAX_VALUE) := by
  by_cases h0 : c + 1 < w
  · rw [if_pos h0, ← intensity_inside hrow h0, Nat.cast_succ]
  · rw [if_neg h0, intensity, if_pos (by omega)]

end Rows

section Fill

variable {e : ℕ → ℕ → ℚ} {h w row col : ℕ} {buffRaw buffPath : List ℚ}

/-- The buffer holds the costs of all rows above `row` and of the first `col` columns of it. -/
structure Filled (e : ℕ → ℕ → ℚ) (h w row col : ℕ) (buffPath : List ℚ) : Prop where
  length_eq : buffPath.length = h * w
  cost : ∀ r c, c < w → r < row ∨ r = row ∧ c < col →
    buffPath.getD (c + r * w) 0 = borderedCost w e r c

theorem Filled.set_next (hf : Filled e h w row col buffPath) (hrow : row < h) (hcol : col < w) :
    ∃ b, set buffPath (col + row * w : ℕ) (borderedCost w e row col) = some b ∧
      Filled e h w row (col + 1) b := by
  have hlt : col + row * w < buffPath.length := hf.length_eq ▸ index_lt hrow hcol
  refine ⟨_, set_of_lt hlt _, ?_, ?_⟩
  · rw [List.length_set]
    exact hf.length_eq
  · intro r c hc hdone
    rw [getD_set hlt]
    split
    case isTrue heq =>
      obtain ⟨rfl, rfl⟩ := index_inj hc hcol heq
      rfl
    case isFalse hne =>
      refine hf.cost r c hc ?_
      rcases hdone with hlt' | ⟨rfl, hle⟩
      · exact Or.inl hlt'
      · refine Or.inr ⟨rfl, ?_⟩
        have : c ≠ col := by rintro rfl; exact hne rfl
        omega

theorem Filled.next_row (hf : Filled e h w row w buffPath) : Filled e h w (row + 1) 0 buffPath := by
  refine ⟨hf.length_eq, ?_⟩
  intro r c hc hdone
  refine hf.cost r c hc ?_
  rcases hdone with hlt | ⟨-, h0⟩
  · rcases Nat.lt_or_eq_of_le (Nat.le_of_lt_succ hlt) with h' | h'
    · exact Or.inl h'
    · exact Or.inr ⟨h', hc⟩
  · exact absurd h0 (Nat.not_lt_zero c)

theorem fill_first (hraw : buffRaw.length = h * w) (he : ∀ c < w, buffRaw.getD c 0 = e 0 c)
    (hh : 0 < h) (hlen : buffPath.length = h * w) :
    ∃ b, (forUp 0 w buffPath fun buffPath col => do set buffPath col (← get buffRaw col)) = some b ∧
      Filled e h w 1 0 b := by
  have hstart : Filled e h w 0 0 buffPath :=
    ⟨hlen, fun r c _ hdone => by rcases hdone with h | ⟨-, h⟩ <;> exact absurd h (Nat.not_lt_zero _)⟩
  have hstep : ∀ col b, 0 ≤ col → col < 0 + w → Filled e h w 0 col b →
      ∃ b', (do set b col (← get buffRaw col)) = some b' ∧ Filled e h w 0 (col + 1) b' := by
    intro col b _ hcol hf
    have hlt : col < buffRaw.length := by
      rw [hraw, ← Nat.add_zero col, ← Nat.zero_mul w]
      exact index_lt hh (by omega)
    obtain ⟨b', hb', hf'⟩ := hf.set_next hh (by omega : col < w)
    refine ⟨b', ?_, hf'⟩
    rw [Nat.zero_mul, Nat.add_zero] at hb'
    rw [get_of_lt hlt 0, ← hb', borderedCost, ← he col (by omega)]
    rfl
  obtain ⟨b, hb, hf⟩ := forUp_spec (fun col b => Filled e h w 0 col b) w hstart hstep
  rw [Nat.zero_add] at hf
  exact ⟨b, hb, hf.next_row⟩

theorem pathPixel_spec (hraw : buffRaw.length = h * w)
    (he : ∀ r < h, ∀ c < w, buffRaw.getD (c + r * w) 0 = e r c)
    (hrow : row + 1 < h) (hcol : col < w) (hf : Filled e h w (row + 1) col buffPath) :
    ∃ b, pathPixel buffRaw w w (row + 1) buffPath col = some b ∧
      Filled e h w (row + 1) (col + 1) b := by
  have hlt : col + (row + 1) * w < buffRaw.length := hraw ▸ index_lt hrow hcol
  have hraw' : get buffRaw ((col : ℤ) + (row + 1 : ℕ) * w) = some (e (row + 1) col) := by
    rw [← he _ hrow _ hcol, ← Nat.cast_mul, ← Nat.cast_add]
    exact get_of_lt hlt 0
  have hup : ((row + 1 : ℕ) : ℤ) - 1 = row := by omega
  have habove : Row buffPath h w row (borderedCost w e row) :=
    ⟨hf.length_eq, by omega, fun c hc => hf.cost row c hc (Or.inl (Nat.lt_succ_self row))⟩
  obtain ⟨b, hb, hf'⟩ := hf.set_next hrow hcol
  refine ⟨b, ?_, hf'⟩
  rw [pathPixel, hraw', hup, intensity_left habove hcol, intensity_inside habove hcol,
    intensity_right habove]
  simp only [Option.bind_eq_bind, Option.bind_some]
  rw [← Nat.cast_mul, ← Nat.cast_add]
  exact hb

theorem fill_rows (hraw : buffRaw.length = h * w)
    (he : ∀ r < h, ∀ c < w, buffRaw.getD (c + r * w) 0 = e r c)
    (hh : 0 < h) (hf : Filled e h w 1 0 buffPath) :
    ∃ b, (forUp 1 (h - 1) buffPath fun buffPath row =>
        forUp 0 w buffPath (pathPixel buffRaw w w row)) = some b ∧ Filled e h w h 0 b := by
  have hstep : ∀ row b, 1 ≤ row → row < 1 + (h - 1) → Filled e h w row 0 b →
      ∃ b', forUp 0 w b (pathPixel buffRaw w w row) = some b' ∧ Filled e h w (row + 1) 0 b' := by
    intro row b h1 hlt hf
    obtain ⟨row, rfl⟩ : ∃ k, row = k + 1 := ⟨row - 1, by omega⟩
    obtain ⟨b', hb', hf'⟩ := forUp_spec (fun col b => Filled e h w (row + 1) col b) w hf
      fun col b _ hcol hf => pathPixel_spec hraw he (by omega) (by omega) hf
    rw [Nat.zero_add] at hf'
    exact ⟨b', hb', hf'.next_row⟩
  obtain ⟨b, hb, hf'⟩ := forUp_spec (fun row b => Filled e h w row 0 b) (h - 1) hf hstep
  rw [Nat.add_sub_cancel' hh] at hf'
  exact ⟨b, hb, hf'⟩

end Fill

section Results

theorem computePathIntensityMat_bordered {rawEnergyMap : FloatMat}
    (hrows : 1 ≤ rawEnergyMap.rows) (hcols : 1 ≤ rawEnergyMap.cols) :
    ∃ map, computePathIntensityMat rawEnergyMap = some (some map) ∧
      map.rows = rawEnergyMap.rows ∧ map.cols = rawEnergyMap.cols ∧
      ∀ r < map.rows, ∀ c < map.cols,
        map.at r c = borderedCost rawEnergyMap.cols rawEnergyMap.at r c := by
  have hpos : 0 < rawEnergyMap.rows * rawEnergyMap.cols := Nat.mul_pos hrows hcols
  have he : ∀ r < rawEnergyMap.rows, ∀ c < rawEnergyMap.cols,
      rawEnergyMap.data.getD (c + r * rawEnergyMap.cols) 0 = rawEnergyMap.at r c :=
    fun _ _ _ _ => rfl
  obtain ⟨first, hfirst, hf⟩ := fill_first (e := rawEnergyMap.at) rawEnergyMap.size_eq
    (fun c hc => by rw [← he 0 hrows c hc, Nat.zero_mul, Nat.add_zero]) hrows
    (List.length_replicate (a := (0 : ℚ)))
  obtain ⟨last, hlast, hf'⟩ := fill_rows rawEnergyMap.size_eq he hrows hf
  have hput : copyInto last rawEnergyMap.sameSize.data = last :=
    copyInto_eq (by rw [hf'.length_eq, rawEnergyMap.sameSize.size_eq]; rfl)
  refine ⟨rawEnergyMap.sameSize.put last, ?_, rfl, rfl, ?_⟩
  · rw [computePathIntensityMat]
    simp only [FloatMat.copyInto_data, rawEnergyMap.size_eq, List.length_replicate]
    refine (if_neg (not_or.mpr ⟨hpos.ne', hpos.ne'⟩)).trans ?_
    exact Option.bind_eq_some_iff.mpr ⟨first, hfirst, Option.bind_eq_some_iff.mpr ⟨last, hlast, rfl⟩⟩
  · intro r hr c hc
    exact (congrArg (fun l => l.getD (c + r * rawEnergyMap.cols) 0) hput).trans
      (hf'.cost r c hc (Or.inl hr))

theorem computePathIntensityMat_empty {rawEnergyMap : FloatMat}
    (hempty : rawEnergyMap.rows * rawEnergyMap.cols = 0) :
    computePathIntensityMat rawEnergyMap = some none := by
  rw [computePathIntensityMat, FloatMat.copyInto_data]
  exact if_pos (Or.inl (rawEnergyMap.size_eq.trans hempty))

theorem computePathIntensityMat_some {rawEnergyMap map : FloatMat}
    (h : computePathIntensityMat rawEnergyMap = some (some map)) :
    1 ≤ rawEnergyMap.rows ∧ 1 ≤ rawEnergyMap.cols ∧ map.rows = rawEnergyMap.rows ∧
      map.cols = rawEnergyMap.cols ∧ ∀ r < map.rows, ∀ c < map.cols,
        map.at r c = borderedCost rawEnergyMap.cols rawEnergyMap.at r c := by
  have hnonempty : rawEnergyMap.rows * rawEnergyMap.cols ≠ 0 := by
    intro hempty
    rw [computePathIntensityMat_empty hempty] at h
    exact absurd h (by simp)
  obtain ⟨hrows, hcols⟩ := Nat.mul_ne_zero_iff.mp hnonempty
  obtain ⟨map', hmap', hspec⟩ :=
    computePathIntensityMat_bordered (Nat.pos_of_ne_zero hrows) (Nat.pos_of_ne_zero hcols)
  obtain rfl := Option.some.inj (Option.some.inj (h.symm.trans hmap'))
  exact ⟨Nat.pos_of_ne_zero hrows, Nat.pos_of_ne_zero hcols, hspec⟩

theorem computePathIntensityMat_spec {rawEnergyMap : FloatMat} (hrows : 1 ≤ rawEnergyMap.rows)
    (hcols : 1 ≤ rawEnergyMap.cols)
    (hrep : Representable rawEnergyMap.at rawEnergyMap.cols rawEnergyMap.rows) :
    ∃ map, computePathIntensityMat rawEnergyMap = some (some map) ∧
      map.rows = rawEnergyMap.rows ∧ map.cols = rawEnergyMap.cols ∧
      ∀ r < map.rows, ∀ c < map.cols,
        map.at r c = pathCost rawEnergyMap.cols rawEnergyMap.at r c := by
  obtain ⟨map, hmap, hr, hc, hcost⟩ := computePathIntensityMat_bordered hrows hcols
  refine ⟨map, hmap, hr, hc, ?_⟩
  intro r hlt c hlt'
  rw [hcost r hlt c hlt']
  exact hrep.borderedCost_eq (hr ▸ hlt) (hc ▸ hlt')

/-- The table the program computes holds the sums over the cheapest paths. -/
theorem path_map_optimal (rawEnergyMap : FloatMat) (hrows : 1 ≤ rawEnergyMap.rows)
    (hcols : 1 ≤ rawEnergyMap.cols)
    (hrep : Representable rawEnergyMap.at rawEnergyMap.cols rawEnergyMap.rows) :
    ∃ map, computePathIntensityMat rawEnergyMap = some (some map) ∧
      map.rows = rawEnergyMap.rows ∧ map.cols = rawEnergyMap.cols ∧
      ∀ r < map.rows, ∀ c < map.cols,
        IsLeast (weights (columns rawEnergyMap.cols) rawEnergyMap.at r c) (map.at r c) := by
  obtain ⟨map, hmap, hr, hc, hcost⟩ := computePathIntensityMat_spec hrows hcols hrep
  refine ⟨map, hmap, hr, hc, ?_⟩
  intro r hlt c hlt'
  rw [hcost r hlt c hlt']
  exact (pathCost_table _ _ _).isLeast (hr ▸ hlt) (hc ▸ hlt')

/-- Row 0 has an expensive middle, row 1 costs nothing, row 2 has its cheapest element in the
middle. -/
def flatMap : FloatMat where
  rows := 3
  cols := 3
  data := [1, 5, 1, 0, 0, 0, 3, 0, 4]
  size_eq := by decide
  fits := by decide

theorem flatMap_representable : Representable flatMap.at flatMap.cols flatMap.rows := by
  refine representable_of_le (b := 5) (by norm_num) (by decide) ?_
  rw [MAX_VALUE, flatMap]
  norm_num

theorem flatMap_optimal :
    ∃ map, computePathIntensityMat flatMap = some (some map) ∧ map.rows = 3 ∧ map.cols = 3 ∧
      ∀ r < map.rows, ∀ c < map.cols, IsLeast (weights (columns 3) flatMap.at r c) (map.at r c) :=
  path_map_optimal flatMap (by decide) (by decide) flatMap_representable

end Results

end SeamCosts
