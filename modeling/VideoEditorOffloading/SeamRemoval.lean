import VideoEditorOffloading.SeamCarve

/-! # Removing one pixel from each row

What one call of `removePixel` writes, and what the calls for all rows leave. -/
namespace SeamRemoval

open CheckedArrays SeamCarve

section Bytes

theorem unsigned_nonneg (byte : Int8) : 0 ≤ unsigned byte := by
  have := byte.le_toInt
  rw [unsigned]
  split <;> omega

theorem unsigned_lt (byte : Int8) : unsigned byte < 256 := by
  have := byte.toInt_lt
  rw [unsigned]
  split <;> omega

theorem unsigned_ofInt {x : ℤ} (h0 : 0 ≤ x) (h1 : x < 256) : unsigned (Int8.ofInt x) = x := by
  have hmod : x % (256 : ℕ) = x := Int.emod_eq_of_lt h0 h1
  rw [unsigned, Int8.toInt_ofInt, Int.bmod_def]
  simp only [Int8.size, hmod]
  split_ifs <;> omega

def mean (a b : Int8) : Int8 := Int8.ofInt ((unsigned a + unsigned b) / 2)

theorem unsigned_mean (a b : Int8) : unsigned (mean a b) = (unsigned a + unsigned b) / 2 := by
  have ha := unsigned_nonneg a
  have hb := unsigned_nonneg b
  have ha' := unsigned_lt a
  have hb' := unsigned_lt b
  exact unsigned_ofInt (by omega) (by omega)

theorem mean_comm (a b : Int8) : mean a b = mean b a := by
  rw [mean, mean, add_comm]

end Bytes

section Average

variable {original neo : List Int8}

theorem get_three (original : List Int8) {a : ℕ} (h : a + 3 ≤ original.length) :
    get original (a : ℤ) = some (original.getD a 0) ∧
      get original ((a : ℤ) + 1) = some (original.getD (a + 1) 0) ∧
      get original ((a : ℤ) + 2) = some (original.getD (a + 2) 0) := by
  refine ⟨get_of_lt (by omega) 0, ?_, ?_⟩
  · exact_mod_cast get_of_lt (a := original) (i := a + 1) (by omega) 0
  · exact_mod_cast get_of_lt (a := original) (i := a + 2) (by omega) 0

/-- The three bytes from `a` on are averaged with those from `q` on and written from `p` on. -/
theorem average_spec {a q p : ℕ} (hq : q + 3 ≤ original.length) (hp : p + 3 ≤ neo.length) :
    ∃ b, average original neo (unsigned (original.getD a 0)) (unsigned (original.getD (a + 1) 0))
        (unsigned (original.getD (a + 2) 0)) q p = some b ∧ b.length = neo.length ∧
      ∀ j, b.getD j 0 = if p ≤ j ∧ j < p + 3 then
          mean (original.getD (a + (j - p)) 0) (original.getD (q + (j - p)) 0)
        else neo.getD j 0 := by
  obtain ⟨h0, h1, h2⟩ := get_three original hq
  have s0 : ∀ x, set neo (p : ℤ) x = some (neo.set p x) := fun x => set_of_lt (by omega) x
  have s1 : ∀ l : List Int8, l.length = neo.length → ∀ x,
      set l ((p : ℤ) + 1) x = some (l.set (p + 1) x) := by
    intro l hl x
    exact_mod_cast set_of_lt (a := l) (i := p + 1) (by omega) x
  have s2 : ∀ l : List Int8, l.length = neo.length → ∀ x,
      set l ((p : ℤ) + 2) x = some (l.set (p + 2) x) := by
    intro l hl x
    exact_mod_cast set_of_lt (a := l) (i := p + 2) (by omega) x
  refine ⟨((neo.set p (mean (original.getD a 0) (original.getD q 0))).set (p + 1)
    (mean (original.getD (a + 1) 0) (original.getD (q + 1) 0))).set (p + 2)
    (mean (original.getD (a + 2) 0) (original.getD (q + 2) 0)), ?_, ?_, ?_⟩
  · rw [average, h0, h1, h2]
    simp only [Option.bind_eq_bind, Option.bind_some]
    rw [s0, Option.bind_some, s1 _ (List.length_set ..), Option.bind_some,
      s2 _ (by rw [List.length_set, List.length_set])]
    rfl
  · simp only [List.length_set]
  · intro j
    rw [getD_set (by rw [List.length_set, List.length_set]; omega),
      getD_set (by rw [List.length_set]; omega), getD_set (by omega)]
    by_cases hj : p ≤ j ∧ j < p + 3
    · obtain ⟨k, rfl⟩ := Nat.exists_eq_add_of_le hj.1
      rw [if_pos hj, Nat.add_sub_cancel_left]
      have hk : k = 0 ∨ k = 1 ∨ k = 2 := by omega
      rcases hk with rfl | rfl | rfl <;> simp
    · rw [if_neg hj, if_neg (by omega), if_neg (by omega), if_neg (by omega)]

theorem average_if (original neo : List Int8) {P : Prop} [Decidable P] {a q p : ℕ} {x y : ℤ}
    (hq : P → x = q ∧ q + 3 ≤ original.length) (hp : P → y = p ∧ p + 3 ≤ neo.length) :
    ∃ b, (if P then average original neo (unsigned (original.getD a 0))
        (unsigned (original.getD (a + 1) 0)) (unsigned (original.getD (a + 2) 0)) x y
        else some neo) = some b ∧ b.length = neo.length ∧
      ∀ j, b.getD j 0 = if P ∧ p ≤ j ∧ j < p + 3 then
          mean (original.getD (a + (j - p)) 0) (original.getD (q + (j - p)) 0)
        else neo.getD j 0 := by
  by_cases h : P
  · obtain ⟨rfl, hq'⟩ := hq h
    obtain ⟨rfl, hp'⟩ := hp h
    obtain ⟨b, hb, hlen, hget⟩ := average_spec (a := a) hq' hp'
    refine ⟨b, by rw [if_pos h, hb], hlen, fun j => ?_⟩
    rw [hget]
    simp only [h, true_and]
  · refine ⟨neo, if_neg h, rfl, fun j => ?_⟩
    rw [if_neg fun hj => h hj.1]

end Average

section OneRow

variable {original neo : List Int8}

def carvedByte (old : ℕ → ℕ → Int8) (s c k : ℕ) : Int8 :=
  if c + 1 < s then old c k
  else if s < c then old (c + 1) k
  else if k < 3 then mean (old c k) (old (c + 1) k)
  else if c < s then old c k
  else old (c + 1) k

/-- What the element at `j` is after the two copies and the two averages of one call, on a row
that starts at `R`, becomes a row that starts at `N` and has `v + 1` pixels of `ch` bytes. -/
def written (original neo : List Int8) (R N v ch s j : ℕ) : Int8 :=
  if 0 < s ∧ N + (s * ch - ch) ≤ j ∧ j < N + (s * ch - ch) + 3 then
    mean (original.getD (R + s * ch + (j - (N + (s * ch - ch)))) 0)
      (original.getD (R + (s * ch - ch) + (j - (N + (s * ch - ch)))) 0)
  else if s < v ∧ N + s * ch ≤ j ∧ j < N + s * ch + 3 then
    mean (original.getD (R + s * ch + (j - (N + s * ch))) 0)
      (original.getD (R + (s * ch + ch) + (j - (N + s * ch))) 0)
  else if N + s * ch ≤ j ∧ j < N + v * ch then
    original.getD (R + (s * ch + ch) + (j - (N + s * ch))) 0
  else if N ≤ j ∧ j < N + s * ch then original.getD (R + (j - N)) 0
  else neo.getD j 0

theorem removePixel_written {v row ch s : ℕ} (hch : 3 ≤ ch) (hs : s < v + 1)
    (horiginal : row * ch * (v + 1) + (v * ch + ch) ≤ original.length)
    (hneo : row * ch * v + v * ch ≤ neo.length) :
    ∃ b, removePixel original neo (v + 1 : ℕ) row ch s = some b ∧ b.length = neo.length ∧
      ∀ j, b.getD j 0 = written original neo (row * ch * (v + 1)) (row * ch * v) v ch s j := by
  have hsv : s * ch ≤ v * ch := Nat.mul_le_mul_right ch (Nat.le_of_lt_succ hs)
  have hR : (row : ℤ) * ch * (v + 1 : ℕ) = (row * ch * (v + 1) : ℕ) := by push_cast; rfl
  have hN : (row : ℤ) * ch * ((v + 1 : ℕ) - 1) = (row * ch * v : ℕ) := by push_cast; ring
  have hfirst : (s : ℤ) * ch = (s * ch : ℕ) := by push_cast; rfl
  generalize row * ch * (v + 1) = R at *
  generalize row * ch * v = N at *
  have hsecond : ((v + 1 : ℕ) - 1 : ℤ) * ch - (s * ch : ℕ) = (v * ch - s * ch : ℕ) := by
    rw [Nat.cast_sub hsv]; push_cast; ring
  have hmid : (R : ℤ) + (s + 1) * ch = (R + (s * ch + ch) : ℕ) := by push_cast; ring
  have hnew : ∀ x : ℕ, (x : ℤ) + (s * ch : ℕ) = (x + s * ch : ℕ) := fun x => by push_cast; rfl
  have hright : s < v → s * ch + ch ≤ v * ch := by
    intro h
    rw [← Nat.succ_mul]
    exact Nat.mul_le_mul_right ch h
  have hleft : 0 < s → ch ≤ s * ch := Nat.le_mul_of_pos_left ch
  have hleft' : 0 < s → ∀ x : ℕ, (x : ℤ) + (s - 1) * ch = (x + (s * ch - ch) : ℕ) := by
    intro h x
    rw [Nat.cast_add, Nat.cast_sub (hleft h)]
    push_cast
    ring
  have hrightPixel : (s : ℤ) + 1 < (v + 1 : ℕ) ↔ s < v := by omega
  have hleftPixel : (s : ℤ) - 1 ≥ 0 ↔ 0 < s := by omega
  obtain ⟨b₁, hb₁, hlen₁, hget₁⟩ := arraycopy_of_le original neo (s := R) (t := N)
    (n := s * ch) (by omega) (by omega) 0
  obtain ⟨b₂, hb₂, hlen₂, hget₂⟩ := arraycopy_of_le original b₁ (s := R + (s * ch + ch))
    (t := N + s * ch) (n := v * ch - s * ch) (by omega) (by omega) 0
  obtain ⟨h0, h1, h2⟩ := get_three original (a := R + s * ch) (by omega)
  obtain ⟨b₃, hb₃, hlen₃, hget₃⟩ := average_if original b₂ (P := s < v) (a := R + s * ch) (q := R + (s * ch + ch)) (p := N + s * ch)
    (fun h => ⟨rfl, by have := hright h; omega⟩) (fun h => ⟨rfl, by have := hright h; omega⟩)
  obtain ⟨b₄, hb₄, hlen₄, hget₄⟩ := average_if original b₃ (P := 0 < s) (a := R + s * ch) (q := R + (s * ch - ch))
    (p := N + (s * ch - ch))
    (fun h => ⟨hleft' h R, by have := hleft h; omega⟩)
    (fun h => ⟨hleft' h N, by have := hleft h; omega⟩)
  refine ⟨b₄, ?_, by omega, ?_⟩
  · rw [removePixel]
    simp only [hR, hN, hfirst, hsecond, hmid, hnew, hb₁, hb₂, h0, h1, h2, hrightPixel, hleftPixel,
      Option.bind_eq_bind, Option.bind_some]
    by_cases h : s < v
    · rw [if_pos h] at hb₃ ⊢
      rw [hb₃]
      exact hb₄
    · rw [if_neg h] at hb₃ ⊢
      rw [Option.some.inj hb₃]
      exact hb₄
  · intro j
    have hend : N + s * ch + (v * ch - s * ch) = N + v * ch := by
      rw [Nat.add_assoc, Nat.add_sub_cancel' hsv]
    rw [hget₄, hget₃, hget₂, hget₁, hend]
    rfl

theorem written_outside {R N v ch s j : ℕ} (hch : 3 ≤ ch) (hs : s < v + 1)
    (hj : j < N ∨ N + v * ch ≤ j) : written original neo R N v ch s j = neo.getD j 0 := by
  have hsv : s * ch ≤ v * ch := Nat.mul_le_mul_right ch (Nat.le_of_lt_succ hs)
  have hright : s < v → s * ch + ch ≤ v * ch := by
    intro h
    rw [← Nat.succ_mul]
    exact Nat.mul_le_mul_right ch h
  have hleft : 0 < s → ch ≤ s * ch := Nat.le_mul_of_pos_left ch
  rw [written, if_neg (fun h => by have := hleft h.1; omega),
    if_neg (fun h => by have := hright h.1; omega), if_neg (by omega), if_neg (by omega)]

theorem written_inside {R N v ch s c k : ℕ} (hch : 3 ≤ ch) (hc : c < v) (hk : k < ch) :
    written original neo R N v ch s (N + c * ch + k) =
      carvedByte (fun c k => original.getD (R + c * ch + k) 0) s c k := by
  have hnext : (c + 1) * ch = c * ch + ch := Nat.succ_mul c ch
  have hcv : c * ch + ch ≤ v * ch := hnext ▸ Nat.mul_le_mul_right ch hc
  rw [carvedByte, written, hnext]
  rcases lt_trichotomy (c + 1) s with hlt | rfl | hlt
  · have hcs : c * ch + ch + ch ≤ s * ch := by
      rw [← hnext, ← Nat.succ_mul]
      exact Nat.mul_le_mul_right ch hlt
    rw [if_neg (by omega), if_neg (by omega), if_neg (by omega), if_pos (by omega), if_pos hlt]
    congr 1
    omega
  · rw [hnext, Nat.add_sub_cancel, if_neg (lt_irrefl _),
      if_neg (by omega : ¬ c + 1 < c)]
    by_cases hk3 : k < 3
    · rw [if_pos ⟨by omega, by omega, by omega⟩, if_pos hk3, mean_comm]
      congr 2 <;> omega
    · rw [if_neg (by omega), if_neg (by omega), if_neg (by omega), if_pos (by omega), if_neg hk3,
        if_pos (by omega)]
      congr 1
      omega
  · have hcs : s * ch ≤ c * ch := Nat.mul_le_mul_right ch (by omega)
    have hleft : 0 < s → ch ≤ s * ch := Nat.le_mul_of_pos_left ch
    rw [if_neg (fun h => by have := hleft h.1; omega), if_neg (by omega : ¬ c + 1 < s)]
    rcases Nat.lt_or_eq_of_le (Nat.le_of_lt_succ hlt) with hlt' | rfl
    · have hcs' : s * ch + ch ≤ c * ch := by
        rw [← Nat.succ_mul]
        exact Nat.mul_le_mul_right ch hlt'
      rw [if_neg (by omega), if_pos (by omega), if_pos hlt']
      congr 1
      omega
    · rw [if_neg (lt_irrefl _), if_neg (lt_irrefl _)]
      by_cases hk3 : k < 3
      · rw [if_pos ⟨hc, by omega, by omega⟩, if_pos hk3]
        congr 2 <;> omega
      · rw [if_neg (by omega), if_pos (by omega), if_neg hk3]
        congr 1
        omega

end OneRow

section AllRows

variable {original neo : List Int8} {h v ch row : ℕ} {s : ℕ → ℕ}

def pixelByte (data : List Int8) (width channels r c k : ℕ) : Int8 :=
  data.getD ((r * width + c) * channels + k) 0

def CarvedFrom (original b : List Int8) (h v ch : ℕ) (s : ℕ → ℕ) (row : ℕ) : Prop :=
  ∀ r, row ≤ r → r < h → ∀ c < v, ∀ k < ch,
    pixelByte b v ch r c k = carvedByte (pixelByte original (v + 1) ch r) (s r) c k

/-- A call for one row leaves the rows below it alone. -/
theorem removePixel_row (neo : List Int8) (hch : 3 ≤ ch) (horiginal : original.length = h * (v + 1) * ch)
    (hneo : h * v * ch ≤ neo.length) (hrow : row < h) (hs : s row < v + 1)
    (hdone : CarvedFrom original neo h v ch s (row + 1)) :
    ∃ b, removePixel original neo (v + 1 : ℕ) row ch (s row) = some b ∧ b.length = neo.length ∧
      CarvedFrom original b h v ch s row := by
  have hfit : ∀ w, row * ch * w + w * ch ≤ h * w * ch := by
    intro w
    calc row * ch * w + w * ch = (row + 1) * (w * ch) := by ring
      _ ≤ h * (w * ch) := Nat.mul_le_mul_right _ hrow
      _ = h * w * ch := (Nat.mul_assoc ..).symm
  have hindex : ∀ w r c k, (r * w + c) * ch + k = r * ch * w + c * ch + k := by
    intro w r c k
    ring
  obtain ⟨b, hb, hlen, hget⟩ := removePixel_written hch hs
    (by rw [← Nat.succ_mul, horiginal]; exact hfit (v + 1)) ((hfit v).trans hneo)
  refine ⟨b, hb, hlen, ?_⟩
  intro r hle hr c hc k hk
  rcases Nat.lt_or_eq_of_le hle with hlt | rfl
  · rw [← hdone r hlt hr c hc k hk, pixelByte, pixelByte, hget]
    apply written_outside hch hs
    right
    calc row * ch * v + v * ch = (row + 1) * (ch * v) := by ring
      _ ≤ r * (ch * v) := Nat.mul_le_mul_right _ hlt
      _ ≤ (r * v + c) * ch + k := by rw [hindex, Nat.mul_assoc]; omega
  · rw [pixelByte, hindex, hget, written_inside hch hc hk]
    congr 1
    funext c k
    rw [pixelByte, hindex]

/-- A picture whose rows have lost one pixel each: what is left of the two neighbours of the lost
pixel, and that no other pixel has changed. -/
structure SeamRemoved (old new : ℕ → ℕ → ℕ → Int8) (h v : ℕ) (s : ℕ → ℕ) : Prop where
  left : ∀ r < h, ∀ c < v, c + 1 < s r → ∀ k < 4, new r c k = old r c k
  right : ∀ r < h, ∀ c < v, s r < c → ∀ k < 4, new r c k = old r (c + 1) k
  before : ∀ r < h, ∀ c < v, c + 1 = s r → (∀ k < 3, unsigned (new r c k) =
    (unsigned (old r c k) + unsigned (old r (s r) k)) / 2) ∧ new r c 3 = old r c 3
  after : ∀ r < h, ∀ c < v, c = s r → (∀ k < 3, unsigned (new r c k) =
    (unsigned (old r (s r) k) + unsigned (old r (s r + 1) k)) / 2) ∧ new r c 3 = old r (s r + 1) 3

theorem CarvedFrom.seamRemoved {b : List Int8} (hb : CarvedFrom original b h v 4 s 0) :
    SeamRemoved (pixelByte original (v + 1) 4) (pixelByte b v 4) h v s := by
  have hall : ∀ r < h, ∀ c < v, ∀ k < 4,
      pixelByte b v 4 r c k = carvedByte (pixelByte original (v + 1) 4 r) (s r) c k :=
    fun r hr => hb r (Nat.zero_le r) hr
  constructor
  · intro r hr c hc hlt k hk
    rw [hall r hr c hc k hk, carvedByte, if_pos hlt]
  · intro r hr c hc hlt k hk
    rw [hall r hr c hc k hk, carvedByte, if_neg (by omega), if_pos hlt]
  · intro r hr c hc heq
    constructor
    · intro k hk
      rw [hall r hr c hc k (by omega), carvedByte, if_neg (by omega), if_neg (by omega),
        if_pos hk, unsigned_mean, heq]
    · rw [hall r hr c hc 3 (by decide), carvedByte, if_neg (by omega), if_neg (by omega),
        if_neg (by decide), if_pos (by omega)]
  · intro r hr c hc heq
    constructor
    · intro k hk
      rw [hall r hr c hc k (by omega), carvedByte, if_neg (by omega), if_neg (by omega),
        if_pos hk, unsigned_mean, heq]
    · rw [hall r hr c hc 3 (by decide), carvedByte, if_neg (by omega), if_neg (by omega),
        if_neg (by decide), if_neg (by omega), heq]

end AllRows

section Results

/-- The calls of `removePixel` for all rows, from the last one up. -/
theorem seam_removed_exactly (original : ByteMat) (hchannels : original.channels = 4)
    (hcols : 1 ≤ original.cols) (s : ℕ → ℕ)
    (hs : ∀ r < original.rows, s r < original.cols) (neo : List Int8)
    (hneo : neo.length = original.rows * (original.cols - 1) * 4) :
    ∃ b, (forDown original.rows neo fun neo row =>
        removePixel original.data neo original.cols row original.channels (s row)) = some b ∧
      b.length = original.rows * (original.cols - 1) * 4 ∧
      SeamRemoved (pixelByte original.data original.cols 4) (pixelByte b (original.cols - 1) 4)
        original.rows (original.cols - 1) s := by
  obtain ⟨v, hv⟩ : ∃ v, original.cols = v + 1 := ⟨original.cols - 1, by omega⟩
  have hsize : original.data.length = original.rows * (v + 1) * 4 := by
    rw [original.size_eq, hv, hchannels]
  rw [hv, Nat.add_sub_cancel] at hneo
  rw [hv, Nat.add_sub_cancel, hchannels]
  have hstep : ∀ row b, row < original.rows →
      b.length = neo.length ∧ CarvedFrom original.data b original.rows v 4 s (row + 1) →
      ∃ b', removePixel original.data b (v + 1 : ℕ) row (4 : ℕ) (s row) = some b' ∧
        b'.length = neo.length ∧ CarvedFrom original.data b' original.rows v 4 s row := by
    intro row b hrow hb
    obtain ⟨b', hb', hlen, hcarved⟩ := removePixel_row b (by decide) hsize (by rw [hb.1, hneo])
      hrow (hv ▸ hs row hrow) hb.2
    exact ⟨b', hb', hlen.trans hb.1, hcarved⟩
  have hstart : neo.length = neo.length ∧
      CarvedFrom original.data neo original.rows v 4 s original.rows :=
    ⟨rfl, fun r hle hlt => absurd hle (not_le.mpr hlt)⟩
  obtain ⟨b, hb, hlen, hcarved⟩ := forDown_spec (fun row b => b.length = neo.length ∧
    CarvedFrom original.data b original.rows v 4 s row) hstart hstep
  exact ⟨b, hb, hlen.trans hneo, hcarved.seamRemoved⟩

def smallPicture : ByteMat where
  rows := 2
  cols := 3
  channels := 4
  data := (List.range 24).map fun i => Int8.ofNat (11 * i)
  channels_le := by decide
  size_eq := by decide
  fits := by decide

theorem small_picture_carved :
    ∃ b, (forDown 2 (List.replicate 16 0) fun neo row =>
        removePixel smallPicture.data neo 3 row 4 ((2 * row : ℕ) : ℤ)) = some b ∧
      b.length = 2 * 2 * 4 ∧
      SeamRemoved (pixelByte smallPicture.data 3 4) (pixelByte b 2 4) 2 2 (2 * ·) :=
  seam_removed_exactly smallPicture rfl (by decide) (2 * ·) (by decide) (List.replicate 16 0)
    (by decide)

end Results

end SeamRemoval
