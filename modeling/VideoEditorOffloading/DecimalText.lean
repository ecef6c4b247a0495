import Mathlib

/-! # Numbers as decimal text

What the conversions of `printf` write and those of `scanf` read, over bytes: natural numbers,
integers, and reals with six decimals. Reals are exact numbers; infinities, NaN and hexadecimal
text are left out. Nothing here names a particular program. -/
namespace DecimalText

section Writing

def natText (n : ℕ) : List UInt8 :=
  if n = 0 then [48] else (Nat.digits 10 n).reverse.map fun d => UInt8.ofNat (48 + d)

/-- `%d` and `%llu` -/
def intText (x : ℤ) : List UInt8 := if x < 0 then 45 :: natText x.natAbs else natText x.natAbs

/-- The last `k` digits, with zeros in front. -/
def padded : ℕ → ℕ → List UInt8
  | 0, _ => []
  | k + 1, n => padded k (n / 10) ++ [UInt8.ofNat (48 + n % 10)]

/-- To the nearest, ties to even. -/
def roundEven (x : ℚ) : ℕ :=
  let f := ⌊x⌋₊
  if x - f < 1 / 2 then f else if 1 / 2 < x - f then f + 1 else if Even f then f else f + 1

def millionths (x : ℚ) : ℕ := roundEven (|x| * 10 ^ 6)

/-- `%f` and `%lf` -/
def fixedText (x : ℚ) : List UInt8 :=
  (if x < 0 then [45] else []) ++ natText (millionths x / 10 ^ 6) ++ [46] ++
    padded 6 (millionths x % 10 ^ 6)

def shown (x : ℚ) : ℚ := (if x < 0 then -1 else 1) * (millionths x / 10 ^ 6)

end Writing

section Scanning

def isDigit (c : UInt8) : Bool := 48 ≤ c && c ≤ 57

def isSpace (c : UInt8) : Bool := c == 32 || (9 ≤ c && c ≤ 13)

def natValue (cs : List UInt8) : ℕ := cs.foldl (fun n c => 10 * n + (c.toNat - 48)) 0

def scanSign : List UInt8 → ℤ × List UInt8
  | 45 :: cs => (-1, cs)
  | 43 :: cs => (1, cs)
  | cs => (1, cs)

/-- `%d`, as a number that is not yet bounded. White space in front is skipped. -/
def scanInt (cs : List UInt8) : Option (ℤ × List UInt8) :=
  let (sign, cs) := scanSign (cs.dropWhile isSpace)
  if cs.takeWhile isDigit = [] then none
  else some (sign * natValue (cs.takeWhile isDigit), cs.dropWhile isDigit)

/-- An exponent without digits is left in the text. -/
def scanExponent (cs : List UInt8) : ℤ × List UInt8 :=
  match cs with
  | c :: cs' =>
    let (sign, ds) := scanSign cs'
    if (c == 101 || c == 69) && ds.takeWhile isDigit != [] then
      (sign * natValue (ds.takeWhile isDigit), ds.dropWhile isDigit)
    else (0, cs)
  | [] => (0, [])

/-- A point and the digits behind it, which may be missing. -/
def scanFraction : List UInt8 → List UInt8 × List UInt8
  | 46 :: cs => (cs.takeWhile isDigit, cs.dropWhile isDigit)
  | cs => ([], cs)

/-- `%lf` -/
def scanReal (cs : List UInt8) : Option (ℚ × List UInt8) :=
  let (sign, cs) := scanSign (cs.dropWhile isSpace)
  let whole := cs.takeWhile isDigit
  let (fraction, cs) := scanFraction (cs.dropWhile isDigit)
  if whole ++ fraction = [] then none
  else
    let (exponent, cs) := scanExponent cs
    some (sign * (natValue (whole ++ fraction) / 10 ^ fraction.length) * 10 ^ exponent, cs)

/-- A character of the format that is not a conversion. -/
def scanChar (c : UInt8) : List UInt8 → Option (List UInt8)
  | [] => none
  | c' :: cs => if c' = c then some cs else none

def Ends (cs : List UInt8) : Prop :=
  ∀ c ∈ cs.head?, isDigit c = false ∧ c ≠ 46 ∧ c ≠ 101 ∧ c ≠ 69

end Scanning

section Digits

theorem digit_spec : ∀ d < 10, isDigit (UInt8.ofNat (48 + d)) = true ∧
    (UInt8.ofNat (48 + d)).toNat - 48 = d := by
  decide

theorem natText_isDigit {n : ℕ} : ∀ c ∈ natText n, isDigit c = true := by
  intro c hc
  rw [natText] at hc
  split at hc
  · rw [List.mem_singleton.mp hc]
    rfl
  · obtain ⟨d, hd, rfl⟩ := List.mem_map.mp hc
    exact (digit_spec d (Nat.digits_lt_base (by norm_num) (List.mem_reverse.mp hd))).1

theorem natText_ne_nil (n : ℕ) : natText n ≠ [] := by
  rw [natText]
  split
  · simp
  · rename_i hn
    simpa [Nat.digits_ne_nil_iff_ne_zero] using hn

theorem foldl_natValue (a : ℕ) (cs : List UInt8) :
    cs.foldl (fun n c => 10 * n + (c.toNat - 48)) a = a * 10 ^ cs.length + natValue cs := by
  induction cs generalizing a with
  | nil => simp [natValue]
  | cons c cs ih =>
    have hcons : natValue (c :: cs) = (c.toNat - 48) * 10 ^ cs.length + natValue cs := by
      rw [natValue, List.foldl_cons, ih, Nat.mul_zero, Nat.zero_add]
    rw [List.foldl_cons, ih, hcons, List.length_cons]
    ring

theorem natValue_append (cs ds : List UInt8) :
    natValue (cs ++ ds) = natValue cs * 10 ^ ds.length + natValue ds := by
  rw [natValue, List.foldl_append, foldl_natValue]
  rfl

theorem natValue_digits {l : List ℕ} (hl : ∀ d ∈ l, d < 10) :
    natValue (l.reverse.map fun d => UInt8.ofNat (48 + d)) = Nat.ofDigits 10 l := by
  induction l with
  | nil => rfl
  | cons d l ih =>
    rw [List.reverse_cons, List.map_append, natValue_append,
      ih fun e he => hl e (List.mem_cons_of_mem d he), Nat.ofDigits_cons]
    have hd : natValue [UInt8.ofNat (48 + d)] = d := by
      rw [natValue, List.foldl_cons, List.foldl_nil, (digit_spec d (hl d List.mem_cons_self)).2]
      omega
    rw [List.map_cons, List.map_nil, hd, List.length_singleton]
    push_cast
    ring

@[simp] theorem natValue_natText (n : ℕ) : natValue (natText n) = n := by
  rw [natText]
  split
  · rename_i hn
    rw [hn]
    rfl
  · rw [natValue_digits fun d hd => Nat.digits_lt_base (by norm_num) hd, Nat.ofDigits_digits]

theorem length_natText_le {n k : ℕ} (hk : 0 < k) (hn : n < 10 ^ k) : (natText n).length ≤ k := by
  rw [natText]
  split
  · exact hk
  · rw [List.length_map, List.length_reverse]
    exact (Nat.digits_length_le_iff (by norm_num) n).mpr hn

@[simp] theorem length_padded (k n : ℕ) : (padded k n).length = k := by
  induction k generalizing n with
  | zero => rfl
  | succ k ih => rw [padded, List.length_append, ih, List.length_singleton]

theorem padded_isDigit {k n : ℕ} : ∀ c ∈ padded k n, isDigit c = true := by
  induction k generalizing n with
  | zero => simp [padded]
  | succ k ih =>
    intro c hc
    rcases List.mem_append.mp hc with hc | hc
    · exact ih c hc
    · rw [List.mem_singleton.mp hc]
      exact (digit_spec _ (Nat.mod_lt _ (by norm_num))).1

theorem natValue_padded {k n : ℕ} (hn : n < 10 ^ k) : natValue (padded k n) = n := by
  induction k generalizing n with
  | zero =>
    obtain rfl : n = 0 := by simpa using hn
    rfl
  | succ k ih =>
    have hlast : natValue [UInt8.ofNat (48 + n % 10)] = n % 10 := by
      rw [natValue, List.foldl_cons, List.foldl_nil,
        (digit_spec _ (Nat.mod_lt n (by norm_num))).2, Nat.mul_zero, Nat.zero_add]
    rw [padded, natValue_append, ih (by rw [pow_succ] at hn; omega), hlast, List.length_singleton]
    omega

end Digits

section RoundTrips

variable {cs ds : List UInt8}

theorem Ends.cons {c : UInt8} (h : isDigit c = false ∧ c ≠ 46 ∧ c ≠ 101 ∧ c ≠ 69) :
    Ends (c :: cs) := by
  intro c' hc'
  obtain rfl := Option.some.inj hc'
  exact h

theorem takeWhile_digits (cs ds : List UInt8) (h : ∀ c ∈ cs.head?, isDigit c = false)
    (hds : ∀ c ∈ ds, isDigit c = true) :
    (ds ++ cs).takeWhile isDigit = ds ∧ (ds ++ cs).dropWhile isDigit = cs := by
  have hcs : cs.takeWhile isDigit = [] ∧ cs.dropWhile isDigit = cs := by
    cases cs with
    | nil => exact ⟨rfl, rfl⟩
    | cons c cs => simp [h c rfl]
  rw [List.takeWhile_append_of_pos hds, List.dropWhile_append_of_pos hds, hcs.1, hcs.2,
    List.append_nil]
  exact ⟨rfl, rfl⟩

theorem digit_head {c : UInt8} (h : isDigit c = true) : isSpace c = false ∧ c ≠ 45 ∧ c ≠ 43 := by
  simp only [isDigit, Bool.and_eq_true, decide_eq_true_eq, UInt8.le_iff_toNat_le] at h
  refine ⟨?_, ?_, ?_⟩
  · simp only [isSpace, Bool.or_eq_false_iff, beq_eq_false_iff_ne, Bool.and_eq_false_iff,
      decide_eq_false_iff_not, UInt8.le_iff_toNat_le, ne_eq, ← UInt8.toNat_inj]
    simp at h ⊢
    omega
  · rintro rfl
    simp at h
  · rintro rfl
    simp at h

theorem scanSign_of_digit {c : UInt8} (h : isDigit c = true) :
    scanSign (c :: cs) = (1, c :: cs) := by
  obtain ⟨-, h₁, h₂⟩ := digit_head h
  rw [scanSign]
  · exact fun _ heq => h₁ (List.cons.inj heq).1
  · exact fun _ heq => h₂ (List.cons.inj heq).1

theorem natText_eq_cons (n : ℕ) : ∃ c cs, natText n = c :: cs ∧ isDigit c = true := by
  obtain ⟨c, cs, h⟩ := List.exists_cons_of_ne_nil (natText_ne_nil n)
  exact ⟨c, cs, h, natText_isDigit c (h ▸ List.mem_cons_self)⟩

theorem scanSign_text (neg : Prop) [Decidable neg] (n : ℕ) (cs : List UInt8) :
    scanSign ((((if neg then [45] else []) ++ natText n) ++ cs).dropWhile isSpace) =
      (if neg then -1 else 1, natText n ++ cs) := by
  obtain ⟨c, ds, hn, hc⟩ := natText_eq_cons n
  split
  · rw [List.append_assoc, List.singleton_append, List.dropWhile_cons_of_neg (by decide)]
    rfl
  · rw [List.nil_append, hn, List.cons_append,
      List.dropWhile_cons_of_neg (by simp [(digit_head hc).1]), scanSign_of_digit hc]

theorem intText_eq (x : ℤ) :
    intText x = (if x < 0 then [45] else []) ++ natText x.natAbs := by
  rw [intText]
  split <;> rfl

theorem scanInt_intText (x : ℤ) (hcs : Ends cs) : scanInt (intText x ++ cs) = some (x, cs) := by
  obtain ⟨htake, hdrop⟩ := takeWhile_digits cs (natText x.natAbs) (fun c hc => (hcs c hc).1)
    natText_isDigit
  rw [scanInt, intText_eq, scanSign_text]
  simp only [htake, hdrop, natText_ne_nil, if_false, natValue_natText]
  split <;> congr <;> omega

theorem scanExponent_of_ends (hcs : Ends cs) : scanExponent cs = (0, cs) := by
  cases cs with
  | nil => rfl
  | cons c cs =>
    obtain ⟨-, -, h₁, h₂⟩ := hcs c rfl
    simp [scanExponent, h₁, h₂]

theorem scanReal_fixedText (x : ℚ) (hcs : Ends cs) :
    scanReal (fixedText x ++ cs) = some (shown x, cs) := by
  obtain ⟨hwhole, hpoint⟩ := takeWhile_digits (46 :: (padded 6 (millionths x % 10 ^ 6) ++ cs))
    (natText (millionths x / 10 ^ 6)) (by rintro c ⟨rfl⟩; rfl) natText_isDigit
  obtain ⟨htake, hdrop⟩ := takeWhile_digits cs (padded 6 (millionths x % 10 ^ 6))
    (fun c hc => (hcs c hc).1) padded_isDigit
  have htext : fixedText x ++ cs =
      ((if x < 0 then [45] else []) ++ natText (millionths x / 10 ^ 6)) ++
        46 :: (padded 6 (millionths x % 10 ^ 6) ++ cs) := by
    rw [fixedText]
    simp only [List.append_assoc, List.cons_append, List.nil_append]
  have hdigits : natValue (natText (millionths x / 10 ^ 6) ++ padded 6 (millionths x % 10 ^ 6)) =
      millionths x := by
    rw [natValue_append, natValue_natText, natValue_padded (Nat.mod_lt _ (by norm_num)),
      length_padded]
    omega
  rw [htext, scanReal, scanSign_text]
  simp only [hwhole, hpoint, scanFraction, htake, hdrop, hdigits, scanExponent_of_ends hcs,
    List.append_eq_nil_iff, natText_ne_nil, false_and, if_false, length_padded, zpow_zero, mul_one]
  rw [shown]
  split <;> norm_num

end RoundTrips

section Sizes

theorem isDigit_range {c : UInt8} (h : isDigit c = true) : 45 ≤ c.toNat ∧ c.toNat ≤ 57 := by
  simp only [isDigit, Bool.and_eq_true, decide_eq_true_eq, UInt8.le_iff_toNat_le] at h
  exact ⟨le_trans (by decide) h.1, h.2⟩

theorem intText_range {x : ℤ} : ∀ c ∈ intText x, 45 ≤ c.toNat ∧ c.toNat ≤ 57 := by
  intro c hc
  rw [intText_eq] at hc
  rcases List.mem_append.mp hc with hc | hc
  · split at hc
    · rw [List.mem_singleton.mp hc]
      decide
    · cases hc
  · exact isDigit_range (natText_isDigit c hc)

theorem fixedText_range {x : ℚ} : ∀ c ∈ fixedText x, 45 ≤ c.toNat ∧ c.toNat ≤ 57 := by
  intro c hc
  simp only [fixedText, List.mem_append] at hc
  rcases hc with ((hc | hc) | hc) | hc
  · split at hc
    · rw [List.mem_singleton.mp hc]
      decide
    · cases hc
  · exact isDigit_range (natText_isDigit c hc)
  · rw [List.mem_singleton.mp hc]
    decide
  · exact isDigit_range (padded_isDigit c hc)

theorem length_intText_le {x : ℤ} {k : ℕ} (hk : 0 < k) (hx : x.natAbs < 10 ^ k) :
    (intText x).length ≤ k + 1 := by
  have hlen := length_natText_le hk hx
  rw [intText]
  split
  · rw [List.length_cons]
    omega
  · omega

theorem roundEven_le {x : ℚ} {n : ℕ} (hx : x ≤ n) : roundEven x ≤ n := by
  have hfloor : ⌊x⌋₊ ≤ n := Nat.floor_le_of_le hx
  rcases Nat.lt_or_ge ⌊x⌋₊ n with hlt | hge
  · simp only [roundEven]
    split_ifs <;> omega
  · have hn : ⌊x⌋₊ = n := le_antisymm hfloor hge
    have hfraction : x - ⌊x⌋₊ < 1 / 2 := by
      rw [hn]
      linarith
    simp only [roundEven, if_pos hfraction]
    exact hfloor

theorem length_fixedText_le {x : ℚ} {k : ℕ} (hx : |x| ≤ 10 ^ k) :
    (fixedText x).length ≤ k + 9 := by
  have hround : millionths x ≤ 10 ^ (k + 6) := by
    apply roundEven_le
    rw [pow_add]
    push_cast
    exact mul_le_mul_of_nonneg_right hx (by norm_num)
  have hwhole : millionths x / 10 ^ 6 < 10 ^ (k + 1) := by
    rw [Nat.div_lt_iff_lt_mul (by norm_num)]
    refine lt_of_le_of_lt hround ?_
    rw [← pow_add]
    exact Nat.pow_lt_pow_right (by norm_num) (by omega)
  have hlen := length_natText_le (Nat.succ_pos k) hwhole
  simp only [fixedText, List.length_append, length_padded, List.length_singleton]
  split
  · rw [List.length_singleton]
    omega
  · rw [List.length_nil]
    omega

end Sizes

end DecimalText
