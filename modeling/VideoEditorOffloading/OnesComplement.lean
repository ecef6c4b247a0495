import Mathlib

/-! # Sums in ones' complement

Sums of 16-bit words with end-around carry. There are two zeros, `0` and `0xffff`, and only the sum
of words that are all 0 is the first one. Words are read from bytes with the low byte first, and
the last byte of an odd number is padded with 0. Nothing here names a particular program. -/
namespace OnesComplement

/-- The carry out of the upper end comes in at the lower one. -/
def add (a b : ℕ) : ℕ := (a + b) % 65536 + (a + b) / 65536

def sum (ws : List ℕ) : ℕ := ws.foldl add 0

/-- The number from 1 to `0xffff` that is congruent to `s`, and 0 for 0. -/
def reduce (s : ℕ) : ℕ := if s = 0 then 0 else (s - 1) % 65535 + 1

def words : List UInt8 → List ℕ
  | b₀ :: b₁ :: bytes => (b₀.toNat + 256 * b₁.toNat) :: words bytes
  | [b] => [b.toNat]
  | [] => []

section Reduction

variable {s a b : ℕ}

theorem reduce_lt (s : ℕ) : reduce s < 65536 := by
  rw [reduce]
  split <;> omega

theorem reduce_mod (s : ℕ) : reduce s % 65535 = s % 65535 := by
  rw [reduce]
  split <;> omega

theorem reduce_eq_max_iff : reduce s = 65535 ↔ s ≠ 0 ∧ s % 65535 = 0 := by
  rw [reduce]
  split <;> omega

/-- A sum and its complement make the second zero, also when the sum is 0. -/
theorem reduce_complement (s : ℕ) : reduce (s + (65535 - reduce s)) = 65535 := by
  have hlt := reduce_lt s
  have hmod := reduce_mod s
  rw [reduce_eq_max_iff]
  constructor
  · intro hzero
    obtain rfl : s = 0 := by omega
    exact absurd hzero (by decide)
  · omega

theorem add_reduce (hb : b < 65536) : add (reduce s) b = reduce (s + b) := by
  rw [add, reduce, reduce]
  split <;> split <;> omega

theorem eq_reduce (ha : a < 65536) (hzero : a = 0 ↔ s = 0) (hmod : a % 65535 = s % 65535) :
    a = reduce s := by
  rw [reduce]
  split <;> omega

/-- Two steps are enough to fold a sum of 32 bits. -/
theorem fold_twice (hs : s < 2 ^ 32) :
    (s / 65536 + s % 65536 + (s / 65536 + s % 65536) / 65536) % 65536 = reduce s := by
  obtain ⟨q, r, hq, hr, rfl⟩ : ∃ q r, q < 65536 ∧ r < 65536 ∧ s = 65536 * q + r :=
    ⟨s / 65536, s % 65536, by omega, by omega, by omega⟩
  have hdiv : (65536 * q + r) / 65536 = q := by omega
  have hmod : (65536 * q + r) % 65536 = r := by omega
  rw [hdiv, hmod]
  -- The second step adds the carry of the first one, which is at most 1.
  have hvalue : (q + r + (q + r) / 65536) % 65536 =
      if q + r < 65536 then q + r else q + r - 65535 := by
    split
    · omega
    · have hcarry : (q + r) / 65536 = 1 := by omega
      omega
  have hsum : (65536 * q + r) % 65535 = (q + r) % 65535 := by omega
  rw [hvalue]
  apply eq_reduce
  · split <;> omega
  · split <;> omega
  · rw [hsum]
    split <;> omega

end Reduction

section Sums

variable {ws : List ℕ}

theorem foldl_add (h : ∀ w ∈ ws, w < 65536) (s : ℕ) :
    ws.foldl add (reduce s) = reduce (s + ws.sum) := by
  induction ws generalizing s with
  | nil => rw [List.foldl_nil, List.sum_nil, Nat.add_zero]
  | cons w ws ih =>
    rw [List.forall_mem_cons] at h
    rw [List.foldl_cons, add_reduce h.1, ih h.2, List.sum_cons, Nat.add_assoc]

theorem sum_eq_reduce (h : ∀ w ∈ ws, w < 65536) : sum ws = reduce ws.sum := by
  have hfold := foldl_add h 0
  rw [Nat.zero_add] at hfold
  exact hfold

theorem sum_eq_max_iff (h : ∀ w ∈ ws, w < 65536) :
    sum ws = 65535 ↔ ws.sum ≠ 0 ∧ ws.sum % 65535 = 0 := by
  rw [sum_eq_reduce h, reduce_eq_max_iff]

end Sums

section Words

theorem words_lt (bytes : List UInt8) : ∀ w ∈ words bytes, w < 65536 := by
  induction bytes using words.induct with
  | case1 b₀ b₁ bytes ih =>
    have h₀ := b₀.toNat_lt
    have h₁ := b₁.toNat_lt
    rw [words, List.forall_mem_cons]
    exact ⟨by omega, ih⟩
  | case2 b =>
    have h := b.toNat_lt
    rw [words, List.forall_mem_cons]
    exact ⟨by omega, fun w hw => absurd hw List.not_mem_nil⟩
  | case3 => exact fun w hw => absurd hw List.not_mem_nil

theorem sum_words_zeros (n : ℕ) : (words (List.replicate n 0)).sum = 0 := by
  induction n using Nat.twoStepInduction with
  | zero => rfl
  | one => rfl
  | more n ih _ =>
    rw [List.replicate_succ, List.replicate_succ, words, List.sum_cons, ih]
    rfl

theorem sum_words_set {bytes : List UInt8} {n : ℕ} (h₀ : bytes[2 * n]? = some 0)
    (h₁ : bytes[2 * n + 1]? = some 0) (b₀ b₁ : UInt8) :
    (words ((bytes.set (2 * n) b₀).set (2 * n + 1) b₁)).sum =
      (words bytes).sum + (b₀.toNat + 256 * b₁.toNat) := by
  induction n generalizing bytes with
  | zero =>
    cases bytes with
    | nil => cases h₀
    | cons c₀ bytes =>
      cases bytes with
      | nil => cases h₁
      | cons c₁ bytes =>
        cases h₀
        cases h₁
        have hzeros : (words (0 :: 0 :: bytes)).sum = (words bytes).sum := by
          rw [words, List.sum_cons]
          exact Nat.zero_add _
        have hset : ((0 :: 0 :: bytes).set 0 b₀).set 1 b₁ = b₀ :: b₁ :: bytes := rfl
        rw [Nat.mul_zero, Nat.zero_add, hset, hzeros, words, List.sum_cons, Nat.add_comm]
  | succ n ih =>
    cases bytes with
    | nil => cases h₀
    | cons c₀ bytes =>
      cases bytes with
      | nil => cases h₁
      | cons c₁ bytes =>
        have hrest := ih h₀ h₁
        simp only [Nat.mul_succ, List.set_cons_succ, words, List.sum_cons]
        omega

end Words

end OnesComplement
