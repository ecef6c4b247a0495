import Mathlib

/-! # Arrays with checked indices, and counting loops

Reads, writes and block copies fail outside their array; `none` is the exception. A loop is a
fold over the values of its counter, and its rule is an invariant that names the counter. Nothing
here names a particular program. -/
namespace CheckedArrays

variable {α β : Type}

def get (a : List α) (i : ℤ) : Option α := if 0 ≤ i then a[i.toNat]? else none

def set (a : List α) (i : ℤ) (x : α) : Option (List α) :=
  if 0 ≤ i ∧ i < a.length then some (a.set i.toNat x) else none

/-- `System.arraycopy`. The two arrays are different ones. -/
def arraycopy (src : List α) (srcPos : ℤ) (dest : List α) (destPos length : ℤ) :
    Option (List α) :=
  if 0 ≤ srcPos ∧ 0 ≤ destPos ∧ 0 ≤ length ∧ srcPos + length ≤ src.length ∧
      destPos + length ≤ dest.length then
    some (dest.take destPos.toNat ++ (src.drop srcPos.toNat).take length.toNat ++
      dest.drop (destPos + length).toNat)
  else none

/-- `for (int i = first; i < first + count; i++)`. -/
def forUp (first count : ℕ) (b : β) (body : β → ℕ → Option β) : Option β :=
  (List.range' first count).foldlM body b

/-- `for (int i = count - 1; i >= 0; i--)`. -/
def forDown (count : ℕ) (b : β) (body : β → ℕ → Option β) : Option β :=
  (List.range count).reverse.foldlM body b

section Arrays

variable {a : List α}

theorem get_natCast (a : List α) (i : ℕ) : get a i = a[i]? := by simp [get]

theorem get_of_lt {i : ℕ} (h : i < a.length) (d : α) : get a i = some (a.getD i d) := by
  rw [get_natCast, List.getD_eq_getElem?_getD, List.getElem?_eq_getElem h]
  rfl

theorem set_of_lt {i : ℕ} (h : i < a.length) (x : α) : set a i x = some (a.set i x) := by
  rw [set, if_pos ⟨Int.natCast_nonneg i, Int.ofNat_lt.mpr h⟩, Int.toNat_natCast]

theorem getD_set {i j : ℕ} (h : i < a.length) (x d : α) :
    (a.set i x).getD j d = if j = i then x else a.getD j d := by
  rw [List.getD_eq_getElem?_getD, List.getElem?_set, List.getD_eq_getElem?_getD]
  by_cases hj : i = j
  · rw [if_pos hj, if_pos h, if_pos hj.symm, Option.getD_some]
  · rw [if_neg hj, if_neg (Ne.symm hj)]

theorem arraycopy_of_le (src dest : List α) {s t n : ℕ} (hs : s + n ≤ src.length)
    (ht : t + n ≤ dest.length) (d : α) :
    ∃ b, arraycopy src s dest t n = some b ∧ b.length = dest.length ∧
      ∀ j, b.getD j d = if t ≤ j ∧ j < t + n then src.getD (s + (j - t)) d else dest.getD j d := by
  have hleft : (dest.take t).length = t := by rw [List.length_take]; omega
  have hmid : ((src.drop s).take n).length = n := by
    rw [List.length_take, List.length_drop]; omega
  refine ⟨dest.take t ++ (src.drop s).take n ++ dest.drop (t + n), ?_, ?_, fun j => ?_⟩
  · rw [arraycopy, if_pos (by omega), ← Nat.cast_add]
    rfl
  · rw [List.length_append, List.length_append, hleft, hmid, List.length_drop]
    omega
  · simp only [List.getD_eq_getElem?_getD]
    rcases Nat.lt_or_ge j t with hlt | hge
    · rw [if_neg (by omega), List.append_assoc, List.getElem?_append_left (by omega),
        List.getElem?_take_of_lt hlt]
    · rcases Nat.lt_or_ge j (t + n) with hlt' | hge'
      · rw [if_pos ⟨hge, hlt'⟩, List.append_assoc, List.getElem?_append_right (by omega),
          List.getElem?_append_left (by omega), hleft, List.getElem?_take_of_lt (by omega),
          List.getElem?_drop]
      · rw [if_neg (by omega), List.getElem?_append_right (by rw [List.length_append]; omega),
          List.length_append, hleft, hmid, List.getElem?_drop]
        congr 2
        omega

end Arrays

section Loops

variable {body : β → ℕ → Option β} {b : β}

theorem forUp_spec (P : ℕ → β → Prop) {first : ℕ} (count : ℕ) (h₀ : P first b)
    (hstep : ∀ i b, first ≤ i → i < first + count → P i b → ∃ b', body b i = some b' ∧ P (i + 1) b') :
    ∃ b', forUp first count b body = some b' ∧ P (first + count) b' := by
  induction count generalizing first b with
  | zero => exact ⟨b, rfl, h₀⟩
  | succ count ih =>
    obtain ⟨b₁, hb₁, h₁⟩ := hstep first b le_rfl (by omega) h₀
    obtain ⟨b₂, hb₂, h₂⟩ := ih h₁ fun i b hi hlt => hstep i b (by omega) (by omega)
    refine ⟨b₂, ?_, by convert h₂ using 1; omega⟩
    rw [forUp, List.range'_succ, List.foldlM_cons, hb₁]
    exact hb₂

theorem forDown_spec (P : ℕ → β → Prop) {count : ℕ} (h₀ : P count b)
    (hstep : ∀ i b, i < count → P (i + 1) b → ∃ b', body b i = some b' ∧ P i b') :
    ∃ b', forDown count b body = some b' ∧ P 0 b' := by
  induction count generalizing b with
  | zero => exact ⟨b, rfl, h₀⟩
  | succ count ih =>
    obtain ⟨b₁, hb₁, h₁⟩ := hstep count b (by omega) h₀
    obtain ⟨b₂, hb₂, h₂⟩ := ih h₁ fun i b hi => hstep i b (by omega)
    refine ⟨b₂, ?_, h₂⟩
    rw [forDown, List.range_succ, List.reverse_append, List.reverse_singleton,
      List.singleton_append, List.foldlM_cons, hb₁]
    exact hb₂

theorem forDown_succ_none {count : ℕ} (h : body b count = none) :
    forDown (count + 1) b body = none := by
  rw [forDown, List.range_succ, List.reverse_append, List.reverse_singleton,
    List.singleton_append, List.foldlM_cons, h]
  rfl

end Loops

end CheckedArrays
