import Mathlib

/-! # Totals

Numbers that are zero almost everywhere have a total, also over an infinite type. Three families
of numbers are in balance if the third one adds up to as much as the first two; a step that
touches one number of each keeps the balance if its own numbers agree. -/
namespace Totals

variable {ι κ μ : Type}

/-- The values of `f` add up to `n`. -/
def Total (f : ι → ℕ) (n : ℕ) : Prop := ∃ g : ι →₀ ℕ, ⇑g = f ∧ (g.sum fun _ k => k) = n

theorem total_zero : Total (fun _ : ι => 0) 0 := ⟨0, rfl, rfl⟩

theorem Total.update [DecidableEq ι] {f : ι → ℕ} {n : ℕ} (h : Total f n) (i : ι) (v : ℕ) :
    ∃ m, Total (Function.update f i v) m ∧ m + f i = n + v := by
  obtain ⟨g, rfl, rfl⟩ := h
  refine ⟨_, ⟨g.update i v, ?_, rfl⟩, ?_⟩
  · ext j
    by_cases hj : j = i <;> simp [hj]
  · exact Finsupp.sum_update_add g i v (fun _ k => k) (fun _ => rfl) fun _ _ _ => rfl

theorem Total.value_le {f : ι → ℕ} {n : ℕ} (h : Total f n) (i : ι) : f i ≤ n := by
  obtain ⟨g, rfl, rfl⟩ := h
  by_cases hi : g i = 0
  · omega
  · exact Finset.single_le_sum (fun _ _ => Nat.zero_le _) (Finsupp.mem_support_iff.mpr hi)

theorem Total.eq_zero {f : ι → ℕ} {n : ℕ} (h : Total f n) (hf : ∀ i, f i = 0) : n = 0 := by
  obtain ⟨g, rfl, rfl⟩ := h
  exact Finset.sum_eq_zero fun i _ => hf i

def Balance (queued : ι → ℕ) (held : κ → ℕ) (owed : μ → ℕ) : Prop :=
  ∃ a b c, Total queued a ∧ Total held b ∧ Total owed c ∧ c = a + b

variable {queued : ι → ℕ} {held : κ → ℕ} {owed : μ → ℕ}

theorem balance_zero : Balance (fun _ : ι => 0) (fun _ : κ => 0) (fun _ : μ => 0) :=
  ⟨0, 0, 0, total_zero, total_zero, total_zero, rfl⟩

theorem Balance.update [DecidableEq ι] [DecidableEq κ] [DecidableEq μ]
    (h : Balance queued held owed) (i : ι) (j : κ) (k : μ) {a b c : ℕ}
    (he : c + queued i + held j = a + b + owed k) :
    Balance (Function.update queued i a) (Function.update held j b)
      (Function.update owed k c) := by
  obtain ⟨x, y, z, hx, hy, hz, hsum⟩ := h
  obtain ⟨x', hx', hxi⟩ := hx.update i a
  obtain ⟨y', hy', hyj⟩ := hy.update j b
  obtain ⟨z', hz', hzk⟩ := hz.update k c
  exact ⟨x', y', z', hx', hy', hz', by omega⟩

/-- As long as something is owed, something is there. -/
theorem Balance.present (h : Balance queued held owed) {k : μ} (hk : owed k ≠ 0) :
    (∃ i, queued i ≠ 0) ∨ ∃ j, held j ≠ 0 := by
  obtain ⟨x, y, z, hx, hy, hz, hsum⟩ := h
  by_contra hnone
  push Not at hnone
  have hx0 := hx.eq_zero hnone.1
  have hy0 := hy.eq_zero hnone.2
  have hle := hz.value_le k
  omega

end Totals
