import Mathlib

/-! # Positions in a list and in its visible part

A list with hidden elements is edited by position. The positions count the hidden elements, the
reader does not see them. When are the two numberings the same? -/
namespace ListPositions

variable {α : Type} {p : α → Bool} {l shown hidden : List α}

theorem insertIdx_append (xs ys : List α) (x : α) :
    (xs ++ ys).insertIdx xs.length x = xs ++ x :: ys := by
  induction xs with
  | nil => rfl
  | cons a xs ih => simpa using ih

theorem mem_eraseIdx_of_nodup (hd : l.Nodup) (i : ℕ) (x : α) :
    x ∈ l.eraseIdx i ↔ x ∈ l ∧ x ∉ (l.drop i).take 1 := by
  have hcut : l.drop i = (l.drop i).take 1 ++ l.drop (i + 1) := by
    rw [← List.drop_drop, List.take_append_drop]
  have hl : l = l.take i ++ ((l.drop i).take 1 ++ l.drop (i + 1)) := by
    rw [← hcut, List.take_append_drop]
  rw [hl] at hd
  obtain ⟨-, hrest, hfront⟩ := List.nodup_append.mp hd
  obtain ⟨-, -, hback⟩ := List.nodup_append.mp hrest
  rw [List.eraseIdx_eq_take_drop_succ]
  constructor
  · intro hx
    constructor
    · rw [hl]
      rcases List.mem_append.mp hx with hx | hx
      · exact List.mem_append_left _ hx
      · exact List.mem_append_right _ (List.mem_append_right _ hx)
    · intro hmid
      rcases List.mem_append.mp hx with hx | hx
      · exact hfront x hx x (List.mem_append_left _ hmid) rfl
      · exact hback x hmid x hx rfl
  · rintro ⟨hx, hmid⟩
    rw [hl, List.mem_append, List.mem_append] at hx
    rcases hx with hx | hx | hx
    · exact List.mem_append_left _ hx
    · exact absurd hx hmid
    · exact List.mem_append_right _ hx

/-- No hidden element stands before a visible one. -/
def VisibleFirst (p : α → Bool) (l : List α) : Prop := l.Pairwise fun a b => p b → p a

instance : Decidable (VisibleFirst p l) :=
  inferInstanceAs (Decidable (l.Pairwise fun a b => p b → p a))

theorem VisibleFirst.split (h : VisibleFirst p l) :
    ∃ shown hidden, l = shown ++ hidden ∧ (∀ a ∈ shown, p a) ∧ ∀ a ∈ hidden, ¬ p a := by
  induction l with
  | nil => exact ⟨[], [], rfl, by simp, by simp⟩
  | cons a l ih =>
    obtain ⟨hfirst, hrest⟩ := List.pairwise_cons.mp h
    by_cases ha : p a
    · obtain ⟨shown, hidden, rfl, hs, hh⟩ := ih hrest
      exact ⟨a :: shown, hidden, rfl, by simpa [ha] using hs, hh⟩
    · refine ⟨[], a :: l, rfl, by simp, ?_⟩
      intro b hb hpb
      rcases List.mem_cons.mp hb with rfl | hb
      · exact ha hpb
      · exact ha (hfirst b hb hpb)

theorem visibleFirst_append (hs : ∀ a ∈ shown, p a) (hh : ∀ a ∈ hidden, ¬ p a) :
    VisibleFirst p (shown ++ hidden) := by
  apply List.pairwise_append.mpr
  refine ⟨List.pairwise_of_forall_mem_list ?_, List.pairwise_of_forall_mem_list ?_, ?_⟩
  · intro a ha b _ _
    exact hs a ha
  · intro a _ b hb hpb
    exact absurd hpb (hh b hb)
  · intro a ha b _ _
    exact hs a ha

theorem filter_split (hs : ∀ a ∈ shown, p a) (hh : ∀ a ∈ hidden, ¬ p a) :
    (shown ++ hidden).filter p = shown := by
  rw [List.filter_append, List.filter_eq_self.mpr hs, List.filter_eq_nil_iff.mpr hh,
    List.append_nil]

theorem VisibleFirst.filter_eraseIdx (h : VisibleFirst p l) {i : ℕ}
    (hi : i < (l.filter p).length) : (l.eraseIdx i).filter p = (l.filter p).eraseIdx i := by
  obtain ⟨shown, hidden, rfl, hs, hh⟩ := h.split
  rw [filter_split hs hh] at hi ⊢
  rw [List.eraseIdx_append_of_lt_length hi]
  apply filter_split
  · intro a ha
    exact hs a (List.mem_of_mem_eraseIdx ha)
  · exact hh

theorem VisibleFirst.filter_insertIdx (h : VisibleFirst p l) {j : ℕ}
    (hj : j ≤ (l.filter p).length) {x : α} (hx : p x) :
    (l.insertIdx j x).filter p = (l.filter p).insertIdx j x := by
  obtain ⟨shown, hidden, rfl, hs, hh⟩ := h.split
  rw [filter_split hs hh] at hj ⊢
  obtain ⟨xs, ys, rfl, rfl⟩ : ∃ xs ys, shown = xs ++ ys ∧ xs.length = j :=
    ⟨shown.take j, shown.drop j, by simp, by simpa using hj⟩
  have hins : (xs ++ ys ++ hidden).insertIdx xs.length x = (xs ++ x :: ys) ++ hidden := by
    rw [List.append_assoc, insertIdx_append]
    simp
  rw [hins, insertIdx_append]
  apply filter_split
  · intro a ha
    rcases List.mem_append.mp ha with ha | ha
    · exact hs a (by simp [ha])
    · rcases List.mem_cons.mp ha with rfl | ha
      · exact hx
      · exact hs a (by simp [ha])
  · exact hh

/-- Taking a hidden element out leaves what is visible as long as it was. -/
theorem visible_of_erase {i : ℕ} (hi : i < (l.filter p).length) (hl : i < l.length)
    (h : (l.eraseIdx i).filter p = (l.filter p).eraseIdx i) : p l[i] := by
  by_contra hp
  have hcut : l = l.take i ++ l[i] :: l.drop (i + 1) := by simp
  have hsame : (l.eraseIdx i).filter p = l.filter p := by
    rw [List.eraseIdx_eq_take_drop_succ]
    conv_rhs => rw [hcut]
    rw [List.filter_append, List.filter_append, List.filter_cons_of_neg (by simpa using hp)]
  have hlen := congrArg List.length (hsame.symm.trans h)
  rw [List.length_eraseIdx_of_lt hi] at hlen
  omega

/-- Where positions mean the same for every removal, nothing hidden stands before anything
visible. -/
theorem visibleFirst_of_erase
    (h : ∀ i < (l.filter p).length, (l.eraseIdx i).filter p = (l.filter p).eraseIdx i) :
    VisibleFirst p l := by
  have hle := List.length_filter_le p l
  have hshown : ∀ a ∈ l.take (l.filter p).length, p a := by
    intro a ha
    obtain ⟨i, hi, rfl⟩ := List.mem_iff_getElem.mp ha
    rw [List.length_take] at hi
    have hlt : i < (l.filter p).length := by omega
    rw [List.getElem_take]
    exact visible_of_erase hlt (by omega) (h i hlt)
  have hhidden : ∀ a ∈ l.drop (l.filter p).length, ¬ p a := by
    apply List.filter_eq_nil_iff.mp
    apply List.eq_nil_of_length_eq_zero
    -- the first elements already are as many as there are visible ones
    have hsum := congrArg (fun x => (x.filter p).length)
      (List.take_append_drop (l.filter p).length l)
    simp only [List.filter_append, List.length_append] at hsum
    rw [List.filter_eq_self.mpr hshown, List.length_take] at hsum
    omega
  have hv := visibleFirst_append hshown hhidden
  rwa [List.take_append_drop] at hv

end ListPositions
