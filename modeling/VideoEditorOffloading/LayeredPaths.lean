import Mathlib

/-! # Cheapest paths through layers

A path visits one node in each layer; consecutive nodes are near each other. A table of costs
that adds the cheapest near cost of the layer before holds the weights of the cheapest paths, and
a path is one of them exactly if it takes a cheapest predecessor everywhere. Nothing here names
a particular program. -/
namespace LayeredPaths

structure Layers (κ : Type) where
  Inside : κ → Prop
  /-- `Near c' c`: `c'` in one layer leads to `c` in the next one. -/
  Near : κ → κ → Prop

variable {κ α : Type} {g : Layers κ}

/-- A path through the layers `0, …, r`. -/
structure Path (g : Layers κ) (r : ℕ) (s : ℕ → κ) : Prop where
  inside : ∀ i ≤ r, g.Inside (s i)
  near : ∀ i < r, g.Near (s i) (s (i + 1))

theorem Path.prefix_path {r r' : ℕ} {s : ℕ → κ} (h : Path g r s) (hr : r' ≤ r) : Path g r' s :=
  ⟨fun i hi => h.inside i (hi.trans hr), fun i hi => h.near i (hi.trans_le hr)⟩

theorem Path.extend {r : ℕ} {s : ℕ → κ} {c : κ} (h : Path g r s) (hc : g.Inside c)
    (hnear : g.Near (s r) c) : Path g (r + 1) (Function.update s (r + 1) c) := by
  have hold : ∀ i ≤ r, Function.update s (r + 1) c i = s i :=
    fun i hi => Function.update_of_ne (by omega) _ _
  constructor
  · intro i hi
    rcases Nat.lt_or_eq_of_le hi with hlt | rfl
    · rw [hold i (by omega)]
      exact h.inside i (by omega)
    · rwa [Function.update_self]
  · intro i hi
    rw [hold i (by omega)]
    rcases Nat.lt_or_eq_of_le (Nat.le_of_lt_succ hi) with hlt | rfl
    · rw [hold (i + 1) hlt]
      exact h.near i hlt
    · rwa [Function.update_self]

section Weights

variable [AddCommMonoid α]

def weight (e : ℕ → κ → α) (s : ℕ → κ) (r : ℕ) : α := ∑ i ∈ Finset.range (r + 1), e i (s i)

theorem weight_zero (e : ℕ → κ → α) (s : ℕ → κ) : weight e s 0 = e 0 (s 0) := by
  simp [weight]

theorem weight_succ (e : ℕ → κ → α) (s : ℕ → κ) (r : ℕ) :
    weight e s (r + 1) = weight e s r + e (r + 1) (s (r + 1)) :=
  Finset.sum_range_succ _ _

theorem weight_congr {e e' : ℕ → κ → α} {s t : ℕ → κ} {r : ℕ}
    (h : ∀ i ≤ r, e i (s i) = e' i (t i)) : weight e s r = weight e' t r :=
  Finset.sum_congr rfl fun i hi => h i (Nat.le_of_lt_succ (Finset.mem_range.mp hi))

def weights (g : Layers κ) (e : ℕ → κ → α) (r : ℕ) (c : κ) : Set α :=
  {x | ∃ s, Path g r s ∧ s r = c ∧ weight e s r = x}

end Weights

section Tables

variable [AddCommMonoid α] [LinearOrder α] [IsOrderedCancelAddMonoid α]
variable {e m : ℕ → κ → α} {h : ℕ}

/-- The recurrence, over `h` layers. -/
structure Table (g : Layers κ) (e m : ℕ → κ → α) (h : ℕ) : Prop where
  first : ∀ c, g.Inside c → m 0 c = e 0 c
  next : ∀ r c, r + 1 < h → g.Inside c → ∃ b,
    IsLeast {x | ∃ c', g.Inside c' ∧ g.Near c' c ∧ m r c' = x} b ∧ m (r + 1) c = e (r + 1) c + b

theorem Table.le_weight (ht : Table g e m h) {r : ℕ} (hr : r < h) {s : ℕ → κ} (hs : Path g r s) :
    m r (s r) ≤ weight e s r := by
  induction r with
  | zero =>
    rw [weight_zero, ht.first _ (hs.inside 0 le_rfl)]
  | succ r ih =>
    obtain ⟨b, hb, hm⟩ := ht.next r (s (r + 1)) hr (hs.inside _ le_rfl)
    have hprev : b ≤ m r (s r) := hb.2 ⟨s r, hs.inside r (by omega), hs.near r (by omega), rfl⟩
    have hweight := ih (by omega) (hs.prefix_path (by omega))
    calc m (r + 1) (s (r + 1)) = e (r + 1) (s (r + 1)) + b := hm
      _ = b + e (r + 1) (s (r + 1)) := add_comm _ _
      _ ≤ weight e s r + e (r + 1) (s (r + 1)) := by gcongr; exact hprev.trans hweight
      _ = weight e s (r + 1) := (weight_succ e s r).symm

omit [IsOrderedCancelAddMonoid α] in
theorem Table.mem_weights (ht : Table g e m h) {r : ℕ} (hr : r < h) {c : κ} (hc : g.Inside c) :
    m r c ∈ weights g e r c := by
  induction r generalizing c with
  | zero =>
    refine ⟨fun _ => c, ⟨fun _ _ => hc, fun i hi => absurd hi (Nat.not_lt_zero i)⟩, rfl, ?_⟩
    rw [weight_zero, ht.first c hc]
  | succ r ih =>
    obtain ⟨b, ⟨⟨c', hc', hnear, hmem⟩, -⟩, hm⟩ := ht.next r c hr hc
    obtain ⟨s, hs, hsr, hw⟩ := ih (by omega) hc'
    refine ⟨Function.update s (r + 1) c, hs.extend hc (by rwa [hsr]), Function.update_self .., ?_⟩
    have hold : weight e (Function.update s (r + 1) c) r = weight e s r :=
      weight_congr fun i hi => by rw [Function.update_of_ne (by omega)]
    rw [weight_succ, hold, hw, Function.update_self, hmem, hm, add_comm]

/-- The table holds the weights of the cheapest paths. -/
theorem Table.isLeast (ht : Table g e m h) {r : ℕ} (hr : r < h) {c : κ} (hc : g.Inside c) :
    IsLeast (weights g e r c) (m r c) := by
  constructor
  · exact ht.mem_weights hr hc
  · rintro x ⟨s, hs, rfl, rfl⟩
    exact ht.le_weight hr hs

omit [IsOrderedCancelAddMonoid α] in
theorem Table.congr {m' : ℕ → κ → α} (ht : Table g e m h)
    (heq : ∀ r < h, ∀ c, g.Inside c → m' r c = m r c) (hh : 0 < h) : Table g e m' h := by
  constructor
  · intro c hc
    rw [heq 0 hh c hc, ht.first c hc]
  · intro r c hr hc
    obtain ⟨b, hb, hm⟩ := ht.next r c hr hc
    refine ⟨b, ?_, (heq (r + 1) hr c hc).trans hm⟩
    convert hb using 5 with x c'
    constructor
    · rintro ⟨h1, h2, h3⟩
      exact ⟨h1, h2, (heq r (by omega) c' h1) ▸ h3⟩
    · rintro ⟨h1, h2, h3⟩
      exact ⟨h1, h2, (heq r (by omega) c' h1).trans h3⟩

/-- Every step of the path comes from a cheapest node. -/
def Greedy (g : Layers κ) (m : ℕ → κ → α) (s : ℕ → κ) (r : ℕ) : Prop :=
  ∀ i < r, ∀ c, g.Inside c → g.Near c (s (i + 1)) → m i (s i) ≤ m i c

theorem Table.weight_eq_iff (ht : Table g e m h) {r : ℕ} (hr : r < h) {s : ℕ → κ}
    (hs : Path g r s) : weight e s r = m r (s r) ↔ Greedy g m s r := by
  induction r with
  | zero =>
    rw [weight_zero, ht.first _ (hs.inside 0 le_rfl)]
    exact iff_of_true rfl fun i hi => absurd hi (Nat.not_lt_zero i)
  | succ r ih =>
    have hs' : Path g r s := hs.prefix_path (by omega)
    obtain ⟨b, ⟨⟨c', hc', hnear, hmem⟩, hleast⟩, hm⟩ :=
      ht.next r (s (r + 1)) hr (hs.inside _ le_rfl)
    have hprev : b ≤ m r (s r) := hleast ⟨s r, hs'.inside r le_rfl, hs.near r (by omega), rfl⟩
    have hweight : m r (s r) ≤ weight e s r := ht.le_weight (by omega) hs'
    rw [weight_succ, hm, add_comm (e (r + 1) (s (r + 1))), add_left_inj]
    constructor
    · intro heq
      have hmin : m r (s r) = b := le_antisymm (hweight.trans heq.le) hprev
      have hgreedy := (ih (by omega) hs').mp (heq.trans hmin.symm)
      intro i hi c hc hnear'
      rcases Nat.lt_or_eq_of_le (Nat.le_of_lt_succ hi) with hlt | rfl
      · exact hgreedy i hlt c hc hnear'
      · rw [hmin]
        exact hleast ⟨c, hc, hnear', rfl⟩
    · intro hgreedy
      have heq : weight e s r = m r (s r) :=
        (ih (by omega) hs').mpr fun i hi => hgreedy i (by omega)
      rw [heq]
      refine le_antisymm ?_ hprev
      rw [← hmem]
      exact hgreedy r (by omega) c' hc' hnear

/-- Paths that end in a cheapest node of the last layer: the greedy ones are the cheapest of
all. -/
theorem Table.isLeast_iff_greedy (ht : Table g e m h) {r : ℕ} (hr : r < h) {s : ℕ → κ}
    (hs : Path g r s) (hlast : ∀ c, g.Inside c → m r (s r) ≤ m r c) :
    IsLeast {x | ∃ t, Path g r t ∧ weight e t r = x} (weight e s r) ↔ Greedy g m s r := by
  rw [← ht.weight_eq_iff hr hs]
  constructor
  · intro hleast
    obtain ⟨t, ht', -, hw⟩ := ht.mem_weights hr (hs.inside r le_rfl)
    exact le_antisymm (hw ▸ hleast.2 ⟨t, ht', rfl⟩) (ht.le_weight hr hs)
  · intro heq
    refine ⟨⟨s, hs, rfl⟩, ?_⟩
    rintro x ⟨t, ht', rfl⟩
    rw [heq]
    exact (hlast _ (ht'.inside r le_rfl)).trans (ht.le_weight hr ht')

end Tables

end LayeredPaths
