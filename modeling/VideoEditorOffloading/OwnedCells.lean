import Mathlib

/-! # Programs that own cells of a heap

A heap maps addresses to blocks; address 0 is NULL. A program owns a multiset of cells and may rely
on no other one. Its specification speaks about the cells it owns: whatever else the heap holds
stays as it is. Lists are linked through blocks that hold the address of the next one. Nothing here
names a particular program. -/
namespace OwnedCells

abbrev Heap (β : Type) := Finmap fun _ : ℕ => β

abbrev Cells (β : Type) := Multiset (ℕ × β)

structure Memory (β : Type) where
  heap : Heap β
  /-- How often the allocator has been asked. -/
  asked : ℕ := 0

/-- What `malloc` may answer. -/
structure Allocator (β : Type) where
  malloc : Heap β → ℕ → ℕ
  ne_zero : ∀ h n, malloc h n ≠ 0
  fresh : ∀ h n, malloc h n ∉ h

inductive Fault where
  /-- A block is used that is not allocated, or not of the right kind. -/
  | segfault
  | badFree
  /-- A loop goes on for longer than there are blocks. -/
  | endless
  | aborted
  deriving DecidableEq, Repr

abbrev Program (β α : Type) := StateT (Memory β) (Except Fault) α

section Operations

variable {α β γ σ : Type}

def Allocator.above (β : Type) : Allocator β where
  malloc h _ := h.keys.sup id + 1
  ne_zero _ _ := Nat.succ_ne_zero _
  fresh h n := by
    intro hmem
    have hle : h.keys.sup id + 1 ≤ h.keys.sup id :=
      Finset.le_sup (f := id) (Finmap.mem_keys.mpr hmem)
    exact absurd hle (Nat.not_succ_le_self _)

def load (p : ℕ) : Program β β := fun m =>
  match m.heap.lookup p with
  | some b => .ok (b, m)
  | none => .error .segfault

structure Kind (β γ : Type) where
  view : β → Option γ
  make : γ → β
  view_make : ∀ a, view (make a) = some a

def loadAs (K : Kind β γ) (p : ℕ) : Program β γ := do
  let b ← load p
  match K.view b with
  | some a => return a
  | none => throw .segfault

def store (p : ℕ) (b : β) : Program β Unit := fun m =>
  if p ∈ m.heap then .ok ((), { m with heap := m.heap.insert p b }) else .error .segfault

def update (K : Kind β γ) (p : ℕ) (f : γ → γ) : Program β Unit := do
  let a ← loadAs K p
  store p (K.make (f a))

def malloc (A : Allocator β) (b : β) : Program β ℕ := fun m =>
  let p := A.malloc m.heap m.asked
  .ok (p, ⟨m.heap.insert p b, m.asked + 1⟩)

/-- `free (NULL)` does nothing. -/
def free (p : ℕ) : Program β Unit := fun m =>
  if p = 0 then .ok ((), m)
  else if p ∈ m.heap then .ok ((), { m with heap := m.heap.erase p })
  else .error .badFree

def loop (body : σ → Program β (Option σ)) : ℕ → σ → Program β σ
  | 0, _ => throw .endless
  | n + 1, s => do
    match ← body s with
    | some s => loop body n s
    | none => return s

/-- A loop along a list, which cannot have more nodes than there are blocks. -/
def loopBlocks (body : σ → Program β (Option σ)) (s : σ) : Program β σ := fun m =>
  loop body (m.heap.keys.card + 1) s m

/-- `for (p = first; p; p = next (p))`; `next` is read after the body. -/
def forEach (K : Kind β γ) (next : γ → ℕ) (body : ℕ → σ → Program β σ) (first : ℕ) (s : σ) :
    Program β σ := do
  let last ← loopBlocks (fun (p, s) => do
    if p = 0 then return none
    else
      let s ← body p s
      let a ← loadAs K p
      return some (next a, s)) (first, s)
  return last.2

/-- `for (p = first; p; p = np) { np = next (p); free (p); }` -/
def freeEach (K : Kind β γ) (next : γ → ℕ) (first : ℕ) : Program β Unit := do
  let _ ← loopBlocks (fun p => do
    if p = 0 then return none
    else
      let a ← loadAs K p
      free p
      return some (next a)) first

end Operations

section Ownership

variable {α β γ σ : Type} {h : Heap β} {c d : Cells β} {p : ℕ} {b b' : β}

/-- The heap consists of these cells. -/
structure Owns (h : Heap β) (c : Cells β) : Prop where
  nodup : (c.map Prod.fst).Nodup
  null : 0 ∉ c.map Prod.fst
  lookup : ∀ p b, h.lookup p = some b ↔ (p, b) ∈ c

theorem Owns.mem_iff (ho : Owns h c) : p ∈ h ↔ p ∈ c.map Prod.fst := by
  rw [Finmap.mem_iff, Multiset.mem_map]
  constructor
  · rintro ⟨b, hb⟩
    exact ⟨(p, b), (ho.lookup p b).mp hb, rfl⟩
  · rintro ⟨⟨q, b⟩, hb, rfl⟩
    exact ⟨b, (ho.lookup q b).mpr hb⟩

theorem Owns.heap_eq {h' : Heap β} (ho : Owns h c) (ho' : Owns h' c) : h = h' := by
  apply Finmap.ext_lookup
  intro p
  apply Option.ext
  intro b
  exact (ho.lookup p b).trans (ho'.lookup p b).symm

theorem exists_owns (hnull : 0 ∉ h) : ∃ c, Owns h c := by
  have hkeys : (h.entries.map fun s => (s.1, s.2)).map Prod.fst = h.entries.keys := by
    rw [Multiset.map_map]
    rfl
  refine ⟨h.entries.map fun s => (s.1, s.2), ?_, ?_, ?_⟩
  · rw [hkeys]
    exact Multiset.nodup_keys.mpr h.nodupKeys
  · rw [hkeys]
    exact hnull
  · intro p b
    rw [Finmap.lookup_eq_some_iff, Multiset.mem_map]
    constructor
    · intro hmem
      exact ⟨⟨p, b⟩, hmem, rfl⟩
    · rintro ⟨⟨q, b'⟩, hmem, heq⟩
      cases heq
      exact hmem

theorem owns_empty : Owns (∅ : Heap β) 0 :=
  ⟨Multiset.nodup_zero, Multiset.notMem_zero 0, fun p b => by simp⟩

theorem Owns.card_eq (ho : Owns h c) : h.keys.card = Multiset.card c := by
  have hkeys : h.keys = (c.map Prod.fst).toFinset := by
    ext p
    rw [Finmap.mem_keys, ho.mem_iff, Multiset.mem_toFinset]
  rw [hkeys, Multiset.toFinset_card_of_nodup ho.nodup, Multiset.card_map]

theorem Owns.not_mem (ho : Owns h ((p, b) ::ₘ c)) : p ∉ c.map Prod.fst := by
  have hnodup := ho.nodup
  rw [Multiset.map_cons, Multiset.nodup_cons] at hnodup
  exact hnodup.1

theorem Owns.ne_of_mem (ho : Owns h ((p, b) ::ₘ c)) {q : ℕ} {b' : β} (hq : (q, b') ∈ c) :
    q ≠ p := by
  rintro rfl
  exact ho.not_mem (Multiset.mem_map_of_mem Prod.fst hq)

theorem Owns.insert (ho : Owns h ((p, b) ::ₘ c)) (b' : β) :
    Owns (h.insert p b') ((p, b') ::ₘ c) := by
  refine ⟨?_, ?_, ?_⟩
  · simpa only [Multiset.map_cons] using ho.nodup
  · simpa only [Multiset.map_cons] using ho.null
  · intro q b''
    rw [Multiset.mem_cons, Prod.mk.injEq]
    by_cases hqp : q = p
    · subst hqp
      rw [Finmap.lookup_insert, Option.some_inj]
      constructor
      · rintro rfl
        exact .inl ⟨rfl, rfl⟩
      · rintro (⟨-, rfl⟩ | hmem)
        · rfl
        · exact absurd rfl (ho.ne_of_mem hmem)
    · rw [Finmap.lookup_insert_of_ne _ hqp, ho.lookup, Multiset.mem_cons, Prod.mk.injEq]
      simp only [hqp, false_and, false_or]

theorem Owns.erase (ho : Owns h ((p, b) ::ₘ c)) : Owns (h.erase p) c := by
  have hnodup := ho.nodup
  have hnull := ho.null
  rw [Multiset.map_cons, Multiset.nodup_cons] at hnodup
  rw [Multiset.map_cons, Multiset.mem_cons, not_or] at hnull
  refine ⟨hnodup.2, hnull.2, ?_⟩
  intro q b'
  by_cases hqp : q = p
  · subst hqp
    rw [Finmap.lookup_erase]
    constructor
    · intro hnone
      cases hnone
    · intro hmem
      exact absurd rfl (ho.ne_of_mem hmem)
  · rw [Finmap.lookup_erase_ne hqp, ho.lookup, Multiset.mem_cons, Prod.mk.injEq]
    simp only [hqp, false_and, false_or]

theorem Owns.alloc (ho : Owns h c) (hp : p ≠ 0) (hfresh : p ∉ h) (b : β) :
    Owns (h.insert p b) ((p, b) ::ₘ c) := by
  have hnew : p ∉ c.map Prod.fst := by
    rwa [← ho.mem_iff]
  refine ⟨?_, ?_, ?_⟩
  · rw [Multiset.map_cons, Multiset.nodup_cons]
    exact ⟨hnew, ho.nodup⟩
  · rw [Multiset.map_cons, Multiset.mem_cons, not_or]
    exact ⟨hp.symm, ho.null⟩
  · intro q b'
    rw [Multiset.mem_cons, Prod.mk.injEq]
    by_cases hqp : q = p
    · subst hqp
      rw [Finmap.lookup_insert, Option.some_inj]
      constructor
      · rintro rfl
        exact .inl ⟨rfl, rfl⟩
      · rintro (⟨-, rfl⟩ | hmem)
        · rfl
        · exact absurd (Multiset.mem_map_of_mem Prod.fst hmem) hnew
    · rw [Finmap.lookup_insert_of_ne _ hqp, ho.lookup]
      simp only [hqp, false_and, false_or]

theorem Owns.card_le (ho : Owns h (c + d)) : Multiset.card c ≤ h.keys.card := by
  have hsub : (c.map Prod.fst).toFinset ⊆ h.keys := by
    intro p hp
    rw [Finmap.mem_keys, ho.mem_iff, Multiset.map_add, Multiset.mem_add]
    exact .inl (Multiset.mem_toFinset.mp hp)
  have hnodup : (c.map Prod.fst).Nodup := by
    have hall := ho.nodup
    rw [Multiset.map_add] at hall
    exact (Multiset.nodup_add.mp hall).1
  calc Multiset.card c = Multiset.card (c.map Prod.fst) := (Multiset.card_map _ _).symm
    _ = (c.map Prod.fst).toFinset.card := (Multiset.toFinset_card_of_nodup hnodup).symm
    _ ≤ h.keys.card := Finset.card_le_card hsub

end Ownership

section Specifications

variable {α β γ σ : Type} {c d : Cells β} {x : Program β α} {f : α → Program β γ}
  {post : α → Cells β → Prop} {post' : γ → Cells β → Prop} {p : ℕ} {b b' : β}

/-- From a heap with the cells `c` the program returns, and turns `c` into other cells. -/
def Spec (c : Cells β) (x : Program β α) (post : α → Cells β → Prop) : Prop :=
  ∀ rest m, Owns m.heap (c + rest) →
    ∃ a c' m', x m = .ok (a, m') ∧ post a c' ∧ Owns m'.heap (c' + rest)

theorem spec_pure {a : α} (h : post a c) : Spec c (pure a : Program β α) post := by
  intro rest m hm
  exact ⟨a, c, m, rfl, h, hm⟩

theorem Spec.bind {mid : α → Cells β → Prop} (hx : Spec c x mid)
    (hf : ∀ a c', mid a c' → Spec c' (f a) post') : Spec c (x >>= f) post' := by
  intro rest m hm
  obtain ⟨a, c', m', hxm, hmid, hm'⟩ := hx rest m hm
  obtain ⟨b, c'', m'', hfm, hpost, hm''⟩ := hf a c' hmid rest m' hm'
  refine ⟨b, c'', m'', ?_, hpost, hm''⟩
  change Except.bind (x m) _ = _
  rw [hxm]
  exact hfm

theorem Spec.mono (h : Spec c x post) {post' : α → Cells β → Prop}
    (hpost : ∀ a c', post a c' → post' a c') : Spec c x post' := by
  intro rest m hm
  obtain ⟨a, c', m', hxm, ha, hm'⟩ := h rest m hm
  exact ⟨a, c', m', hxm, hpost a c' ha, hm'⟩

/-- Other cells stay as they are. -/
theorem Spec.frame (h : Spec c x post) (d : Cells β) :
    Spec (c + d) x fun a e => ∃ c', post a c' ∧ e = c' + d := by
  intro rest m hm
  rw [add_assoc] at hm
  obtain ⟨a, c', m', hxm, ha, hm'⟩ := h (d + rest) m hm
  rw [← add_assoc] at hm'
  exact ⟨a, c' + d, m', hxm, ⟨c', ha, rfl⟩, hm'⟩

/-- What is known of owned cells may be used. -/
theorem spec_of_owned (h : (c.map Prod.fst).Nodup → 0 ∉ c.map Prod.fst → Spec c x post) :
    Spec c x post := by
  intro rest m hm
  have hnodup := hm.nodup
  have hnull := hm.null
  rw [Multiset.map_add] at hnodup hnull
  rw [Multiset.mem_add, not_or] at hnull
  exact h (Multiset.nodup_add.mp hnodup).1 hnull.1 rest m hm

theorem ne_zero_of_mem (hnull : 0 ∉ c.map Prod.fst) (hp : (p, b) ∈ c) : p ≠ 0 := by
  rintro rfl
  exact hnull (Multiset.mem_map_of_mem Prod.fst hp)

theorem spec_load (hp : (p, b) ∈ c) : Spec c (load p) fun a c' => a = b ∧ c' = c := by
  intro rest m hm
  refine ⟨b, c, m, ?_, ⟨rfl, rfl⟩, hm⟩
  have hlookup := (hm.lookup p b).mpr (Multiset.mem_add.mpr (.inl hp))
  simp only [load, hlookup]

theorem spec_loadAs {K : Kind β α} {a : α} (hp : (p, K.make a) ∈ c) :
    Spec c (loadAs K p) fun a' c' => a' = a ∧ c' = c := by
  apply (spec_load hp).bind
  rintro b' c' ⟨rfl, rfl⟩
  rw [K.view_make]
  exact spec_pure ⟨rfl, rfl⟩

theorem spec_store (hc : c = {(p, b)} + d) (b' : β) :
    Spec c (store p b') fun _ c' => c' = {(p, b')} + d := by
  subst hc
  intro rest m hm
  rw [add_assoc, Multiset.singleton_add] at hm
  have hp : p ∈ m.heap := by
    rw [hm.mem_iff, Multiset.map_cons]
    exact Multiset.mem_cons_self _ _
  refine ⟨(), _, { m with heap := m.heap.insert p b' }, if_pos hp, rfl, ?_⟩
  rw [add_assoc, Multiset.singleton_add]
  exact hm.insert b'

theorem spec_update {K : Kind β α} {a : α} (hc : c = {(p, K.make a)} + d) (g : α → α) :
    Spec c (update K p g) fun _ c' => c' = {(p, K.make (g a))} + d := by
  apply (spec_loadAs (a := a) (by simp [hc])).bind
  rintro a' c' ⟨rfl, rfl⟩
  exact spec_store hc _

theorem spec_malloc (A : Allocator β) (c : Cells β) (b : β) :
    Spec c (malloc A b) fun p c' => p ≠ 0 ∧ c' = {(p, b)} + c := by
  intro rest m hm
  refine ⟨_, _, _, rfl, ⟨A.ne_zero _ _, rfl⟩, ?_⟩
  rw [add_assoc, Multiset.singleton_add]
  exact hm.alloc (A.ne_zero _ _) (A.fresh _ _) b

theorem spec_free (hc : c = {(p, b)} + d) : Spec c (free p) fun _ c' => c' = d := by
  subst hc
  intro rest m hm
  rw [add_assoc, Multiset.singleton_add] at hm
  have hp : p ∈ m.heap := by
    rw [hm.mem_iff, Multiset.map_cons]
    exact Multiset.mem_cons_self _ _
  have hp0 : p ≠ 0 := by
    rintro rfl
    apply hm.null
    rw [Multiset.map_cons]
    exact Multiset.mem_cons_self _ _
  refine ⟨(), d, { m with heap := m.heap.erase p }, ?_, rfl, hm.erase⟩
  simp only [free, if_neg hp0, if_pos hp]

theorem spec_free_null (c : Cells β) : Spec c (free 0) fun _ c' => c' = c := by
  intro rest m hm
  exact ⟨(), c, m, rfl, rfl, hm⟩

/-- The same rules for what comes first in a program. -/
theorem spec_loadAs_bind {K : Kind β α} {a : α} {f : α → Program β γ} (hp : (p, K.make a) ∈ c)
    (h : Spec c (f a) post') : Spec c (loadAs K p >>= f) post' := by
  apply (spec_loadAs hp).bind
  rintro b c' ⟨rfl, rfl⟩
  exact h

theorem spec_update_bind {K : Kind β α} {a : α} {g : α → α} {f : Unit → Program β γ}
    (hc : c = {(p, K.make a)} + d) (h : Spec ({(p, K.make (g a))} + d) (f ()) post') :
    Spec c (update K p g >>= f) post' := by
  apply (spec_update hc g).bind
  rintro - c' rfl
  exact h

theorem spec_malloc_bind (A : Allocator β) {f : ℕ → Program β γ}
    (h : ∀ p, p ≠ 0 → Spec ({(p, b)} + c) (f p) post') : Spec c (malloc A b >>= f) post' := by
  apply (spec_malloc A c b).bind
  rintro p c' ⟨hp, rfl⟩
  exact h p hp

theorem spec_free_bind {f : Unit → Program β γ} (hc : c = {(p, b)} + d)
    (h : Spec d (f ()) post') : Spec c (free p >>= f) post' := by
  apply (spec_free hc).bind
  rintro - c' rfl
  exact h

/-- The rule for loops: each pass takes an item off a list, and the loop ends when there is none. -/
theorem spec_loop {ι : Type} {body : σ → Program β (Option σ)}
    {inv : List ι → σ → Cells β → Prop} {done : σ → Cells β → Prop}
    (hstep : ∀ i items s c, inv (i :: items) s c →
      Spec c (body s) fun r c' => ∃ s', r = some s' ∧ inv items s' c')
    (hdone : ∀ s c, inv [] s c → Spec c (body s) fun r c' => r = none ∧ done s c')
    {items : List ι} {s : σ} (h : inv items s c) {n : ℕ} (hn : items.length < n) :
    Spec c (loop body n s) fun s' c' => done s' c' := by
  induction items generalizing s c n with
  | nil =>
    obtain ⟨n, rfl⟩ := Nat.exists_eq_succ_of_ne_zero hn.ne_bot
    apply (hdone s c h).bind
    rintro r c' ⟨rfl, hc'⟩
    exact spec_pure hc'
  | cons i items ih =>
    obtain ⟨n, rfl⟩ := Nat.exists_eq_succ_of_ne_zero (Nat.ne_zero_of_lt hn)
    apply (hstep i items s c h).bind
    rintro r c' ⟨s', rfl, hinv⟩
    exact ih hinv (Nat.lt_of_succ_lt_succ hn)

theorem spec_loopBlocks {ι : Type} {body : σ → Program β (Option σ)}
    (inv : List ι → σ → Cells β → Prop) (done : σ → Cells β → Prop)
    (hstep : ∀ i items s c, inv (i :: items) s c →
      Spec c (body s) fun r c' => ∃ s', r = some s' ∧ inv items s' c')
    (hdone : ∀ s c, inv [] s c → Spec c (body s) fun r c' => r = none ∧ done s c')
    (items : List ι) {s : σ} (h : inv items s c) (hn : items.length ≤ Multiset.card c) :
    Spec c (loopBlocks body s) fun s' c' => done s' c' := by
  intro rest m hm
  have hcard := hm.card_le
  exact spec_loop hstep hdone h (Nat.lt_succ_of_le (hn.trans hcard)) rest m hm

end Specifications

section LinkedLists

/-- How a node of a linked list lies in memory: where it is, and its cells, among them the block
with the address of the next node. -/
structure Layout (ι β γ : Type) where
  kind : Kind β γ
  next : γ → ℕ
  address : ι → ℕ
  cells : ι → ℕ → Cells β
  linked : ∀ i tail, ∃ a, (address i, kind.make a) ∈ cells i tail ∧ next a = tail

variable {ι β γ σ : Type}

def Layout.first (L : Layout ι β γ) : List ι → ℕ → ℕ
  | [], tail => tail
  | i :: _, _ => L.address i

/-- The cells of nodes that are linked up to `tail`. -/
def Layout.segment (L : Layout ι β γ) : List ι → ℕ → Cells β
  | [], _ => 0
  | i :: items, tail => L.cells i (L.first items tail) + L.segment items tail

variable (L : Layout ι β γ) {c d : Cells β}

@[simp] theorem Layout.first_nil (tail : ℕ) : L.first [] tail = tail := rfl

@[simp] theorem Layout.first_cons (i : ι) (items : List ι) (tail : ℕ) :
    L.first (i :: items) tail = L.address i := rfl

@[simp] theorem Layout.segment_nil (tail : ℕ) : L.segment [] tail = 0 := rfl

@[simp] theorem Layout.segment_cons (i : ι) (items : List ι) (tail : ℕ) :
    L.segment (i :: items) tail = L.cells i (L.first items tail) + L.segment items tail := rfl

theorem Layout.first_append (items items' : List ι) (tail : ℕ) :
    L.first (items ++ items') tail = L.first items (L.first items' tail) := by
  cases items with
  | nil => rfl
  | cons i items => rfl

theorem Layout.segment_append (items items' : List ι) (tail : ℕ) :
    L.segment (items ++ items') tail =
      L.segment items (L.first items' tail) + L.segment items' tail := by
  induction items with
  | nil => rw [List.nil_append, segment_nil, zero_add]
  | cons i items ih =>
    rw [List.cons_append, segment_cons, segment_cons, ih, first_append, add_assoc]

theorem Layout.length_le_card (items : List ι) (tail : ℕ) :
    items.length ≤ Multiset.card (L.segment items tail) := by
  induction items with
  | nil => exact Nat.zero_le _
  | cons i items ih =>
    obtain ⟨a, ha, -⟩ := L.linked i (L.first items tail)
    have hpos : 0 < Multiset.card (L.cells i (L.first items tail)) :=
      Multiset.card_pos_iff_exists_mem.mpr ⟨_, ha⟩
    rw [segment_cons, Multiset.card_add, List.length_cons]
    omega

theorem Layout.address_ne_zero {i : ι} (tail : ℕ) (hsub : L.cells i tail ≤ c)
    (hnull : 0 ∉ c.map Prod.fst) : L.address i ≠ 0 := by
  intro hzero
  obtain ⟨a, ha, -⟩ := L.linked i tail
  apply hnull
  rw [← hzero]
  exact Multiset.mem_map_of_mem Prod.fst (Multiset.mem_of_le hsub ha)

theorem Layout.first_eq_zero_iff {items : List ι} (hle : L.segment items 0 ≤ c)
    (hnull : 0 ∉ c.map Prod.fst) : L.first items 0 = 0 ↔ items = [] := by
  cases items with
  | nil => exact iff_of_true rfl rfl
  | cons i items =>
    have hne : L.address i ≠ 0 :=
      L.address_ne_zero (L.first items 0) ((Multiset.le_add_right _ _).trans hle) hnull
    exact iff_of_false hne (List.cons_ne_nil i items)

/-- The rule for `forEach`. The body may change the cells of its node, but neither move it nor
touch the others, and what it does elsewhere shows in its state. -/
theorem spec_forEach {body : ℕ → σ → Program β σ} (d : σ → Cells β)
    (inv : List ι → List ι → σ → Prop)
    (hbody : ∀ done i items s tail, inv done (i :: items) s →
      Spec (L.cells i tail + d s) (body (L.address i) s) fun s' c' =>
        ∃ i', inv (done ++ [i']) items s' ∧ L.address i' = L.address i ∧
          c' = L.cells i' tail + d s')
    {items : List ι} {s : σ} (h : inv [] items s) :
    Spec (L.segment items 0 + d s) (forEach L.kind L.next body (L.first items 0) s) fun s' c' =>
      ∃ items', inv items' [] s' ∧ L.first items' 0 = L.first items 0 ∧
        c' = L.segment items' 0 + d s' := by
  have hcard : items.length ≤ Multiset.card (L.segment items 0 + d s) := by
    rw [Multiset.card_add]
    exact (L.length_le_card items 0).trans (Nat.le_add_right _ _)
  apply Spec.bind (spec_loopBlocks
    (fun rest (x : ℕ × σ) c => ∃ done, inv done rest x.2 ∧ x.1 = L.first rest 0 ∧
      L.first (done ++ rest) 0 = L.first items 0 ∧ c = L.segment (done ++ rest) 0 + d x.2)
    (fun x c => ∃ items', inv items' [] x.2 ∧ L.first items' 0 = L.first items 0 ∧
      c = L.segment items' 0 + d x.2)
    ?_ ?_ items (s := (L.first items 0, s)) ⟨[], h, rfl, rfl, rfl⟩ hcard)
  · rintro ⟨p, s'⟩ c' hdone
    exact spec_pure hdone
  · rintro i rest ⟨p, s⟩ c ⟨done, hinv, hp, hfirst, rfl⟩
    obtain rfl : p = L.address i := hp
    have hcells : L.segment (done ++ i :: rest) 0 + d s = L.cells i (L.first rest 0) + d s +
        (L.segment done (L.address i) + L.segment rest 0) := by
      rw [L.segment_append, L.first_cons, L.segment_cons]
      abel
    apply spec_of_owned
    intro _ hnull
    have hne : L.address i ≠ 0 := by
      apply L.address_ne_zero (L.first rest 0) ?_ hnull
      rw [hcells, add_assoc]
      exact Multiset.le_add_right _ _
    simp only [if_neg hne]
    rw [hcells]
    apply ((hbody done i rest s (L.first rest 0) hinv).frame _).bind
    rintro s' c' ⟨e, ⟨i', hinv', haddress, rfl⟩, rfl⟩
    obtain ⟨a, ha, hnext⟩ := L.linked i' (L.first rest 0)
    rw [haddress] at ha
    apply (spec_loadAs (a := a) (by simp [ha])).bind
    rintro a' c' ⟨rfl, rfl⟩
    apply spec_pure
    refine ⟨_, rfl, done ++ [i'], hinv', hnext, ?_, ?_⟩
    · rw [← hfirst]
      simp only [L.first_append, L.first_cons, haddress]
    · simp only [L.segment_append, L.first_cons, L.segment_cons, L.segment_nil,
        L.first_nil, add_zero, haddress]
      abel
  · rintro ⟨p, s⟩ c ⟨done, hinv, hp, hfirst, rfl⟩
    obtain rfl : p = 0 := hp
    rw [List.append_nil] at hfirst ⊢
    exact spec_pure ⟨rfl, done, hinv, hfirst, rfl⟩

/-- The rule for `freeEach`, for nodes that are single blocks. -/
theorem spec_freeEach {block : ι → ℕ → γ} (hnext : ∀ i tail, L.next (block i tail) = tail)
    (hcells : ∀ i tail, L.cells i tail = {(L.address i, L.kind.make (block i tail))})
    (items : List ι) (d : Cells β) :
    Spec (L.segment items 0 + d) (freeEach L.kind L.next (L.first items 0)) fun _ c' =>
      c' = d := by
  have hcard : items.length ≤ Multiset.card (L.segment items 0 + d) := by
    rw [Multiset.card_add]
    exact (L.length_le_card items 0).trans (Nat.le_add_right _ _)
  apply Spec.bind (spec_loopBlocks
    (fun rest p c => p = L.first rest 0 ∧ c = L.segment rest 0 + d) (fun _ c => c = d)
    ?_ ?_ items ⟨rfl, rfl⟩ hcard)
  · intro p c' hc'
    exact spec_pure hc'
  · rintro i rest p c ⟨rfl, rfl⟩
    have hsegment : L.segment (i :: rest) 0 + d =
        {(L.address i, L.kind.make (block i (L.first rest 0)))} + (L.segment rest 0 + d) := by
      rw [L.segment_cons, hcells, add_assoc]
    apply spec_of_owned
    intro _ hnull
    have hne : L.first (i :: rest) 0 ≠ 0 := by
      apply L.address_ne_zero (L.first rest 0) ?_ hnull
      rw [L.segment_cons, add_assoc]
      exact Multiset.le_add_right _ _
    rw [if_neg hne, hsegment]
    apply (spec_loadAs (a := block i (L.first rest 0)) (by simp)).bind
    rintro a c' ⟨rfl, rfl⟩
    apply (spec_free rfl).bind
    rintro - c' rfl
    exact spec_pure ⟨_, rfl, hnext i _, rfl⟩
  · rintro p c ⟨rfl, rfl⟩
    rw [L.first_nil, if_pos rfl, L.segment_nil, zero_add]
    exact spec_pure ⟨rfl, rfl⟩

end LinkedLists

end OwnedCells
