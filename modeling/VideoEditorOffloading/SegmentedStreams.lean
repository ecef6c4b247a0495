import Mathlib

/-! # Streams that come and go in pieces

A connection hands over what was written to it, cut anywhere. A call can also be refused, and the
stream can end. The caller repeats some of the refused calls. Nothing here names a particular
program. -/
namespace SegmentedStreams

variable {α ε : Type}

inductive Arrival (α ε : Type) where
  | data (xs : List α)
  | refused (e : ε)
  | closed
  deriving DecidableEq, Repr

inductive Acceptance (ε : Type) where
  | took (k : ℕ)
  | refused (e : ε)
  deriving DecidableEq, Repr

/-- Why a loop of calls is over. A loop whose next call never ends is blocked. -/
inductive Stop (ε : Type) where
  | full
  | closed
  | refused (e : ε)
  | blocked
  deriving DecidableEq, Repr

section Reading

structure Gathered (α ε : Type) where
  got : List α
  stop : Stop ε
  left : List (Arrival α ε)
  deriving DecidableEq

def Gathered.prepend (xs : List α) (g : Gathered α ε) : Gathered α ε := { g with got := xs ++ g.got }

/-- Calls that read at most what is missing, until nothing is. -/
def gather (again : ε → Bool) : ℕ → List (Arrival α ε) → Gathered α ε
  | 0, l => ⟨[], .full, l⟩
  | _ + 1, [] => ⟨[], .blocked, []⟩
  | n + 1, .data xs :: l =>
    if xs.length ≤ n + 1 then (gather again (n + 1 - xs.length) l).prepend xs
    else ⟨xs.take (n + 1), .full, .data (xs.drop (n + 1)) :: l⟩
  | n + 1, .refused e :: l => if again e then gather again (n + 1) l else ⟨[], .refused e, l⟩
  | _ + 1, .closed :: l => ⟨[], .closed, .closed :: l⟩

/-- One call. What it cannot take stays. -/
def receive (n : ℕ) : List (Arrival α ε) → Gathered α ε
  | [] => ⟨[], .blocked, []⟩
  | .data [] :: l => receive n l
  | .data xs :: l =>
    ⟨xs.take n, .full, if xs.length ≤ n then l else .data (xs.drop n) :: l⟩
  | .refused e :: l => ⟨[], .refused e, l⟩
  | .closed :: l => ⟨[], .closed, .closed :: l⟩

def payload : List (Arrival α ε) → List α
  | [] => []
  | .data xs :: l => xs ++ payload l
  | _ :: l => payload l

/-- Neither an end nor a refusal that stops a loop. -/
def Steady (again : ε → Bool) (l : List (Arrival α ε)) : Prop :=
  ∀ a ∈ l, a ≠ .closed ∧ ∀ e, a = .refused e → again e

variable {again : ε → Bool} {l : List (Arrival α ε)} {n : ℕ}

@[simp] theorem Gathered.prepend_got (xs : List α) (g : Gathered α ε) :
    (g.prepend xs).got = xs ++ g.got := rfl

@[simp] theorem Gathered.prepend_stop (xs : List α) (g : Gathered α ε) :
    (g.prepend xs).stop = g.stop := rfl

@[simp] theorem Gathered.prepend_left (xs : List α) (g : Gathered α ε) :
    (g.prepend xs).left = g.left := rfl

@[simp] theorem gather_zero : gather again 0 l = ⟨[], .full, l⟩ := by rw [gather]

@[simp] theorem payload_data (xs : List α) : payload (.data xs :: l) = xs ++ payload l := rfl

@[simp] theorem payload_refused (e : ε) : payload (.refused e :: l) = payload l := rfl

theorem Steady.tail {a : Arrival α ε} (h : Steady again (a :: l)) : Steady again l :=
  fun b hb => h b (List.mem_cons_of_mem a hb)

theorem steady_data {xs : List α} : Steady again (.data xs :: l) ↔ Steady again l := by
  constructor
  · exact Steady.tail
  · intro h a ha
    rcases List.mem_cons.mp ha with rfl | ha
    · exact ⟨by simp, by simp⟩
    · exact h a ha

theorem gather_payload (again : ε → Bool) (n : ℕ) (l : List (Arrival α ε)) :
    (gather again n l).got ++ payload (gather again n l).left = payload l := by
  induction n, l using gather.induct again with
  | case1 l => rw [gather_zero, List.nil_append]
  | case2 n => rfl
  | case3 n xs l h ih =>
    rw [gather, if_pos h, Gathered.prepend_got, Gathered.prepend_left, List.append_assoc, ih,
      payload_data]
  | case4 n xs l h =>
    rw [gather, if_neg h, payload_data, payload_data, ← List.append_assoc, List.take_append_drop]
  | case5 n e l h ih =>
    rw [gather, if_pos h, ih, payload_refused]
  | case6 n e l h =>
    rw [gather, if_neg h, payload_refused]
    rfl
  | case7 n l => rfl

theorem length_gather_le (again : ε → Bool) (n : ℕ) (l : List (Arrival α ε)) :
    (gather again n l).got.length ≤ n := by
  induction n, l using gather.induct again with
  | case1 l => rw [gather_zero, List.length_nil]
  | case3 n xs l h ih =>
    rw [gather, if_pos h, Gathered.prepend_got, List.length_append]
    omega
  | case4 n xs l h =>
    rw [gather, if_neg h, List.length_take]
    exact Nat.min_le_left ..
  | case5 n e l h ih =>
    rw [gather, if_pos h]
    exact ih
  | case6 n e l h =>
    rw [gather, if_neg h]
    exact Nat.zero_le _
  | _ => exact Nat.zero_le _

/-- Whatever the cuts are, a loop gets the elements it wants as soon as they are there. -/
theorem gather_spec (hsteady : Steady again l) (hn : n ≤ (payload l).length) :
    ∃ l', gather again n l = ⟨(payload l).take n, .full, l'⟩ ∧
      payload l' = (payload l).drop n ∧ Steady again l' := by
  induction n, l using gather.induct again with
  | case1 l => exact ⟨l, by simp, rfl, hsteady⟩
  | case2 n => exact absurd hn (by simp [payload])
  | case3 n xs l h ih =>
    rw [payload_data, List.length_append] at hn
    obtain ⟨l', hl', hpay, hsteady'⟩ := ih hsteady.tail (by omega)
    refine ⟨l', ?_, ?_, hsteady'⟩
    · rw [gather, if_pos h, hl', payload_data, List.take_append, List.take_of_length_le h]
      rfl
    · rw [hpay, payload_data, List.drop_append, List.drop_of_length_le h, List.nil_append]
  | case4 n xs l h =>
    refine ⟨.data (xs.drop (n + 1)) :: l, ?_, ?_, steady_data.mpr hsteady.tail⟩
    · rw [gather, if_neg h, payload_data, List.take_append_of_le_length (by omega)]
    · rw [payload_data, payload_data, List.drop_append_of_le_length (by omega)]
  | case5 n e l h ih =>
    rw [gather, if_pos h]
    exact ih hsteady.tail hn
  | case6 n e l h => exact absurd ((hsteady _ List.mem_cons_self).2 e rfl) h
  | case7 n l => exact absurd rfl (hsteady _ List.mem_cons_self).1

/-- Messages of known sizes come out as they went in. -/
theorem gather_append (hsteady : Steady again l) {xs ys : List α} (hpay : payload l = xs ++ ys)
    (hn : n = xs.length) :
    ∃ l', gather again n l = ⟨xs, .full, l'⟩ ∧ payload l' = ys ∧ Steady again l' := by
  subst hn
  obtain ⟨l', hl', hpay', hsteady'⟩ := gather_spec (n := xs.length) hsteady (by simp [hpay])
  rw [hpay, List.take_left] at hl'
  rw [hpay, List.drop_left] at hpay'
  exact ⟨l', hl', hpay', hsteady'⟩

end Reading

section Writing

structure Emitted (α ε : Type) where
  sent : List α
  stop : Stop ε
  left : List (Acceptance ε)
  deriving DecidableEq

/-- Calls that write what is left, until nothing is. -/
def emit (again : ε → Bool) : List α → List (Acceptance ε) → Emitted α ε
  | [], l => ⟨[], .full, l⟩
  | _ :: _, [] => ⟨[], .blocked, []⟩
  | x :: xs, .took k :: l =>
    let rest := emit again ((x :: xs).drop k) l
    { rest with sent := (x :: xs).take k ++ rest.sent }
  | x :: xs, .refused e :: l => if again e then emit again (x :: xs) l else ⟨[], .refused e, l⟩

variable {again : ε → Bool} {l : List (Acceptance ε)} {xs : List α} {n : ℕ}

@[simp] theorem emit_nil : emit again ([] : List α) l = ⟨[], .full, l⟩ := by rw [emit]

theorem emit_prefix (again : ε → Bool) (xs : List α) (l : List (Acceptance ε)) :
    (emit again xs l).sent <+: xs := by
  induction xs, l using emit.induct again with
  | case1 l => rw [emit_nil]
  | case2 x xs => exact List.nil_prefix
  | case3 x xs k l ih =>
    obtain ⟨t, ht⟩ := ih
    rw [emit]
    refine ⟨t, ?_⟩
    rw [List.append_assoc, ht, List.take_append_drop]
  | case4 x xs e l h ih =>
    rw [emit, if_pos h]
    exact ih
  | case5 x xs e l h =>
    rw [emit, if_neg h]
    exact List.nil_prefix

theorem emit_full (h : (emit again xs l).stop = .full) : (emit again xs l).sent = xs := by
  induction xs, l using emit.induct again with
  | case1 l => rw [emit_nil]
  | case2 x xs => cases h
  | case3 x xs k l ih =>
    rw [emit] at h ⊢
    rw [ih h, List.take_append_drop]
  | case4 x xs e l hagain ih =>
    rw [emit, if_pos hagain] at h ⊢
    exact ih h
  | case5 x xs e l hagain =>
    rw [emit, if_neg hagain] at h
    cases h

theorem emit_not_closed (again : ε → Bool) (xs : List α) (l : List (Acceptance ε)) :
    (emit again xs l).stop ≠ .closed := by
  induction xs, l using emit.induct again with
  | case3 x xs k l ih => exact ih
  | case4 x xs e l h ih =>
    rw [emit, if_pos h]
    exact ih
  | case5 x xs e l h =>
    rw [emit, if_neg h]
    simp
  | _ => simp [emit]

/-- Calls that take something each, unless they are repeated; enough of them for `n` elements. -/
structure Willing (again : ε → Bool) (n : ℕ) (l : List (Acceptance ε)) : Prop where
  takes : ∀ a ∈ l, a ≠ .took 0 ∧ ∀ e, a = .refused e → again e
  enough : n ≤ l.countP fun a => a matches .took _

theorem Willing.weaken {m : ℕ} (h : Willing again n l) (hm : m ≤ n) : Willing again m l :=
  ⟨h.takes, hm.trans h.enough⟩

theorem emit_spec (h : Willing again (xs.length + n) l) :
    ∃ l', emit again xs l = ⟨xs, .full, l'⟩ ∧ Willing again n l' := by
  induction xs, l using emit.induct again with
  | case1 l => exact ⟨l, emit_nil, h.weaken (by omega)⟩
  | case2 x xs => exact absurd h.enough (by simp)
  | case3 x xs k l ih =>
    have hk : k ≠ 0 := fun hk => (h.takes _ List.mem_cons_self).1 (hk ▸ rfl)
    have hcount := h.enough
    rw [List.countP_cons_of_pos (by rfl), List.length_cons] at hcount
    obtain ⟨l', hl', hwilling⟩ := ih ⟨fun a ha => h.takes a (List.mem_cons_of_mem _ ha), by
      rw [List.length_drop, List.length_cons]
      omega⟩
    refine ⟨l', ?_, hwilling⟩
    rw [emit, hl']
    simp only [List.take_append_drop]
  | case4 x xs e l hagain ih =>
    rw [emit, if_pos hagain]
    apply ih
    exact ⟨fun a ha => h.takes a (List.mem_cons_of_mem _ ha), by simpa using h.enough⟩
  | case5 x xs e l hagain => exact absurd ((h.takes _ List.mem_cons_self).2 e rfl) hagain

end Writing

end SegmentedStreams
