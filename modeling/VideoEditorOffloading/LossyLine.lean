import Mathlib

/-! # Lines of queues and workers

A line is a queue followed by stages. The worker of a stage takes an item from the queue before
it and puts its result into the queue after it, or drops it. The results that will come out of
the line, in the order in which they will come out, change in four ways only: one is added at
the end, the first one comes out, one is lost, or none of this. -/
namespace LossyLine

structure Stage (Q W : Type) where
  worker : W
  output : Q

/-- What each queue holds, oldest first, and what each worker is going to put. -/
structure Contents (Q W F : Type) where
  items : Q → List F
  leaving : W → List F

variable {Q W F : Type} (fn : W → F → F) (stages : List (Stage Q W)) (q : Q)

/-- What the stages make of an item. -/
def through : List (Stage Q W) → F → F
  | [], f => f
  | s :: rest, f => through rest (fn s.worker f)

/-- The results that will come out of the line, the next one first. -/
def flow (c : Contents Q W F) : Q → List (Stage Q W) → List F
  | q, [] => c.items q
  | q, s :: rest =>
    flow c s.output rest ++
      (c.leaving s.worker ++ (c.items q).map (fn s.worker)).map (through fn rest)

/-- How many items are inside the line: in front of a worker or in its hands. -/
def pending (c : Contents Q W F) : Q → List (Stage Q W) → ℕ
  | _, [] => 0
  | q, s :: rest => (c.items q).length + (c.leaving s.worker).length + pending c s.output rest

def queues (q : Q) (stages : List (Stage Q W)) : List Q := q :: stages.map (·.output)

def workers (stages : List (Stage Q W)) : List W := stages.map (·.worker)

def exit : Q → List (Stage Q W) → Q
  | q, [] => q
  | _, s :: rest => exit s.output rest

/-- `At q stages p s rest`: stage `s` of the line reads queue `p` and is followed by `rest`. -/
inductive At : Q → List (Stage Q W) → Q → Stage Q W → List (Stage Q W) → Prop where
  | here (q s rest) : At q (s :: rest) q s rest
  | later {q s rest p s' rest'} : At s.output rest p s' rest' → At q (s :: rest) p s' rest'

structure Simple (q : Q) (stages : List (Stage Q W)) : Prop where
  queues_nodup : (queues q stages).Nodup
  workers_nodup : (workers stages).Nodup

variable {fn stages q}

theorem At.input_mem {p : Q} {s : Stage Q W} {rest : List (Stage Q W)}
    (h : At q stages p s rest) : p ∈ queues q stages := by
  induction h with
  | here q s rest => exact List.mem_cons_self
  | later _ ih => exact List.mem_cons_of_mem _ ih

theorem At.stage_mem {p : Q} {s : Stage Q W} {rest : List (Stage Q W)}
    (h : At q stages p s rest) : s ∈ stages := by
  induction h with
  | here q s rest => exact List.mem_cons_self
  | later _ ih => exact List.mem_cons_of_mem _ ih

theorem exists_at {s : Stage Q W} (h : s ∈ stages) : ∃ p rest, At q stages p s rest := by
  induction stages generalizing q with
  | nil => cases h
  | cons s' rest ih =>
    rcases List.mem_cons.mp h with rfl | h
    · exact ⟨q, rest, .here q s rest⟩
    · obtain ⟨p, rest', hat⟩ := ih (q := s'.output) h
      exact ⟨p, rest', .later hat⟩

theorem At.worker_mem {p : Q} {s : Stage Q W} {rest : List (Stage Q W)}
    (h : At q stages p s rest) : s.worker ∈ workers stages :=
  List.mem_map_of_mem h.stage_mem

theorem At.output_mem {p : Q} {s : Stage Q W} {rest : List (Stage Q W)}
    (h : At q stages p s rest) : s.output ∈ stages.map (·.output) :=
  List.mem_map_of_mem h.stage_mem

theorem Simple.tail {s : Stage Q W} (h : Simple q (s :: stages)) : Simple s.output stages :=
  ⟨(List.nodup_cons.mp h.queues_nodup).2, (List.nodup_cons.mp h.workers_nodup).2⟩

theorem exit_mem (q : Q) (stages : List (Stage Q W)) : exit q stages ∈ queues q stages := by
  induction stages generalizing q with
  | nil => exact List.mem_cons_self
  | cons s rest ih => exact List.mem_cons_of_mem _ (ih s.output)

theorem At.index {p : Q} {s : Stage Q W} {rest : List (Stage Q W)} (h : At q stages p s rest) :
    ∃ i : ℕ, stages[i]? = some s ∧ (queues q stages)[i]? = some p := by
  induction h with
  | here q s rest => exact ⟨0, rfl, rfl⟩
  | later _ ih =>
    obtain ⟨i, hs, hp⟩ := ih
    exact ⟨i + 1, hs, hp⟩

theorem exit_eq_getLast (q : Q) (stages : List (Stage Q W)) :
    (queues q stages).getLast? = some (exit q stages) := by
  induction stages generalizing q with
  | nil => rfl
  | cons s rest ih => exact (List.getLast?_cons_cons).trans (ih s.output)

theorem Simple.exit_ne {p : Q} {s : Stage Q W} {rest : List (Stage Q W)} (hs : Simple q stages)
    (hat : At q stages p s rest) : p ≠ exit q stages := by
  induction hat with
  | here q s rest =>
    rintro he
    exact (List.nodup_cons.mp hs.queues_nodup).1 (he ▸ exit_mem s.output rest)
  | later _ ih => exact ih hs.tail

theorem Simple.exit_ne_entry (hs : Simple q stages) (hne : stages ≠ []) : exit q stages ≠ q := by
  cases stages with
  | nil => exact absurd rfl hne
  | cons s rest => exact (hs.exit_ne (.here q s rest)).symm

section Contents

variable {c c' : Contents Q W F}

theorem flow_congr (hi : ∀ p ∈ queues q stages, c'.items p = c.items p)
    (hl : ∀ w ∈ workers stages, c'.leaving w = c.leaving w) :
    flow fn c' q stages = flow fn c q stages := by
  induction stages generalizing q with
  | nil => exact hi q List.mem_cons_self
  | cons s rest ih =>
    have hrest := ih (q := s.output) (fun p hp => hi p (List.mem_cons_of_mem _ hp))
      fun w hw => hl w (List.mem_cons_of_mem _ hw)
    rw [flow, flow, hrest, hi q List.mem_cons_self, hl s.worker List.mem_cons_self]

/-- A result that is still to come is ready at the exit, is made from an item of a queue inside
the line, or is in the hands of a worker. -/
theorem mem_flow {f : F} (h : f ∈ flow fn c q stages) :
    f ∈ c.items (exit q stages) ∨ ∃ p s rest, At q stages p s rest ∧
      ((∃ g ∈ c.items p, f = through fn (s :: rest) g) ∨
        ∃ g ∈ c.leaving s.worker, f = through fn rest g) := by
  induction stages generalizing q with
  | nil => exact Or.inl h
  | cons s rest ih =>
    rw [flow, List.mem_append, List.mem_map] at h
    rcases h with h | ⟨g, hg, rfl⟩
    · rcases ih h with he | ⟨p, s', rest', hat, hg⟩
      · exact Or.inl he
      · exact Or.inr ⟨p, s', rest', .later hat, hg⟩
    · refine Or.inr ⟨q, s, rest, .here q s rest, ?_⟩
      rcases List.mem_append.mp hg with hg | hg
      · exact Or.inr ⟨g, hg, rfl⟩
      · obtain ⟨e, he, rfl⟩ := List.mem_map.mp hg
        exact Or.inl ⟨e, he, rfl⟩

theorem flow_eq_nil (h : flow fn c q stages = []) :
    (∀ p ∈ queues q stages, c.items p = []) ∧ ∀ w ∈ workers stages, c.leaving w = [] := by
  induction stages generalizing q with
  | nil => simpa [queues, workers, flow] using h
  | cons s rest ih =>
    rw [flow, List.append_eq_nil_iff, List.map_eq_nil_iff, List.append_eq_nil_iff,
      List.map_eq_nil_iff] at h
    obtain ⟨hrest, hleaving, hitems⟩ := h
    obtain ⟨hi, hl⟩ := ih hrest
    refine ⟨fun p hp => ?_, fun w hw => ?_⟩
    · rcases List.mem_cons.mp hp with rfl | hp
      · exact hitems
      · exact hi p hp
    · rcases List.mem_cons.mp hw with rfl | hw
      · exact hleaving
      · exact hl w hw

theorem flow_exit (fn : W → F → F) (c : Contents Q W F) (q : Q) (stages : List (Stage Q W)) :
    c.items (exit q stages) <+: flow fn c q stages := by
  induction stages generalizing q with
  | nil => exact List.prefix_rfl
  | cons s rest ih => exact (ih s.output).trans (List.prefix_append _ _)

theorem flow_drained (fn : W → F → F) (hs : Simple q stages)
    (hi : ∀ p ∈ queues q stages, p ≠ exit q stages → c.items p = [])
    (hl : ∀ w ∈ workers stages, c.leaving w = []) :
    flow fn c q stages = c.items (exit q stages) := by
  induction stages generalizing q with
  | nil => rfl
  | cons s rest ih =>
    have hrest := ih hs.tail (fun p hp => hi p (List.mem_cons_of_mem _ hp))
      fun w hw => hl w (List.mem_cons_of_mem _ hw)
    have hq := hi q List.mem_cons_self (hs.exit_ne (.here q s rest))
    rw [flow, hrest, hq, hl s.worker List.mem_cons_self, exit]
    simp

theorem flow_length (fn : W → F → F) (c : Contents Q W F) (q : Q) (stages : List (Stage Q W)) :
    (flow fn c q stages).length = (c.items (exit q stages)).length + pending c q stages := by
  induction stages generalizing q with
  | nil => rfl
  | cons s rest ih =>
    rw [flow, List.length_append, ih, List.length_map, List.length_append, List.length_map, exit,
      pending]
    omega

theorem pending_eq_zero (hi : ∀ p, c.items p = []) (hl : ∀ w, c.leaving w = []) :
    pending c q stages = 0 := by
  induction stages generalizing q with
  | nil => rfl
  | cons s rest ih => simp [pending, hi, hl, ih]

theorem pending_congr (hs : Simple q stages)
    (hi : ∀ p ∈ queues q stages, p ≠ exit q stages → c'.items p = c.items p)
    (hl : ∀ w ∈ workers stages, c'.leaving w = c.leaving w) :
    pending c' q stages = pending c q stages := by
  induction stages generalizing q with
  | nil => rfl
  | cons s rest ih =>
    have hrest := ih hs.tail (fun p hp => hi p (List.mem_cons_of_mem _ hp))
      fun w hw => hl w (List.mem_cons_of_mem _ hw)
    have hq := hi q List.mem_cons_self (hs.exit_ne (.here q s rest))
    rw [pending, pending, hrest, hq, hl s.worker List.mem_cons_self]

end Contents

section Moves

variable [DecidableEq Q] {c : Contents Q W F}

def Contents.put (c : Contents Q W F) (q : Q) (f : F) : Contents Q W F :=
  { c with items := Function.update c.items q (c.items q ++ [f]) }

def Contents.pop (c : Contents Q W F) (q : Q) : Contents Q W F :=
  { c with items := Function.update c.items q (c.items q).tail }

theorem flow_put (hs : Simple q stages) (f : F) :
    flow fn (c.put q f) q stages = flow fn c q stages ++ [through fn stages f] := by
  cases stages with
  | nil => simp [flow, Contents.put, through]
  | cons s rest =>
    have hq := (List.nodup_cons.mp hs.queues_nodup).1
    have hrest : flow fn (c.put q f) s.output rest = flow fn c s.output rest :=
      flow_congr (fun p hp => Function.update_of_ne (by rintro rfl; exact hq hp) _ _) fun _ _ => rfl
    rw [flow, flow, hrest]
    simp [Contents.put, through]

theorem flow_pop (hs : Simple q stages) {f : F} {fs : List F}
    (h : c.items (exit q stages) = f :: fs) :
    flow fn c q stages = f :: flow fn (c.pop (exit q stages)) q stages := by
  induction stages generalizing q with
  | nil =>
    rw [exit] at h
    simp [flow, Contents.pop, exit, h]
  | cons s rest ih =>
    have hq := (List.nodup_cons.mp hs.queues_nodup).1
    have hne : q ≠ exit s.output rest := by
      rintro he
      exact hq (he ▸ exit_mem s.output rest)
    rw [flow, ih hs.tail h, flow, exit]
    simp [Contents.pop, hne]

variable [DecidableEq W]

def Contents.hold (c : Contents Q W F) (w : W) (l : List F) : Contents Q W F :=
  { c with leaving := Function.update c.leaving w l }

theorem flow_take (hs : Simple q stages) {p : Q} {s : Stage Q W} {rest : List (Stage Q W)}
    (hat : At q stages p s rest) {f : F} {fs : List F} (hp : c.items p = f :: fs)
    (hw : c.leaving s.worker = []) :
    flow fn ((c.pop p).hold s.worker [fn s.worker f]) q stages = flow fn c q stages := by
  induction hat with
  | here q s rest =>
    have hq := (List.nodup_cons.mp hs.queues_nodup).1
    have hsw := (List.nodup_cons.mp hs.workers_nodup).1
    have hrest : flow fn ((c.pop q).hold s.worker [fn s.worker f]) s.output rest =
        flow fn c s.output rest :=
      flow_congr (fun _ hm => Function.update_of_ne (by rintro rfl; exact hq hm) _ _)
        fun w hw => Function.update_of_ne (by rintro rfl; exact hsw hw) _ _
    rw [flow, flow, hrest]
    simp [Contents.pop, Contents.hold, hp, hw]
  | @later q s' rest' p s rest hat ih =>
    have hq := (List.nodup_cons.mp hs.queues_nodup).1
    have hsw := (List.nodup_cons.mp hs.workers_nodup).1
    have hqp : q ≠ p := by rintro rfl; exact hq hat.input_mem
    have hss : s'.worker ≠ s.worker := (ne_of_mem_of_not_mem hat.worker_mem hsw).symm
    rw [flow, flow, ih hs.tail hp hw]
    simp [Contents.pop, Contents.hold, hqp, hss]

theorem flow_give (hs : Simple q stages) {p : Q} {s : Stage Q W} {rest : List (Stage Q W)}
    (hat : At q stages p s rest) {g : F} (hw : c.leaving s.worker = [g]) :
    flow fn ((c.put s.output g).hold s.worker []) q stages = flow fn c q stages := by
  induction hat with
  | here q s rest =>
    have hq := (List.nodup_cons.mp hs.queues_nodup).1
    have hsw := (List.nodup_cons.mp hs.workers_nodup).1
    have hqs : q ≠ s.output := by rintro rfl; exact hq List.mem_cons_self
    have hrest : flow fn ((c.put s.output g).hold s.worker []) s.output rest =
        flow fn (c.put s.output g) s.output rest :=
      flow_congr (fun _ _ => rfl) fun w hw =>
        Function.update_of_ne (by rintro rfl; exact hsw hw) _ _
    rw [flow, flow, hrest, flow_put hs.tail]
    simp [Contents.put, Contents.hold, hw, hqs]
  | @later q s' rest' p s rest hat ih =>
    have hq := (List.nodup_cons.mp hs.queues_nodup).1
    have hsw := (List.nodup_cons.mp hs.workers_nodup).1
    have hqs : q ≠ s.output := by
      rintro rfl
      exact hq (List.mem_cons_of_mem _ hat.output_mem)
    have hss : s'.worker ≠ s.worker := (ne_of_mem_of_not_mem hat.worker_mem hsw).symm
    rw [flow, flow, ih hs.tail hw]
    simp [Contents.put, Contents.hold, hqs, hss]

omit [DecidableEq Q] in
theorem flow_drop (fn : W → F → F) (hs : Simple q stages) {p : Q} {s : Stage Q W} {rest : List (Stage Q W)}
    (hat : At q stages p s rest) {g : F} (hw : c.leaving s.worker = [g]) :
    ∃ l l', flow fn c q stages = l ++ through fn rest g :: l' ∧
      flow fn (c.hold s.worker []) q stages = l ++ l' := by
  induction hat with
  | here q s rest =>
    have hsw := (List.nodup_cons.mp hs.workers_nodup).1
    have hrest : flow fn (c.hold s.worker []) s.output rest = flow fn c s.output rest :=
      flow_congr (fun _ _ => rfl) fun w hw =>
        Function.update_of_ne (by rintro rfl; exact hsw hw) _ _
    rw [flow, flow, hrest]
    refine ⟨flow fn c s.output rest, ((c.items q).map (fn s.worker)).map (through fn rest), ?_, ?_⟩
    · simp [hw]
    · simp [Contents.hold]
  | @later q s' rest' p s rest hat ih =>
    have hsw := (List.nodup_cons.mp hs.workers_nodup).1
    have hss : s'.worker ≠ s.worker := (ne_of_mem_of_not_mem hat.worker_mem hsw).symm
    obtain ⟨l, l', h1, h2⟩ := ih hs.tail hw
    rw [flow, flow, h1, h2]
    refine ⟨l, l' ++ (c.leaving s'.worker ++ (c.items q).map (fn s'.worker)).map
      (through fn rest'), by simp, ?_⟩
    simp [Contents.hold, hss]

omit [DecidableEq W] in
theorem pending_put (hs : Simple q stages) (hne : stages ≠ []) (f : F) :
    pending (c.put q f) q stages = pending c q stages + 1 := by
  have hflow : flow (fun _ f => f) (c.put q f) q stages = _ := flow_put hs f
  apply_fun List.length at hflow
  have hexit : (c.put q f).items (exit q stages) = c.items (exit q stages) :=
    Function.update_of_ne (hs.exit_ne_entry hne) _ _
  rw [List.length_append, flow_length, flow_length, hexit, List.length_singleton] at hflow
  omega

theorem pending_take (hs : Simple q stages) {p : Q} {s : Stage Q W} {rest : List (Stage Q W)}
    (hat : At q stages p s rest) {f g : F} {fs : List F} (hp : c.items p = f :: fs)
    (hw : c.leaving s.worker = []) :
    pending ((c.pop p).hold s.worker [g]) q stages = pending c q stages := by
  have hflow : flow (fun _ _ => g) ((c.pop p).hold s.worker [g]) q stages = _ :=
    flow_take hs hat hp hw
  apply_fun List.length at hflow
  have hexit : ((c.pop p).hold s.worker [g]).items (exit q stages) = c.items (exit q stages) :=
    Function.update_of_ne (hs.exit_ne hat).symm _ _
  rw [flow_length, flow_length, hexit] at hflow
  omega

omit [DecidableEq Q] in
theorem pending_drop (hs : Simple q stages) {p : Q} {s : Stage Q W} {rest : List (Stage Q W)}
    (hat : At q stages p s rest) {g : F} (hw : c.leaving s.worker = [g]) :
    pending (c.hold s.worker []) q stages + 1 = pending c q stages := by
  obtain ⟨l, l', h1, h2⟩ := flow_drop (fun _ f => f) hs hat hw
  have h1 := congrArg List.length h1
  have h2 := congrArg List.length h2
  rw [flow_length, List.length_append] at h1 h2
  simp only [Contents.hold, List.length_cons] at h1 h2 ⊢
  omega

theorem pending_give (hs : Simple q stages) {p : Q} {s : Stage Q W} {rest : List (Stage Q W)}
    (hat : At q stages p s rest) {g : F} (hw : c.leaving s.worker = [g]) :
    pending ((c.put s.output g).hold s.worker []) q stages +
      (if s.output = exit q stages then 1 else 0) = pending c q stages := by
  have hflow : flow (fun _ f => f) ((c.put s.output g).hold s.worker []) q stages = _ :=
    flow_give hs hat hw
  apply_fun List.length at hflow
  rw [flow_length, flow_length] at hflow
  by_cases he : s.output = exit q stages
  · rw [if_pos he]
    simp only [Contents.hold, Contents.put, he, Function.update_self, List.length_append,
      List.length_singleton] at hflow ⊢
    omega
  · rw [if_neg he]
    simp only [Contents.hold, Contents.put, Function.update_of_ne (Ne.symm he)] at hflow ⊢
    omega

end Moves

end LossyLine
