import VideoEditorOffloading.PipelineWiring

/-! # Which threads run after start and stop

Threads never return to `effectThreads`, and a thread is started at most once. So what is left
running or interrupted in a reachable state can be read off the calls that led there. -/
namespace PipelineThreadLifecycle

open SharedStatePrograms PipelineObjects PipelineOperations PipelineOperationSpecs PipelineRuns

theorem start_state (thread : JavaThread) :
    thread.start.state = if thread.state = .new then .started else thread.state := by
  unfold JavaThread.start
  split <;> rfl

theorem interrupt_state (thread : JavaThread) :
    thread.interrupt.state =
      if thread.state = .started then .interrupted else thread.state := by
  unfold JavaThread.interrupt
  split <;> rfl

theorem interrupt_not_started (thread : JavaThread) : thread.interrupt.state ≠ .started := by
  rw [interrupt_state]
  split <;> simp_all

structure Touch (s : State) (silent : List ℕ) (kind : Kind) (s' : State) : Prop where
  grows : s.heap.nextThread ≤ s'.heap.nextThread
  outside : ∀ th < s.heap.nextThread, th ∉ s.pipe.effectThreads →
    th ∉ s'.pipe.effectThreads ∧ stateOf s' th = stateOf s th
  dropped : ∀ th ∈ s.pipe.effectThreads, th ∉ s'.pipe.effectThreads → th ∉ silent →
    stateOf s' th ≠ .started
  silenced : ∀ th ∈ silent, th ∈ s.pipe.effectThreads ∧ th ∉ s'.pipe.effectThreads ∧
    stateOf s' th = stateOf s th
  kept : kind ≠ .halts → ∀ th ∈ s.pipe.effectThreads, th ∈ s'.pipe.effectThreads →
    (stateOf s' th = .interrupted ↔ stateOf s th = .interrupted)
  fresh : ∀ th, s.heap.nextThread ≤ th → stateOf s th = .new →
    stateOf s' th = .new ∨ stateOf s' th = .started ∧ th ∈ s'.pipe.effectThreads

theorem restarted_state (s : State) (th : ℕ) :
    stateOf (restarted s) th = 
      if s.pipe.running ∧ th ∈ s.pipe.effectThreads ∧ stateOf s th = .new then .started
      else stateOf s th := by
  unfold restarted stateOf
  by_cases hr : s.pipe.running <;> by_cases hm : th ∈ s.pipe.effectThreads <;>
    simp [hr, hm, start_state]

theorem Touch.restarted {s m : State} {l : List ℕ} {kind : Kind} (h : Touch s l kind m) :
    Touch s l kind (restarted m) := by
  obtain ⟨h1, h2, h3, h4, h5, h6⟩ := h
  have hn := (restarted_heap m).2.2.1
  constructor <;> simp only [restarted_pipe, hn, restarted_state] <;> grind

/-- A change that puts `news` in the place of `old`, and interrupts `hit` among the latter. -/
theorem touch_replace {s m : State} {l : List ℕ} {kind : Kind} (hs : Staffed s)
    (us old news vs hit : List ℕ) (hold : s.pipe.effectThreads = us ++ (old ++ vs))
    (hnew : m.pipe.effectThreads = us ++ (news ++ vs))
    (hle : s.heap.nextThread ≤ m.heap.nextThread)
    (hnews : ∀ x ∈ news, s.heap.nextThread ≤ x)
    (hhit : ∀ x, x ∈ old ↔ x ∈ hit ∨ x ∈ l) (hl : ∀ x ∈ l, x ∉ hit)
    (hstate : ∀ th, stateOf m th =
      if s.heap.nextThread ≤ th ∧ th < m.heap.nextThread then .new
      else if th ∈ hit then (s.heap.thread th).interrupt.state
      else stateOf s th) : Touch s l kind m := by
  have hd := hs.threads_distinct
  have hb := hs.threads_allocated
  rw [hold] at hd hb
  simp only [List.nodup_append, List.mem_append] at hd hb
  have hus : ∀ x ∈ us, x ∉ old := fun x hx ho => hd.2.2 x hx x (Or.inl ho) rfl
  have hvs : ∀ x ∈ vs, x ∉ old := fun x hx ho => hd.2.1.2.2 x ho x hx rfl
  have ht : ∀ th, (s.heap.thread th).state = stateOf s th := fun _ => rfl
  refine ⟨hle, ?_, ?_, ?_, ?_, ?_⟩
  all_goals simp only [hold, hnew, List.mem_append, hstate, interrupt_state, ht]
  · grind
  · grind
  · grind
  · grind
  · grind

theorem change_touch {s s' : State} {l : List ℕ} {kind : Kind} (hs : Staffed s)
    (hc : Change s l kind s') : Touch s l kind s' := by
  have hb := hs.threads_allocated
  cases hc with
  | newTask h p e => constructor <;> simp [stateOf] <;> grind
  | start h p => constructor <;> simp [stateOf] <;> grind [start_state]
  | stop h p => constructor <;> simp [stateOf] <;> grind [interrupt_state]
  | clear h uq pq r ths ts =>
    refine .restarted (touch_replace hs [] ths [h.nextThread] [] ths ?_ ?_ ?_ ?_ ?_ ?_ ?_)
    all_goals simp [stateOf, Function.update_apply]
    all_goals grind [JavaThread.interrupt_interrupt]
  | addFirst h uq pq r t =>
    refine .restarted (touch_replace hs [] [] [h.nextThread] [] [] ?_ ?_ ?_ ?_ ?_ ?_ ?_)
    all_goals simp [stateOf, Function.update_apply]
    all_goals grind [JavaThread.interrupt_interrupt]
  | addLast h uq pq r us u xs a t hl =>
    refine .restarted (touch_replace hs us [u] [h.nextThread, h.nextThread + 1] [] [u]
      ?_ ?_ ?_ ?_ ?_ ?_ ?_)
    all_goals simp [stateOf, Function.update_apply]
    all_goals grind [JavaThread.interrupt_interrupt]
  | addHead h uq pq r us u xs a t hl =>
    have hu : u < h.nextThread := hb u (by simp)
    refine .restarted (touch_replace hs [] [u] [h.nextThread, h.nextThread + 1] us [u]
      ?_ ?_ ?_ ?_ ?_ ?_ ?_)
    all_goals simp [stateOf, Function.update_apply]
    all_goals grind [JavaThread.interrupt_interrupt]
  | addMiddle h uq pq r us u v vs xs a b ys t hl hm =>
    refine .restarted (touch_replace hs us [u, v]
      [h.nextThread + 1, h.nextThread, h.nextThread + 2] vs [] ?_ ?_ ?_ ?_ ?_ ?_ ?_)
    all_goals simp [stateOf, Function.update_apply]
    all_goals grind [JavaThread.interrupt_interrupt]
  | removeInner h uq pq r us u v vs xs a b ys hl hm =>
    refine .restarted (touch_replace hs us [u, v] [h.nextThread] vs [u, v] ?_ ?_ ?_ ?_ ?_ ?_ ?_)
    all_goals simp [stateOf, Function.update_apply]
    all_goals grind [JavaThread.interrupt_interrupt]
  | removeLast h uq pq r us u v xs a b hl =>
    refine .restarted (touch_replace hs us [u, v] [h.nextThread] [] [u, v] ?_ ?_ ?_ ?_ ?_ ?_ ?_)
    all_goals simp [stateOf, Function.update_apply]
    all_goals grind [JavaThread.interrupt_interrupt]
  | removeOnly h uq pq r u a =>
    refine .restarted (touch_replace hs [] [u] [h.nextThread] [] [u] ?_ ?_ ?_ ?_ ?_ ?_ ?_)
    all_goals simp [stateOf, Function.update_apply]
    all_goals grind [JavaThread.interrupt_interrupt]

/-- A running thread that the pipeline has lost. -/
def Stray (s : State) (th : ℕ) : Prop :=
  stateOf s th = .started ∧ th ∉ s.pipe.effectThreads

def Unborn (s : State) : Prop := ∀ th, s.heap.nextThread ≤ th → stateOf s th = .new

section Changes

variable {s s' : State} {l : List ℕ} {kind : Kind}

theorem touch_unborn (ht : Touch s l kind s') (hs' : Staffed s') (hu : Unborn s) : Unborn s' := by
  intro th hth
  have hle := ht.grows.trans hth
  rcases ht.fresh th hle (hu th hle) with hn | ⟨-, hm⟩
  · exact hn
  · exact absurd (hs'.threads_allocated th hm) (by omega)

theorem touch_stray (ht : Touch s l kind s') (hu : Unborn s) (th : ℕ) :
    Stray s' th ↔ Stray s th ∨ th ∈ l ∧ stateOf s th = .started := by
  constructor
  · rintro ⟨hstarted, hout⟩
    rcases lt_or_ge th s.heap.nextThread with hlt | hge
    · by_cases hm : th ∈ s.pipe.effectThreads
      · have hl : th ∈ l := by
          by_contra hl
          exact ht.dropped th hm hout hl hstarted
        exact Or.inr ⟨hl, (ht.silenced th hl).2.2 ▸ hstarted⟩
      · exact Or.inl ⟨(ht.outside th hlt hm).2 ▸ hstarted, hm⟩
    · rcases ht.fresh th hge (hu th hge) with hn | ⟨-, hm⟩
      · rw [hn] at hstarted
        cases hstarted
      · exact absurd hm hout
  · rintro (⟨hstarted, hout⟩ | ⟨hl, hstarted⟩)
    · have hlt : th < s.heap.nextThread := by
        by_contra hge
        have hn := hu th (by omega)
        rw [hstarted] at hn
        cases hn
      obtain ⟨hout', he⟩ := ht.outside th hlt hout
      exact ⟨he.trans hstarted, hout'⟩
    · obtain ⟨-, hout, he⟩ := ht.silenced th hl
      exact ⟨he.trans hstarted, hout⟩

theorem touch_interrupted (ht : Touch s l kind s') (hu : Unborn s) (hk : kind ≠ .halts) {th : ℕ}
    (hm : th ∈ s'.pipe.effectThreads) :
    stateOf s' th = .interrupted ↔
      th ∈ s.pipe.effectThreads ∧ stateOf s th = .interrupted := by
  by_cases hold : th ∈ s.pipe.effectThreads
  · simp [ht.kept hk th hold hm, hold]
  · have hge : s.heap.nextThread ≤ th := by
      by_contra hlt
      exact (ht.outside th (by omega) hold).1 hm
    rcases ht.fresh th hge (hu th hge) with hn | ⟨hn, -⟩ <;> simp [hn, hold]

end Changes

section Steps

variable {s : State}

theorem step_unborn (hs : Staffed s) (hu : Unborn s) (op : Op) : Unborn (step s op) := by
  have both := step_preserves (P := fun s => Staffed s → Unborn s)
    (fun s l kind s' hs hc h hs' => touch_unborn (change_touch hs hc) hs' (h hs)) hs (fun _ => hu) op
  exact both (step_staffed hs op)

theorem step_stray (hs : Staffed s) (hu : Unborn s) (op : Op) (th : ℕ) :
    Stray (step s op) th ↔ Stray s th ∨ th ∈ op.orphans s := by
  rcases step_changes hs op with ⟨he, ho⟩ | ⟨kind, hc, -, -, ho⟩ | ⟨m, t, hc, hc', -, ho⟩
  · simp [he, ho]
  · rw [touch_stray (change_touch hs hc) hu, ho]
    simp
  · have hm := change_staffed hc hs
    have hum := touch_unborn (change_touch hs hc) hm hu
    rw [touch_stray (change_touch hm hc') hum, touch_stray (change_touch hs hc) hu, ho]
    simp

theorem stateOf_stop (s : State) (th : ℕ) :
    stateOf (step s .stop) th =
      if th ∈ s.pipe.effectThreads ∧ stateOf s th = .started then .interrupted
      else stateOf s th := by
  obtain ⟨h, p⟩ := s
  simp only [step, Op.code, call_stop, stateOf, interruptAll_thread]
  by_cases hm : th ∈ p.effectThreads <;> simp [hm, interrupt_state]

theorem stateOf_start (s : State) (th : ℕ) :
    stateOf (step s .start) th =
      if th ∈ s.pipe.effectThreads ∧ stateOf s th = .new then .started else stateOf s th := by
  obtain ⟨h, p⟩ := s
  simp only [step, Op.code, call_start, stateOf, startAll_thread]
  by_cases hm : th ∈ p.effectThreads <;> simp [hm, start_state]

/-- A thread that is not in the list never comes back. -/
theorem step_returns (hs : Staffed s) (op : Op) {th : ℕ} (hlt : th < s.heap.nextThread)
    (hout : th ∉ s.pipe.effectThreads) : th ∉ (step s op).pipe.effectThreads := by
  have hP := step_preserves
    (P := fun t => th < t.heap.nextThread ∧ th ∉ t.pipe.effectThreads)
    (fun s l kind s' hs hc h =>
      have ht := change_touch hs hc
      ⟨h.1.trans_le ht.grows, (ht.outside th h.1 h.2).1⟩) hs ⟨hlt, hout⟩ op
  exact hP.2

theorem step_interrupted (hs : Staffed s) (hu : Unborn s) (op : Op) {th : ℕ}
    (hm : th ∈ (step s op).pipe.effectThreads) :
    stateOf (step s op) th = .interrupted ↔ th ∈ s.pipe.effectThreads ∧
      (stateOf s th = .interrupted ∨ op = .stop ∧ stateOf s th = .started) := by
  rcases eq_or_ne op .stop with rfl | hop
  · have hsame : (step s .stop).pipe.effectThreads = s.pipe.effectThreads := by
      obtain ⟨h, p⟩ := s
      simp [step, Op.code, call_stop]
    rw [hsame] at hm
    rw [stateOf_stop]
    by_cases hst : stateOf s th = .started <;> simp [hm, hst]
  simp only [hop, false_and, or_false]
  rcases step_changes hs op with ⟨he, -⟩ | ⟨kind, hc, -, hk, -⟩ | ⟨m, t, hc, hc', -, -⟩
  · rw [he] at hm ⊢
    simp [hm]
  · exact touch_interrupted (change_touch hs hc) hu (fun h => hop (hk h)) hm
  · have hsm := change_staffed hc hs
    have hum := touch_unborn (change_touch hs hc) hsm hu
    have hlast := touch_interrupted (change_touch hsm hc') hum (by simp) hm
    constructor
    · intro hi
      obtain ⟨hmm, him⟩ := hlast.mp hi
      exact (touch_interrupted (change_touch hs hc) hu (by simp) hmm).mp him
    · rintro ⟨hold, hi⟩
      refine hlast.mpr ?_
      have hmm : th ∈ m.pipe.effectThreads := by
        by_contra hout
        have hlt := hs.threads_allocated th hold
        have hlt' := hlt.trans_le (change_touch hs hc).grows
        exact ((change_touch hsm hc').outside th hlt' hout).1 hm
      exact ⟨hmm, (touch_interrupted (change_touch hs hc) hu (by simp) hmm).mpr ⟨hold, hi⟩⟩

end Steps

def Own (base : ℕ) (s : State) : Prop :=
  base ≤ s.heap.nextThread ∧ ∀ th ∈ s.pipe.effectThreads, base ≤ th

theorem touch_own {s s' : State} {l : List ℕ} {kind : Kind} {base : ℕ} (ht : Touch s l kind s')
    (h : Own base s) : Own base s' := by
  refine ⟨h.1.trans ht.grows, fun th hth => ?_⟩
  by_contra hlt
  have hlt' : th < s.heap.nextThread := by have := h.1; omega
  by_cases hm : th ∈ s.pipe.effectThreads
  · exact hlt (h.2 th hm)
  · exact (ht.outside th hlt' hm).1 hth

theorem step_own {s : State} {base : ℕ} (hs : Staffed s) (h : Own base s) (op : Op) :
    Own base (step s op) :=
  step_preserves (P := Own base) (fun _ _ _ _ hs hc h => touch_own (change_touch hs hc) h) hs h op

theorem orphans_own {s : State} {base : ℕ} (hs : Staffed s) (h : Own base s) (op : Op) :
    ∀ th ∈ op.orphans s, base ≤ th := by
  intro th hth
  rcases step_changes hs op with ⟨-, ho⟩ | ⟨kind, hc, -, -, ho⟩ | ⟨m, t, hc, hc', -, ho⟩ <;>
    rw [ho] at hth
  · cases hth
  · have hl := (List.mem_filter.mp hth).1
    exact h.2 th ((change_touch hs hc).silenced th hl).1
  · have hl := (List.mem_filter.mp hth).1
    exact (touch_own (change_touch hs hc) h).2 th
      ((change_touch (change_staffed hc hs) hc').silenced th hl).1

/-- The running threads that the calls leave behind without an interrupt. -/
def orphansOf : State → List Op → List ℕ
  | _, [] => []
  | s, op :: ops => op.orphans s ++ orphansOf (step s op) ops

def stoppedThreads : State → List Op → List ℕ
  | _, [] => []
  | s, op :: ops =>
    (if op = .stop then s.pipe.effectThreads.filter (stateOf s · = .started) else []) ++
      stoppedThreads (step s op) ops

section Runs

variable {s : State}

theorem stoppedThreads_snoc (s : State) (ops : List Op) (op : Op) :
    stoppedThreads s (ops ++ [op]) = stoppedThreads s ops ++
      stoppedThreads (after s ops) [op] := by
  induction ops generalizing s with
  | nil => rfl
  | cons o ops ih =>
    rw [List.cons_append, stoppedThreads, ih, ← List.append_assoc]
    rfl

theorem after_unborn (hs : Staffed s) (hu : Unborn s) (ops : List Op) : Unborn (after s ops) := by
  induction ops generalizing s with
  | nil => exact hu
  | cons op ops ih => exact ih (step_staffed hs op) (step_unborn hs hu op)

theorem after_stray (hs : Staffed s) (hu : Unborn s) (ops : List Op) (th : ℕ) :
    Stray (after s ops) th ↔ Stray s th ∨ th ∈ orphansOf s ops := by
  induction ops generalizing s with
  | nil => simp [orphansOf]
  | cons op ops ih =>
    rw [after_cons, ih (step_staffed hs op) (step_unborn hs hu op), step_stray hs hu]
    simp [orphansOf, or_assoc]

theorem orphansOf_own {base : ℕ} (hs : Staffed s) (h : Own base s) (ops : List Op) :
    ∀ th ∈ orphansOf s ops, base ≤ th := by
  induction ops generalizing s with
  | nil => simp [orphansOf]
  | cons op ops ih =>
    intro th hth
    rcases List.mem_append.mp hth with hth | hth
    · exact orphans_own hs h op th hth
    · exact ih (step_staffed hs op) (step_own hs h op) th hth

theorem step_grows (hs : Staffed s) (op : Op) :
    s.heap.nextThread ≤ (step s op).heap.nextThread :=
  step_preserves (P := fun t => s.heap.nextThread ≤ t.heap.nextThread)
    (fun _ _ _ _ hs hc h => h.trans (change_touch hs hc).grows) hs le_rfl op

theorem stoppedThreads_allocated (hs : Staffed s) (ops : List Op) :
    ∀ th ∈ stoppedThreads s ops, th < (after s ops).heap.nextThread := by
  induction ops using List.reverseRecOn with
  | nil => simp [stoppedThreads]
  | append_singleton ops op ih =>
    have hs' := after_staffed hs ops
    intro th hth
    rw [stoppedThreads_snoc, List.mem_append] at hth
    have hgrows := step_grows hs' op
    rw [after_append, after_cons, after_nil]
    rcases hth with hth | hth
    · exact (ih th hth).trans_le hgrows
    · have hm : th ∈ (after s ops).pipe.effectThreads := by
        simp only [stoppedThreads, List.append_nil] at hth
        split at hth
        · exact (List.mem_filter.mp hth).1
        · cases hth
      exact (hs'.threads_allocated th hm).trans_le hgrows

/-- Nothing but `stop` leaves interrupted threads in the list. -/
theorem after_interrupted (hs : Staffed s) (hu : Unborn s)
    (hn : ∀ th ∈ s.pipe.effectThreads, stateOf s th ≠ .interrupted) (ops : List Op) {th : ℕ}
    (hm : th ∈ (after s ops).pipe.effectThreads) :
    stateOf (after s ops) th = .interrupted ↔ th ∈ stoppedThreads s ops := by
  induction ops using List.reverseRecOn with
  | nil => simpa [stoppedThreads] using hn th hm
  | append_singleton ops op ih =>
    have hs' := after_staffed hs ops
    have hu' := after_unborn hs hu ops
    rw [after_append, after_cons, after_nil] at hm ⊢
    rw [step_interrupted hs' hu' op hm, stoppedThreads_snoc, List.mem_append]
    have hlast : th ∈ stoppedThreads (after s ops) [op] ↔ op = .stop ∧
        th ∈ (after s ops).pipe.effectThreads ∧ stateOf (after s ops) th = .started := by
      by_cases hop : op = .stop <;> simp [stoppedThreads, hop]
    rw [hlast]
    by_cases hold : th ∈ (after s ops).pipe.effectThreads
    · simp [ih hold, hold]
    · -- a thread that just entered the list did not exist before
      have hge : (after s ops).heap.nextThread ≤ th := by
        by_contra hlt
        have hout := fun hm' => step_returns hs' op (by omega) hold hm'
        exact hout hm
      have hnot : th ∉ stoppedThreads s ops := fun h =>
        absurd (stoppedThreads_allocated hs ops th h) (by omega)
      simp [hold, hnot]

end Runs

section Built

variable {h : Heap} {uq pq : ℕ} {effects : List ℕ}

theorem built_states (hu : ∀ th, h.nextThread ≤ th → (h.thread th).state = .new) {th : ℕ}
    (hth : h.nextThread ≤ th) : stateOf (built h uq pq effects) th = .new := by
  rcases eq_or_ne effects [] with rfl | hne
  · rw [built_nil]
    exact hu th hth
  · rw [built_cons h uq pq hne]
    refine spawn_new _ effects ?_
    rw [(wire_frame pq uq effects h).1]
    exact hu th hth

theorem built_own (h : Heap) (uq pq : ℕ) (effects : List ℕ) :
    Own h.nextThread (built h uq pq effects) := by
  rcases eq_or_ne effects [] with rfl | hne
  · rw [built_nil]
    simp [Own, blank]
  · rw [built_cons h uq pq hne]
    have hn := (spawn_fields (wire pq uq effects h) effects).2.2.2
    rw [(wire_frame pq uq effects h).2.1] at hn
    refine ⟨by simp only [hn]; omega, fun th hth => ?_⟩
    exact (List.mem_range'_1.mp hth).1

end Built

/-- Every running thread that the pipeline created is in the list, one for a task at most. -/
structure Tracked (base : ℕ) (s : State) : Prop where
  listed : ∀ th, base ≤ th → stateOf s th = .started → th ∈ s.pipe.effectThreads
  single : ∀ th th', base ≤ th → base ≤ th' → stateOf s th = .started →
    stateOf s th' = .started → taskOf s.heap th = taskOf s.heap th' → th = th'

section Results

variable {h : Heap} {uq pq : ℕ} {effects : List ℕ}

theorem no_stray_iff (hu : ∀ th, h.nextThread ≤ th → (h.thread th).state = .new) (ops : List Op) :
    (∀ th, h.nextThread ≤ th → ¬ Stray (after (built h uq pq effects) ops) th) ↔
      orphansOf (built h uq pq effects) ops = [] := by
  have hs := built_staffed h uq pq effects
  have hb : Unborn (built h uq pq effects) := fun th hth =>
    built_states hu ((built_own h uq pq effects).1.trans hth)
  have hinit : ∀ th, h.nextThread ≤ th → ¬ Stray (built h uq pq effects) th := by
    rintro th hth ⟨hst, -⟩
    rw [built_states hu hth] at hst
    cases hst
  constructor
  · intro hno
    refine List.eq_nil_iff_forall_not_mem.mpr fun th hth => ?_
    have hown := orphansOf_own hs (built_own h uq pq effects) ops th hth
    exact hno th hown ((after_stray hs hb ops th).mpr (Or.inr hth))
  · intro ho th hth hstray
    rcases (after_stray hs hb ops th).mp hstray with h' | h'
    · exact hinit th hth h'
    · simp [ho] at h'

/-- `stop` interrupts every thread that was ever started, and running threads are those of the
list, exactly when no insertion strictly inside the list has met a running neighbour. -/
theorem stop_interrupts_all_iff (hu : ∀ th, h.nextThread ≤ th → (h.thread th).state = .new)
    (ops : List Op) :
    ((∀ th, h.nextThread ≤ th →
        stateOf (after (built h uq pq effects) (ops ++ [.stop])) th ≠ .started) ↔
      orphansOf (built h uq pq effects) ops = []) ∧
    ((after (built h uq pq effects) ops).pipe.effectTasks.Nodup →
      (Tracked h.nextThread (after (built h uq pq effects) ops) ↔
        orphansOf (built h uq pq effects) ops = [])) := by
  rw [← no_stray_iff hu ops]
  generalize hs : after (built h uq pq effects) ops = s
  have hst : Staffed s := hs ▸ after_staffed (built_staffed h uq pq effects) ops
  constructor
  · rw [after_append, hs, after_cons, after_nil]
    refine forall_congr' fun th => imp_congr_right fun hth => ?_
    rw [stateOf_stop, Stray]
    by_cases hst : stateOf s th = .started <;> by_cases hm : th ∈ s.pipe.effectThreads <;>
      simp [hst, hm]
  · intro hd
    constructor
    · rintro ⟨hl, -⟩ th hth ⟨hst, hout⟩
      exact hout (hl th hth hst)
    · intro hno
      have hl : ∀ th, h.nextThread ≤ th → stateOf s th = .started → th ∈ s.pipe.effectThreads :=
        fun th hth hst => by_contra fun hout => hno th hth ⟨hst, hout⟩
      refine ⟨hl, fun th th' hth hth' hst' hst'' he => ?_⟩
      rw [← hst.aligned] at hd
      exact List.inj_on_of_nodup_map hd (hl th hth hst') (hl th' hth' hst'') he

def insertedBetween : List Op := [.start, .newTask ⟨2, .sepia⟩, .addEffectAt 1 2]

/-- Both threads that the insertion replaced run on after `stop`. -/
theorem stop_misses_displaced :
    Reachable sampleHeap 0 1 [0, 1] (insertedBetween ++ [.stop])
      (after (built sampleHeap 0 1 [0, 1]) (insertedBetween ++ [.stop])) ∧
    ∃ th, sampleHeap.nextThread ≤ th ∧
      stateOf (after (built sampleHeap 0 1 [0, 1]) (insertedBetween ++ [.stop])) th = .started ∧
      th ∉ (after (built sampleHeap 0 1 [0, 1]) (insertedBetween ++ [.stop])).pipe.effectThreads :=
  ⟨⟨sample_two_arguments, .snoc (.snoc (.snoc (.snoc .nil (by decide)) (by decide)) (by decide))
    (by decide)⟩, 0, by decide⟩

theorem stop_interrupts_all_front :
    (∀ th, sampleHeap.nextThread ≤ th →
      stateOf (after (built sampleHeap 0 1 [0]) ([.start, .addEffectAt 0 1] ++ [.stop])) th ≠
        .started) ∧
    Tracked 0 (after (built sampleHeap 0 1 [0]) [.start, .addEffectAt 0 1]) := by
  have hu : ∀ th, sampleHeap.nextThread ≤ th → (sampleHeap.thread th).state = .new :=
    fun _ _ => rfl
  exact ⟨(stop_interrupts_all_iff hu [.start, .addEffectAt 0 1]).1.mpr (by decide),
    ((stop_interrupts_all_iff hu [.start, .addEffectAt 0 1]).2 (by decide)).mpr (by decide)⟩

/-- After `start` every task has a running thread exactly when every task has one that no
earlier `stop` found running. -/
theorem start_runs_all_iff (hu : ∀ th, h.nextThread ≤ th → (h.thread th).state = .new)
    (ops : List Op) :
    (∀ t ∈ (after (built h uq pq effects) (ops ++ [.start])).pipe.effectTasks,
      ∃ th ∈ (after (built h uq pq effects) (ops ++ [.start])).pipe.effectThreads,
        taskOf (after (built h uq pq effects) (ops ++ [.start])).heap th = t ∧
        stateOf (after (built h uq pq effects) (ops ++ [.start])) th = .started) ↔
    ∀ t ∈ (after (built h uq pq effects) ops).pipe.effectTasks,
      ∃ th ∈ (after (built h uq pq effects) ops).pipe.effectThreads,
        taskOf (after (built h uq pq effects) ops).heap th = t ∧
        th ∉ stoppedThreads (built h uq pq effects) ops := by
  have hb : Unborn (built h uq pq effects) := fun th hth =>
    built_states hu ((built_own h uq pq effects).1.trans hth)
  have hn : ∀ th ∈ (built h uq pq effects).pipe.effectThreads,
      stateOf (built h uq pq effects) th ≠ .interrupted := by
    intro th hth
    rw [built_states hu ((built_own h uq pq effects).2 th hth)]
    decide
  have hint := fun (th : ℕ) (hm : th ∈ (after (built h uq pq effects) ops).pipe.effectThreads) =>
    after_interrupted (built_staffed h uq pq effects) hb hn ops hm
  rw [after_append, after_cons, after_nil]
  generalize after (built h uq pq effects) ops = s at hint ⊢
  have hsame : (step s .start).pipe.effectTasks = s.pipe.effectTasks ∧
      (step s .start).pipe.effectThreads = s.pipe.effectThreads ∧
      taskOf (step s .start).heap = taskOf s.heap := by
    obtain ⟨h, p⟩ := s
    simp [step, Op.code, call_start]
  rw [hsame.1, hsame.2.1, hsame.2.2]
  refine forall₂_congr fun t _ => exists_congr fun th => and_congr_right fun hm =>
    and_congr_right fun _ => ?_
  rw [stateOf_start, ← hint th hm]
  cases hst : stateOf s th <;> simp [hm]

/-- As in a pause and a resume: `start` does nothing for the thread that `stop` interrupted. -/
theorem start_misses_stopped :
    Reachable sampleHeap 0 1 [0] [.start, .stop, .start]
      (after (built sampleHeap 0 1 [0]) [.start, .stop, .start]) ∧
    ¬ ∀ t ∈ (after (built sampleHeap 0 1 [0]) [.start, .stop, .start]).pipe.effectTasks,
      ∃ th ∈ (after (built sampleHeap 0 1 [0]) [.start, .stop, .start]).pipe.effectThreads,
        taskOf (after (built sampleHeap 0 1 [0]) [.start, .stop, .start]).heap th = t ∧
        stateOf (after (built sampleHeap 0 1 [0]) [.start, .stop, .start]) th = .started :=
  ⟨⟨sample_arguments, .snoc (.snoc (.snoc .nil (by decide)) (by decide)) (by decide)⟩,
    by decide⟩

theorem start_runs_all_cleared :
    (after (built sampleHeap 0 1 [0])
      ([.start, .stop, .clearEffects] ++ [.start])).pipe.effectTasks ≠ [] ∧
    ∀ t ∈ (after (built sampleHeap 0 1 [0])
        ([.start, .stop, .clearEffects] ++ [.start])).pipe.effectTasks,
      ∃ th ∈ (after (built sampleHeap 0 1 [0])
          ([.start, .stop, .clearEffects] ++ [.start])).pipe.effectThreads,
        taskOf (after (built sampleHeap 0 1 [0])
          ([.start, .stop, .clearEffects] ++ [.start])).heap th = t ∧
        stateOf (after (built sampleHeap 0 1 [0])
          ([.start, .stop, .clearEffects] ++ [.start])) th = .started :=
  ⟨by decide, (start_runs_all_iff (fun _ _ => rfl) _).mpr (by decide)⟩

end Results

end PipelineThreadLifecycle
