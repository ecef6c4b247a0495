import VideoEditorOffloading.EffectThreads
import VideoEditorOffloading.PipelineReference

/-! # Frames in a pipeline that is edited

The methods of the pipeline never touch the contents of a queue. A frame is lost to an edit if
afterwards no task reads the queue in which it lies. -/
namespace StrandedFrames

open SharedStatePrograms PipelineObjects PipelineOperations PipelineOperationSpecs PipelineRuns
  PipelineWiring PipelineReference EffectThreads ListPositions

def inputs (s : State) : List (Option ℕ) :=
  s.pipe.effectTasks.map fun t => (s.heap.task t).inputQueue

/-- Frames in this queue are on their way through the pipeline. -/
def Served (s : State) (q : ℕ) : Prop := some q ∈ inputs s ∨ q = s.pipe.processedFrameQueue

/-- The queue behind a task that is removed from among others, or in front of it if it is the
last. -/
def unread (s : State) (index : ℤ) : List (Option ℕ) :=
  if 0 ≤ index ∧ index < s.pipe.effectTasks.length ∧ s.pipe.effectTasks.length ≠ 1 then
    ((inputs s).drop (min (index.toNat + 1) (s.pipe.effectTasks.length - 1))).take 1
  else []

/-- The queues that an edit leaves without a reader. Clearing leaves all between two tasks. -/
def abandoned (s : State) : Op → List (Option ℕ)
  | .removeEffect i | .moveEffect i _ => unread s i
  | .clearEffects => (inputs s).tail
  | _ => []

theorem linked_inputs {task : ℕ → EffectTask} {qs ts : List ℕ} (hl : Linked task qs ts) :
    (ts.map fun t => (task t).inputQueue) ++ [qs.getLast?] = qs.map some := by
  fun_induction Linked task qs ts with
  | case1 q => rfl
  | case2 q q' qs t ts ih =>
    obtain ⟨hi, -, hr⟩ := hl
    have hrest := ih hr
    simp only [List.map_cons, List.cons_append, List.getLast?_cons_cons] at hrest ⊢
    rw [hi, hrest]
  | case3 => exact hl.elim

theorem linked_neighbours {task : ℕ → EffectTask} {qs xs ys : List ℕ} {a b : ℕ}
    (hl : Linked task qs (xs ++ a :: b :: ys)) : (task a).outputQueue = (task b).inputQueue := by
  obtain ⟨-, hget⟩ := linked_get hl
  rw [(hget xs.length a (by simp)).2, (hget (xs.length + 1) b (by simp)).1]

/-- Different tasks read different queues, the first one the unprocessed frames, and nobody the
processed ones. -/
structure Reading (s : State) : Prop where
  distinct : (inputs s).Nodup
  processed : some s.pipe.processedFrameQueue ∉ inputs s
  head : s.pipe.effectTasks ≠ [] → (inputs s).head? = some (some s.pipe.unprocessedFrameQueue)
  allocated : ∀ q, some q ∈ inputs s → q < s.heap.nextQueue

theorem reading_of_wiring {s : State} (hw : Wiring s) : Reading s := by
  rcases hw.path with hnil | ⟨qs, hp⟩
  · have hinputs : inputs s = [] := by rw [inputs, hnil, List.map_nil]
    constructor
    · simp [hinputs]
    · simp [hinputs]
    · exact fun hne => absurd hnil hne
    · simp [hinputs]
  · have hl := linked_inputs hp.linked
    rw [hp.last] at hl
    change inputs s ++ [some s.pipe.processedFrameQueue] = qs.map some at hl
    have hnodup : (inputs s ++ [some s.pipe.processedFrameQueue]).Nodup := by
      rw [hl]
      exact hp.nodup.map (Option.some_injective ℕ)
    obtain ⟨hd, -, hne⟩ := List.nodup_append.mp hnodup
    constructor
    · exact hd
    · intro hm
      exact hne _ hm _ (List.mem_singleton_self _) rfl
    · intro htasks
      have hhead := congrArg List.head? hl
      rw [List.head?_map, hp.head, List.head?_append_of_ne_nil _ (by simpa [inputs])] at hhead
      exact hhead
    · intro q hq
      have hmem : some q ∈ qs.map some := hl ▸ List.mem_append_left _ hq
      obtain ⟨q', hq', ⟨⟩⟩ := List.mem_map.mp hmem
      exact hp.allocated q hq'

theorem inputs_restarted (m : State) : inputs (restarted m) = inputs m := by
  rw [inputs, restarted_pipe, (restarted_heap m).1]
  rfl

theorem map_untouched {f : ℕ → Option ℕ} {q : Option ℕ} {t : ℕ} {ts : List ℕ} (ht : t ∉ ts) :
    (ts.map fun x => if x = t then q else f x) = ts.map f := by
  apply List.map_congr_left
  intro x hx
  rw [if_neg]
  rintro rfl
  exact ht hx

section Edits

variable {s m : State} {l : List ℕ} {t : ℕ}

/-- An added task finds the readers of all queues where they were, and brings one new queue. -/
theorem change_inputs (hs : Shape s) (hw : Wiring s) (hf : Fresh s (.adds t))
    (hc : Change s l (.adds t) m) (hne : s.pipe.effectTasks ≠ []) (x : Option ℕ) :
    x ∈ inputs m ↔ x ∈ inputs s ∨ x = some s.heap.nextQueue := by
  obtain ⟨-, hnew⟩ := hf t rfl
  have hdistinct := hs.tasks_distinct
  cases hc with
  | addFirst h uq pq r t => exact absurd rfl hne
  | addLast h uq pq r us u xs a t hl =>
    simp only [List.mem_append, List.mem_singleton, not_or] at hnew
    rw [inputs_restarted]
    simp only [inputs, List.map_append, List.map_cons, List.map_nil, Heap.newThread_task,
      setInput_inputQueue, setOutput_inputQueue, Heap.newQueue_task, Heap.interrupt_task,
      map_untouched hnew.1, if_neg (Ne.symm hnew.2), if_true]
    simp [or_assoc]
  | addHead h uq pq r us u xs a t hl =>
    simp only [List.mem_cons, not_or] at hnew
    have ha : a ∉ xs := (List.nodup_cons.mp hdistinct).1
    rw [inputs_restarted]
    simp only [inputs, List.map_cons, Heap.newThread_task, setInput_inputQueue,
      setOutput_inputQueue, Heap.newQueue_task, Heap.interrupt_task, map_untouched ha,
      map_untouched hnew.2, if_neg hnew.1, if_true]
    simp only [List.mem_cons]
    tauto
  | addMiddle h uq pq r us u v vs xs a b ys t hl hm =>
    simp only [List.mem_append, List.mem_cons, not_or] at hnew
    obtain ⟨hxs, hta, htb, hys⟩ := hnew
    obtain ⟨hbx, hby, hab⟩ : b ∉ xs ∧ b ∉ ys ∧ a ≠ b := by
      simp only [List.nodup_append, List.nodup_cons, List.mem_cons] at hdistinct
      refine ⟨fun hb => ?_, hdistinct.2.1.2.1, fun he => hdistinct.2.1.1 (Or.inl he)⟩
      exact hdistinct.2.2 b hb b (Or.inr (Or.inl rfl)) rfl
    obtain ⟨qs, hp⟩ := hw.path.resolve_left hne
    have hread : (h.task a).outputQueue = (h.task b).inputQueue := linked_neighbours hp.linked
    rw [inputs_restarted]
    simp only [inputs, List.map_append, List.map_cons, Heap.newThread_task, setInput_inputQueue,
      setOutput_inputQueue, Heap.newQueue_task, map_untouched hbx, map_untouched hby,
      map_untouched hxs, map_untouched hys, if_neg hab, if_neg htb, if_neg (Ne.symm hta), if_true,
      hread]
    simp only [List.mem_append, List.mem_cons]
    tauto

theorem inputs_removeEffect (hs : Shape s) {i : ℕ} (hi : i < s.pipe.effectTasks.length)
    (h₁ : s.pipe.effectTasks.length ≠ 1) :
    inputs (step s (.removeEffect i)) =
      (inputs s).eraseIdx (min (i + 1) (s.pipe.effectTasks.length - 1)) ∧
    (step s (.removeEffect i)).heap.nextQueue = s.heap.nextQueue := by
  have hlen := hs.length
  have hdistinct := hs.tasks_distinct
  obtain ⟨h, uq, pq, r, ths, ts⟩ := s
  obtain ⟨xs, a, ys, rfl, rfl⟩ := split_at hi
  obtain ⟨us, u, vs, rfl, hus⟩ := split_at (l := ths) (i := xs.length) (by simp [hlen])
  match ys, vs with
  | [], _ :: _ => simp [hus] at hlen
  | _ :: _, [] => simp [hus] at hlen
  | b :: ys, v :: vs =>
    obtain ⟨hbx, hby⟩ : b ∉ xs ∧ b ∉ ys := by
      simp only [List.nodup_append, List.nodup_cons, List.mem_cons] at hdistinct
      refine ⟨fun hb => ?_, hdistinct.2.1.2.1⟩
      exact hdistinct.2.2 b hb b (Or.inr (Or.inl rfl)) rfl
    have hcall := call_removeEffect_inner h uq pq r us vs xs ys hus a b u v
    rw [step, Op.code, hcall]
    constructor
    · have hmin : min (xs.length + 1) ((xs ++ a :: b :: ys).length - 1) = xs.length + 1 := by
        rw [List.length_append]
        simp
      rw [hmin, inputs_restarted]
      simp only [inputs, List.map_append, List.map_cons, Heap.newThread_task, Heap.interrupt_task,
        setInput_inputQueue, map_untouched hbx, map_untouched hby, if_true]
      rw [List.eraseIdx_append_of_length_le (by simp)]
      simp
    · rw [(restarted_heap _).2.2.2]
      rfl
  | [], [] =>
    obtain ⟨xs, c, rfl⟩ := split_last (l := xs) (by rintro rfl; exact h₁ rfl)
    obtain ⟨us, w, rfl⟩ := split_last (l := us) (by rintro rfl; simp at hus)
    have hl : us.length = xs.length := by simpa using hus
    have hcall := call_removeEffect_last h uq pq r us xs hl c a w u
    simp only [List.append_assoc, List.cons_append, List.nil_append, List.length_append,
      List.length_cons, List.length_nil, Nat.cast_add, Nat.cast_one, zero_add] at hcall ⊢
    rw [step, Op.code, hcall]
    constructor
    · have hmin : min (xs.length + 1 + 1) (xs.length + 2 - 1) = xs.length + 1 := by omega
      rw [hmin, inputs_restarted]
      simp only [inputs, List.map_append, List.map_cons, List.map_nil, Heap.newThread_task,
        Heap.interrupt_task, setOutput_inputQueue]
      rw [List.eraseIdx_append_of_length_le (by simp)]
      simp
    · rw [(restarted_heap _).2.2.2]
      rfl

theorem inputs_clearEffects (s : State) :
    inputs (step s .clearEffects) = [some s.pipe.unprocessedFrameQueue] := by
  obtain ⟨h, uq, pq, r, ths, ts⟩ := s
  rw [step, Op.code, call_clearEffects, inputs_restarted]
  simp [inputs]

theorem inputs_removeEffect_only (hs : Shape s) (h₁ : s.pipe.effectTasks.length = 1) :
    inputs (step s (.removeEffect 0)) = [some s.pipe.unprocessedFrameQueue] := by
  have hlen := hs.length
  obtain ⟨h, uq, pq, r, ths, ts⟩ := s
  obtain ⟨a, rfl⟩ := List.length_eq_one_iff.mp h₁
  obtain ⟨u, rfl⟩ := List.length_eq_one_iff.mp hlen
  rw [step, Op.code, call_removeEffect_only, call_clearEffects, inputs_restarted]
  simp [inputs]

end Edits

/-- The queues that are read afterwards: those that were read before without the abandoned ones,
and new ones. -/
structure Rearranged (s m : State) (gone : List (Option ℕ)) : Prop where
  kept : ∀ q, Served s q → some q ∉ gone → Served m q
  old : gone ≠ [] → ∀ q, Served m q →
    (Served s q ∧ some q ∉ gone) ∨ s.heap.nextQueue ≤ q ∧ q < m.heap.nextQueue

section Steps

variable {s m : State} {l : List ℕ} {kind : Kind}

theorem processed_step (s : State) (op : Op) :
    (step s op).pipe.processedFrameQueue = s.pipe.processedFrameQueue :=
  (call_frame op.code s).2.1

theorem rearranged_of_subset (hp : m.pipe.processedFrameQueue = s.pipe.processedFrameQueue)
    (hi : ∀ q, some q ∈ inputs s → some q ∈ inputs m) : Rearranged s m [] := by
  refine ⟨fun q hq _ => ?_, fun hne => absurd rfl hne⟩
  rcases hq with hq | rfl
  · exact Or.inl (hi q hq)
  · exact Or.inr hp.symm

theorem rearranged_same (hp : m.pipe.processedFrameQueue = s.pipe.processedFrameQueue)
    (hi : inputs m = inputs s) : Rearranged s m [] :=
  rearranged_of_subset hp fun q hq => by rwa [hi]

theorem rearranged_add {t : ℕ} (hs : Shape s) (hw : Wiring s) (hf : Fresh s (.adds t))
    (hc : Change s l (.adds t) m)
    (hp : m.pipe.processedFrameQueue = s.pipe.processedFrameQueue) : Rearranged s m [] := by
  apply rearranged_of_subset hp
  intro q hq
  have hne : s.pipe.effectTasks ≠ [] := by
    intro hnil
    simp [inputs, hnil] at hq
  exact (change_inputs hs hw hf hc hne _).mpr (Or.inl hq)

theorem rearranged_removeEffect (hs : Shape s) (hw : Wiring s) (i : ℤ) :
    Rearranged s (step s (.removeEffect i)) (unread s i) := by
  have hr := reading_of_wiring hw
  have hp := processed_step s (.removeEffect i)
  unfold unread
  split
  · next hin =>
    obtain ⟨h₀, hlt, h₁⟩ := hin
    obtain ⟨k, rfl⟩ := Int.eq_ofNat_of_zero_le h₀
    rw [Int.toNat_natCast]
    have hi := (inputs_removeEffect hs (by exact_mod_cast hlt) h₁).1
    have hmem := fun x => mem_eraseIdx_of_nodup hr.distinct
      (min (k + 1) (s.pipe.effectTasks.length - 1)) x
    constructor
    · rintro q (hq | rfl) hgone
      · exact Or.inl (hi ▸ (hmem _).mpr ⟨hq, hgone⟩)
      · exact Or.inr hp.symm
    · rintro - q (hq | hq)
      · obtain ⟨hold, hkeep⟩ := (hmem _).mp (hi ▸ hq)
        exact Or.inl ⟨Or.inl hold, hkeep⟩
      · rw [hp] at hq
        subst hq
        refine Or.inl ⟨Or.inr rfl, fun hgone => hr.processed ?_⟩
        exact List.mem_of_mem_drop (List.mem_of_mem_take hgone)
  · next hout =>
    by_cases hin : 0 ≤ i ∧ i < s.pipe.effectTasks.length
    · -- the only task goes, and an identity task reads its queue
      have h₁ : s.pipe.effectTasks.length = 1 := by
        by_contra hne
        exact hout ⟨hin.1, hin.2, hne⟩
      obtain rfl : i = 0 := by omega
      apply rearranged_of_subset hp
      intro q hq
      obtain ⟨x, hx⟩ : ∃ x, inputs s = [x] := List.length_eq_one_iff.mp (by simp [inputs, h₁])
      have hhead := hr.head (by rintro hnil; simp [hnil] at h₁)
      rw [hx] at hhead hq
      obtain rfl : x = some s.pipe.unprocessedFrameQueue := by simpa using hhead
      rwa [inputs_removeEffect_only hs h₁]
    · have hsame : step s (.removeEffect i) = s :=
        congrArg Prod.snd (removeEffect_outside s hin)
      rw [hsame]
      exact rearranged_same rfl rfl

theorem rearranged_clearEffects (hw : Wiring s) :
    Rearranged s (step s .clearEffects) (inputs s).tail := by
  have hr := reading_of_wiring hw
  have hp := processed_step s .clearEffects
  have hi := inputs_clearEffects s
  rcases eq_or_ne s.pipe.effectTasks [] with hnil | hne
  · have hnone : inputs s = [] := by rw [inputs, hnil, List.map_nil]
    rw [hnone]
    apply rearranged_of_subset hp
    simp [hnone]
  · obtain ⟨xs, hxs⟩ : ∃ xs, inputs s = some s.pipe.unprocessedFrameQueue :: xs :=
      List.head?_eq_some_iff.mp (hr.head hne)
    have hd := hr.distinct
    have hproc := hr.processed
    rw [hxs] at hd hproc
    constructor
    · rintro q (hq | rfl) hgone
      · rw [hxs] at hq hgone
        rcases List.mem_cons.mp hq with hq | hq
        · exact Or.inl (by rw [hi, hq]; exact List.mem_singleton_self _)
        · exact absurd hq hgone
      · exact Or.inr hp.symm
    · rintro - q (hq | hq) <;> rw [hxs]
      · rw [hi, List.mem_singleton] at hq
        rw [hq]
        exact Or.inl ⟨Or.inl (by simp [hxs, ← Option.some_inj.mp hq]), (List.nodup_cons.mp hd).1⟩
      · rw [hp] at hq
        subst hq
        exact Or.inl ⟨Or.inr rfl, fun hgone => hproc (List.mem_cons_of_mem _ hgone)⟩

theorem wiring_step {op : Op} (hs : Shape s) (hw : Wiring s) (hv : op.Valid s) :
    Wiring (step s op) :=
  valid_step_preserves (fun _ _ _ _ hs hf hc hw => change_wiring hs hf hc hw) hs hv hw

theorem Rearranged.then_add {m' : State} {gone : List (Option ℕ)} {t : ℕ}
    (h : Rearranged s m gone) (hs : Shape m) (hw : Wiring m) (hw' : Wiring m')
    (hle : s.heap.nextQueue ≤ m.heap.nextQueue) (hle' : m.heap.nextQueue ≤ m'.heap.nextQueue)
    (hf : Fresh m (.adds t)) (hc : Change m l (.adds t) m')
    (hne : gone ≠ [] → m.pipe.effectTasks ≠ [])
    (hp : m'.pipe.processedFrameQueue = m.pipe.processedFrameQueue) : Rearranged s m' gone := by
  constructor
  · intro q hq hgone
    exact (rearranged_add hs hw hf hc hp).kept q (h.kept q hq hgone) List.not_mem_nil
  · intro hgone q hq
    have hback : Served m q → (Served s q ∧ some q ∉ gone) ∨
        s.heap.nextQueue ≤ q ∧ q < m'.heap.nextQueue := by
      intro hm
      exact (h.old hgone q hm).imp id fun hnew => ⟨hnew.1, hnew.2.trans_le hle'⟩
    rcases hq with hq | hq
    · have hlt := (reading_of_wiring hw').allocated q hq
      rcases (change_inputs hs hw hf hc (hne hgone) _).mp hq with hm | hm
      · exact hback (Or.inl hm)
      · obtain rfl := Option.some_inj.mp hm
        exact Or.inr ⟨hle, hlt⟩
    · exact hback (Or.inr (by rw [hq, hp]))

theorem rearranged_moveEffect (hs : Shape s) (hw : Wiring s) {i j : ℤ}
    (hv : (Op.moveEffect i j).Valid s) :
    Rearranged s (step s (.moveEffect i j)) (unread s i) := by
  obtain ⟨h₀, hlt, hj⟩ := id hv
  obtain ⟨m, a, hm, hc, hg, hedit, ha⟩ := removeEffect_change hs.length h₀ hlt
  have hmid : step s (.removeEffect i) = m := congrArg Prod.snd hm
  have hshape := change_shape hc (plain_fresh s) hs
  have hwiring := change_wiring hs (plain_fresh s) hc hw
  obtain ⟨m', hm', hc', -⟩ := addEffectAt_change hshape.length hj a
  have hend : step s (.moveEffect i j) = m' := by
    rw [step, Op.code, call_moveEffect hg hm, hm']
  have hf : Fresh m (.adds a) := by
    intro x hx
    obtain rfl : a = x := by simpa using hx
    exact ha hs.tasks_distinct hs.tasks_allocated
  have hgrow : m.heap.nextQueue ≤ m'.heap.nextQueue := by
    have hcall := (call_frame (addEffectAt j a) m).2.2
    rwa [hm'] at hcall
  have hremove := rearranged_removeEffect hs hw i
  have hnext := (call_frame (Op.code (.removeEffect i)) s).2.2
  rw [hmid] at hremove
  rw [← step, hmid] at hnext
  have hw' := wiring_step hs hw hv
  rw [hend] at hw' ⊢
  refine hremove.then_add hshape hwiring hw' hnext hgrow hf hc' ?_ ?_
  · intro hgone hnil
    have h₁ : s.pipe.effectTasks.length ≠ 1 := by
      intro hone
      exact hgone (if_neg fun hin => hin.2.2 hone)
    rw [if_neg h₁] at hedit
    have hlen := congrArg List.length (hedit.1.symm.trans hnil)
    rw [List.length_eraseIdx_of_lt (by omega), List.length_nil] at hlen
    omega
  · have hp := (call_frame (addEffectAt j a) m).2.1
    rwa [hm'] at hp

theorem rearranged_step (hs : Shape s) (hw : Wiring s) {op : Op} (hv : op.Valid s) :
    Rearranged s (step s op) (abandoned s op) := by
  cases op with
  | newTask e =>
    obtain ⟨h, p⟩ := s
    have hstep : step ⟨h, p⟩ (.newTask e) = ⟨h.newTask e, p⟩ := by
      simp [step, Op.code, ref, exec]
    have hi : inputs ⟨h.newTask e, p⟩ = inputs ⟨h, p⟩ := by
      apply List.map_congr_left
      intro t ht
      simp [(hs.tasks_allocated t ht).ne]
    rw [hstep]
    exact rearranged_same rfl hi
  | addEffect t =>
    obtain ⟨m, hm, hc, -⟩ := addEffect_change hs.length t
    have hstep : step s (.addEffect t) = restarted m := congrArg Prod.snd hm
    have hp := processed_step s (.addEffect t)
    rw [hstep] at hp ⊢
    refine rearranged_add hs hw (fun x hx => ?_) hc hp
    obtain rfl : t = x := by simpa using hx
    exact hv
  | addEffectAt i t =>
    obtain ⟨hi, hfresh⟩ := id hv
    obtain ⟨m, hm, hc, -⟩ := addEffectAt_change hs.length hi t
    have hstep : step s (.addEffectAt i t) = m := congrArg Prod.snd hm
    have hp := processed_step s (.addEffectAt i t)
    rw [hstep] at hp ⊢
    refine rearranged_add hs hw (fun x hx => ?_) hc hp
    obtain rfl : t = x := by simpa using hx
    exact hfresh
  | removeEffect i => exact rearranged_removeEffect hs hw i
  | moveEffect i j => exact rearranged_moveEffect hs hw hv
  | clearEffects => exact rearranged_clearEffects hw
  | start =>
    obtain ⟨h, p⟩ := s
    rw [step, Op.code, call_start]
    exact rearranged_same rfl rfl
  | stop =>
    obtain ⟨h, p⟩ := s
    rw [step, Op.code, call_stop]
    exact rearranged_same rfl rfl

theorem abandoned_inputs {op : Op} {x : Option ℕ} (hx : x ∈ abandoned s op) : x ∈ inputs s := by
  cases op with
  | removeEffect i | moveEffect i j =>
    simp only [abandoned, unread] at hx
    split at hx
    · exact List.mem_of_mem_drop (List.mem_of_mem_take hx)
    · exact absurd hx List.not_mem_nil
  | clearEffects => exact List.mem_of_mem_tail hx
  | _ => exact absurd hx List.not_mem_nil

end Steps

section Contents

variable {M : Type}

def edit (op : Op) (w : World M) : World M := (op.code.run World.state World.exec w).2

theorem edit_state (op : Op) (w : World M) : (edit op w).state = step w.state op :=
  run_state op.code w

theorem exec_nextQueue (i : Instr) (s : State) :
    (∃ capacity, i = .newQueue capacity ∧
      (PipelineObjects.exec i s).2.heap.nextQueue = s.heap.nextQueue + 1) ∨
    (PipelineObjects.exec i s).2.heap.nextQueue = s.heap.nextQueue := by
  cases i with
  | newQueue capacity => exact Or.inl ⟨capacity, rfl, rfl⟩
  | startThread th | tasksAdd i t | tasksRemove i | threadsAdd i t | threadsRemove i =>
    simp only [PipelineObjects.exec]
    split <;> exact Or.inr rfl
  | _ => exact Or.inr rfl

theorem run_items {α : Type} (p : Code α) (w : World M) (q : ℕ) :
    (q < w.state.heap.nextQueue → (p.run World.state World.exec w).2.items q = w.items q) ∧
      (w.state.heap.nextQueue ≤ q →
        q < (p.run World.state World.exec w).2.state.heap.nextQueue →
        (p.run World.state World.exec w).2.items q = []) := by
  induction p generalizing w with
  | done a => exact ⟨fun _ => rfl, fun hle hlt => absurd hlt (not_lt.mpr hle)⟩
  | fail e => exact ⟨fun _ => rfl, fun hle hlt => absurd hlt (not_lt.mpr hle)⟩
  | read k ih => exact ih _ w
  | act i k ih =>
    obtain ⟨hold, hnew⟩ := ih (World.exec i w).1 (World.exec i w).2
    have hle : w.state.heap.nextQueue ≤ (World.exec i w).2.state.heap.nextQueue :=
      (exec_frame i w.state).2.2.1
    have hitems : q < w.state.heap.nextQueue → (World.exec i w).2.items q = w.items q := by
      intro hq
      cases i with
      | newQueue capacity => exact Function.update_of_ne hq.ne _ _
      | _ => rfl
    have hempty : w.state.heap.nextQueue ≤ q → q < (World.exec i w).2.state.heap.nextQueue →
        (World.exec i w).2.items q = [] := by
      intro hge hlt
      have hnext : (World.exec i w).2.state = (PipelineObjects.exec i w.state).2 := rfl
      rw [hnext] at hlt
      rcases exec_nextQueue i w.state with ⟨capacity, rfl, hone⟩ | hsame
      · obtain rfl : q = w.state.heap.nextQueue := by omega
        exact Function.update_self _ _ _
      · omega
    constructor
    · intro hq
      exact (hold (hq.trans_le hle)).trans (hitems hq)
    · intro hge hlt
      rcases lt_or_ge q (World.exec i w).2.state.heap.nextQueue with hq | hq
      · exact (hold hq).trans (hempty hge hq)
      · exact hnew hq hlt

/-- The frame is on its way through the pipeline. -/
def Present (w : World M) (f : Frame M) : Prop := ∃ q, Served w.state q ∧ f ∈ w.items q

def Keeps (op : Op) (w : World M) : Prop := ∀ f, Present w f → Present (edit op w) f

variable {w : World M} {op : Op}

theorem present_edit (hr : Rearranged w.state (step w.state op) (abandoned w.state op))
    (hb : ∀ q, Served w.state q → q < w.state.heap.nextQueue) {q : ℕ} {f : Frame M}
    (hq : Served w.state q) (hkeep : some q ∉ abandoned w.state op) (hf : f ∈ w.items q) :
    Present (edit op w) f := by
  refine ⟨q, ?_, ?_⟩
  · rw [edit_state]
    exact hr.kept q hq hkeep
  · rw [edit, (run_items op.code w q).1 (hb q hq)]
    exact hf

theorem served_allocated {s : State} (hw : Wiring s) {q : ℕ} (hq : Served s q) :
    q < s.heap.nextQueue := by
  rcases hq with hq | rfl
  · exact (reading_of_wiring hw).allocated q hq
  · exact hw.processed_allocated

/-- An edit keeps exactly the frames of the queues that it does not abandon. -/
theorem keeps_iff (hs : Shape w.state) (hw : Wiring w.state) (hv : op.Valid w.state) :
    Keeps op w ↔ ∀ q, some q ∈ abandoned w.state op → ∀ f ∈ w.items q,
      ∃ q', Served w.state q' ∧ some q' ∉ abandoned w.state op ∧ f ∈ w.items q' := by
  have hr := rearranged_step hs hw hv
  have hb := fun q => served_allocated hw (q := q)
  constructor
  · intro hkeeps q hq f hf
    obtain ⟨q', hserved, hf'⟩ := hkeeps f ⟨q, Or.inl (abandoned_inputs hq), hf⟩
    rw [edit_state] at hserved
    rcases hr.old (List.ne_nil_of_mem hq) q' hserved with ⟨hold, hkeep⟩ | ⟨hge, hlt⟩
    · rw [edit, (run_items op.code w q').1 (hb q' hold)] at hf'
      exact ⟨q', hold, hkeep, hf'⟩
    · rw [← edit_state] at hlt
      rw [edit, (run_items op.code w q').2 hge hlt] at hf'
      exact absurd hf' List.not_mem_nil
  · rintro hall f ⟨q, hserved, hf⟩
    by_cases hgone : some q ∈ abandoned w.state op
    · obtain ⟨q', hold, hkeep, hf'⟩ := hall q hgone f hf
      exact present_edit hr hb hold hkeep hf'
    · exact present_edit hr hb hserved hgone hf

/-- No frame lies in two queues of the pipeline. -/
def Apart (w : World M) : Prop :=
  ∀ q q' f, Served w.state q → Served w.state q' → f ∈ w.items q → f ∈ w.items q' → q = q'

def holding (q : ℕ) : World ℕ where
  state := built sampleHeap 0 1 [0, 1]
  items := fun x => if x = q then [⟨0, 7⟩] else []
  capacity := fun _ => 2
  pc := fun _ => .unstarted
  flag := fun _ => false
  log := []

theorem holding_shape (q : ℕ) : Shape (holding q).state := built_shape sample_two_arguments

theorem holding_wiring (q : ℕ) : Wiring (holding q).state := built_wiring sample_two_arguments

theorem mem_holding {q x : ℕ} {f : Frame ℕ} (hf : f ∈ (holding q).items x) : x = q := by
  by_contra hne
  simp [holding, hne] at hf

/-- An edit strands no frame exactly if every frame in a queue that it abandons also lies in one
that it does not; with every frame in one queue only, if the abandoned queues are empty. -/
theorem edit_strands_none_iff (hs : Shape w.state) (hw : Wiring w.state) (hv : op.Valid w.state) :
    (Keeps op w ↔ ∀ q, some q ∈ abandoned w.state op → ∀ f ∈ w.items q,
      ∃ q', Served w.state q' ∧ some q' ∉ abandoned w.state op ∧ f ∈ w.items q') ∧
    (Apart w → (Keeps op w ↔ ∀ q, some q ∈ abandoned w.state op → w.items q = [])) := by
  have hiff := keeps_iff hs hw hv
  refine ⟨hiff, fun hapart => hiff.trans ⟨fun hall q hq => ?_, fun hall q hq f hf => ?_⟩⟩
  · apply List.eq_nil_iff_forall_not_mem.mpr
    intro f hf
    obtain ⟨q', hserved, hkeep, hf'⟩ := hall q hq f hf
    obtain rfl := hapart q q' f (Or.inl (abandoned_inputs hq)) hserved hf hf'
    exact hkeep hq
  · rw [hall q hq] at hf
    exact absurd hf List.not_mem_nil

theorem waiting_frame_kept : Keeps (.removeEffect 0) (holding 0) := by
  have hapart : Apart (holding 0) := fun q q' f _ _ hf hf' =>
    (mem_holding hf).trans (mem_holding hf').symm
  have hv : (Op.removeEffect 0).Valid (holding 0).state := trivial
  apply ((edit_strands_none_iff (holding_shape 0) (holding_wiring 0) hv).2 hapart).mpr
  intro q hq
  have hgone : abandoned (holding 0).state (.removeEffect 0) = [some 2] := by decide
  rw [hgone] at hq
  obtain rfl : q = 2 := by simpa using hq
  rfl

/-- The first task is removed while a frame waits between the two. -/
theorem waiting_frame_stranded :
    ¬ ∀ (w : World ℕ) (op : Op), Shape w.state → Wiring w.state → op.Valid w.state →
      Keeps op w := by
  intro hall
  have hv : (Op.removeEffect 0).Valid (holding 2).state := trivial
  have hkeeps := hall (holding 2) (.removeEffect 0) (holding_shape 2) (holding_wiring 2) hv
  have hgone : abandoned (holding 2).state (.removeEffect 0) = [some 2] := by decide
  obtain ⟨q, -, hkeep, hf⟩ := (keeps_iff (holding_shape 2) (holding_wiring 2) hv).mp hkeeps
    2 (by simp [hgone]) ⟨0, 7⟩ (by decide)
  obtain rfl := mem_holding hf
  exact hkeep (by simp [hgone])

end Contents

end StrandedFrames
