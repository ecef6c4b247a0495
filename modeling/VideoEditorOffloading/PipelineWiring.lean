import VideoEditorOffloading.PipelineRuns

/-! # The queue links of a Pipeline

The tasks of a pipeline lie on one path of queues. The path is an explicit list, one longer
than the list of tasks; every edit of the tasks is one edit of the path. -/
namespace PipelineWiring

open PipelineObjects PipelineOperations PipelineOperationSpecs PipelineRuns

def Linked (task : ℕ → EffectTask) : List ℕ → List ℕ → Prop
  | [_], [] => True
  | q :: q' :: qs, t :: ts =>
    (task t).inputQueue = some q ∧ (task t).outputQueue = some q' ∧ Linked task (q' :: qs) ts
  | _, _ => False

theorem linked_congr {task task' : ℕ → EffectTask} {qs : List ℕ} {ts : List ℕ}
    (hs : ∀ t ∈ ts, task' t = task t) (hl : Linked task qs ts) : Linked task' qs ts := by
  fun_induction Linked task qs ts with
  | case1 => trivial
  | case2 q q' qs t ts ih =>
    obtain ⟨hi, ho, hr⟩ := hl
    have ht := hs t (by simp)
    exact ⟨by rw [ht, hi], by rw [ht, ho], ih (fun t' h' => hs t' (by simp [h'])) hr⟩
  | case3 => exact hl.elim

theorem linked_append {task : ℕ → EffectTask} {qs : List ℕ} {xs ys : List ℕ} :
    Linked task qs (xs ++ ys) ↔
      ∃ ps q rs, qs = ps ++ q :: rs ∧ Linked task (ps ++ [q]) xs ∧ Linked task (q :: rs) ys := by
  induction xs generalizing qs with
  | nil =>
    constructor
    · intro hl
      cases qs with
      | nil => cases ys <;> exact hl.elim
      | cons q rs => exact ⟨[], q, rs, rfl, trivial, hl⟩
    · rintro ⟨ps, q, rs, rfl, hx, hy⟩
      cases ps with
      | nil => exact hy
      | cons p ps => cases ps <;> exact hx.elim
  | cons x xs ih =>
    constructor
    · intro hl
      match qs, hl with
      | q :: q' :: qs, ⟨hi, ho, hr⟩ =>
        obtain ⟨ps, p, rs, he, hx, hy⟩ := ih.mp hr
        refine ⟨q :: ps, p, rs, by rw [he]; rfl, ?_, hy⟩
        cases ps with
        | nil =>
          obtain ⟨rfl, -⟩ := List.cons.inj he
          exact ⟨hi, ho, hx⟩
        | cons p' ps =>
          obtain ⟨rfl, -⟩ := List.cons.inj he
          exact ⟨hi, ho, hx⟩
    · rintro ⟨ps, q, rs, rfl, hx, hy⟩
      match ps, hx with
      | [p], ⟨hi, ho, hr⟩ => exact ⟨hi, ho, ih.mpr ⟨[], q, rs, rfl, hr, hy⟩⟩
      | p :: p' :: ps, ⟨hi, ho, hr⟩ => exact ⟨hi, ho, ih.mpr ⟨p' :: ps, q, rs, rfl, hr, hy⟩⟩

theorem linked_cons {task : ℕ → EffectTask} {qs : List ℕ} {t : ℕ}
    {ts : List ℕ} :
    Linked task qs (t :: ts) ↔
      ∃ q q' rs, qs = q :: q' :: rs ∧ (task t).inputQueue = some q ∧
        (task t).outputQueue = some q' ∧ Linked task (q' :: rs) ts := by
  constructor
  · intro hl
    match qs, hl with
    | q :: q' :: rs, ⟨hi, ho, hr⟩ => exact ⟨q, q', rs, rfl, hi, ho, hr⟩
  · rintro ⟨q, q', rs, rfl, hi, ho, hr⟩
    exact ⟨hi, ho, hr⟩

theorem linked_nil {task : ℕ → EffectTask} {qs : List ℕ} :
    Linked task qs [] ↔ ∃ q, qs = [q] := by
  match qs with
  | [] => simp [Linked]
  | [q] => simp [Linked]
  | _ :: _ :: _ => simp [Linked]

/-- Position by position: task `i` reads queue `i` of the path and writes queue `i + 1`. -/
theorem linked_get {task : ℕ → EffectTask} {qs : List ℕ} {ts : List ℕ}
    (hl : Linked task qs ts) :
    qs.length = ts.length + 1 ∧ ∀ i t, ts[i]? = some t →
      (task t).inputQueue = qs[i]? ∧ (task t).outputQueue = qs[i + 1]? := by
  fun_induction Linked task qs ts with
  | case1 => simp
  | case2 q q' qs t ts ih =>
    obtain ⟨hi, ho, hr⟩ := hl
    obtain ⟨hlen, hget⟩ := ih hr
    refine ⟨by simpa using hlen, ?_⟩
    intro i u hu
    cases i with
    | zero =>
      obtain rfl : t = u := by simpa using hu
      simp [hi, ho]
    | succ i => simpa using hget i u (by simpa using hu)
  | case3 => exact hl.elim

/-- A path of distinct allocated queues from the unprocessed to the processed queue. -/
structure Path (task : ℕ → EffectTask) (bound : ℕ) (uq pq : ℕ)
    (qs : List ℕ) (ts : List ℕ) : Prop where
  linked : Linked task qs ts
  nodup : qs.Nodup
  head : qs.head? = some uq
  last : qs.getLast? = some pq
  allocated : ∀ q ∈ qs, q < bound

section Edits

variable {task task' : ℕ → EffectTask} {bound uq pq : ℕ} {qs : List ℕ}
  {xs ys : List ℕ} {a b t : ℕ}

theorem path_single (hne : uq ≠ pq) (hu : uq < bound) (hp : pq < bound)
    (hi : (task t).inputQueue = some uq) (ho : (task t).outputQueue = some pq) :
    Path task bound uq pq [uq, pq] [t] where
  linked := ⟨hi, ho, trivial⟩
  nodup := by simpa using hne
  head := rfl
  last := rfl
  allocated := by simp [hu, hp]

theorem Path.snoc (h : Path task bound uq pq qs (xs ++ [a]))
    (hx : ∀ x ∈ xs, task' x = task x)
    (hai : (task' a).inputQueue = (task a).inputQueue)
    (hao : (task' a).outputQueue = some bound)
    (hti : (task' t).inputQueue = some bound) (hto : (task' t).outputQueue = some pq) :
    ∃ qs', Path task' (bound + 1) uq pq qs' (xs ++ [a, t]) := by
  obtain ⟨hl, hn, hh, hla, hb⟩ := h
  obtain ⟨ps, q, rs, rfl, hlx, hly⟩ := linked_append.mp hl
  obtain ⟨q, q', rs, ⟨⟩, hi, ho, hr⟩ := linked_cons.mp hly
  obtain ⟨_, ⟨⟩⟩ := linked_nil.mp hr
  obtain rfl : q' = pq := by simpa using hla
  have fresh : ∀ p ∈ ps ++ [q, q'], p ≠ bound := fun p hp => (hb p hp).ne
  refine ⟨ps ++ [q, bound, q'], linked_append.mpr ⟨ps, q, _, rfl, linked_congr hx hlx, ?_⟩,
    ?_, ?_, ?_, ?_⟩
  · exact ⟨hai.trans hi, hao, hti, hto, trivial⟩
  · simp only [List.nodup_append, List.nodup_cons, List.mem_cons, List.mem_append] at hn fresh ⊢
    grind
  · simpa using hh
  · simp
  · intro p hp
    have := hb p
    grind

theorem Path.cons (h : Path task bound uq pq qs (a :: xs))
    (hx : ∀ x ∈ xs, task' x = task x)
    (hai : (task' a).inputQueue = some bound)
    (hao : (task' a).outputQueue = (task a).outputQueue)
    (hti : (task' t).inputQueue = (task a).inputQueue)
    (hto : (task' t).outputQueue = some bound) :
    ∃ qs', Path task' (bound + 1) uq pq qs' (t :: a :: xs) := by
  obtain ⟨hl, hn, hh, hla, hb⟩ := h
  obtain ⟨q, q', rs, rfl, hi, ho, hr⟩ := linked_cons.mp hl
  refine ⟨q :: bound :: q' :: rs, ⟨hti.trans hi, hto, hai, hao.trans ho, linked_congr hx hr⟩,
    ?_, ?_, ?_, ?_⟩
  · have fresh := fun p hp => (hb p hp).ne
    grind
  · simpa using hh
  · simpa using hla
  · intro p hp
    have := hb p
    grind

theorem Path.insert (h : Path task bound uq pq qs (xs ++ a :: b :: ys))
    (hx : ∀ x ∈ xs, task' x = task x) (hy : ∀ y ∈ ys, task' y = task y)
    (ha : task' a = task a)
    (hbi : (task' b).inputQueue = some bound)
    (hbo : (task' b).outputQueue = (task b).outputQueue)
    (hti : (task' t).inputQueue = (task a).outputQueue)
    (hto : (task' t).outputQueue = some bound) :
    ∃ qs', Path task' (bound + 1) uq pq qs' (xs ++ a :: t :: b :: ys) := by
  obtain ⟨hl, hn, hh, hla, hb⟩ := h
  obtain ⟨ps, q, rs, rfl, hlx, hly⟩ := linked_append.mp hl
  obtain ⟨q, q', rs, ⟨⟩, hi, ho, hr⟩ := linked_cons.mp hly
  obtain ⟨q', q'', rs, ⟨⟩, hi', ho', hr'⟩ := linked_cons.mp hr
  refine ⟨ps ++ q :: q' :: bound :: q'' :: rs,
    linked_append.mpr ⟨ps, q, _, rfl, linked_congr hx hlx, ?_⟩, ?_, ?_, ?_, ?_⟩
  · exact ⟨by rw [ha, hi], by rw [ha, ho], hti.trans ho, hto, hbi, hbo.trans ho',
      linked_congr hy hr'⟩
  · have fresh := fun p hp => (hb p hp).ne
    grind
  · simpa using hh
  · simpa using hla
  · intro p hp
    have := hb p
    grind

theorem Path.eraseInner (h : Path task bound uq pq qs (xs ++ a :: b :: ys))
    (hx : ∀ x ∈ xs, task' x = task x) (hy : ∀ y ∈ ys, task' y = task y)
    (hbi : (task' b).inputQueue = (task a).inputQueue)
    (hbo : (task' b).outputQueue = (task b).outputQueue) :
    ∃ qs', Path task' bound uq pq qs' (xs ++ b :: ys) := by
  obtain ⟨hl, hn, hh, hla, hb⟩ := h
  obtain ⟨ps, q, rs, rfl, hlx, hly⟩ := linked_append.mp hl
  obtain ⟨q, q', rs, ⟨⟩, hi, ho, hr⟩ := linked_cons.mp hly
  obtain ⟨q', q'', rs, ⟨⟩, hi', ho', hr'⟩ := linked_cons.mp hr
  refine ⟨ps ++ q :: q'' :: rs,
    linked_append.mpr ⟨ps, q, _, rfl, linked_congr hx hlx, ?_⟩, ?_, ?_, ?_, ?_⟩
  · exact ⟨hbi.trans hi, hbo.trans ho', linked_congr hy hr'⟩
  · grind
  · simpa using hh
  · simpa using hla
  · intro p hp
    have := hb p
    grind

theorem Path.eraseLast (h : Path task bound uq pq qs (xs ++ [a, b]))
    (hx : ∀ x ∈ xs, task' x = task x)
    (hai : (task' a).inputQueue = (task a).inputQueue)
    (hao : (task' a).outputQueue = (task b).outputQueue) :
    ∃ qs', Path task' bound uq pq qs' (xs ++ [a]) := by
  obtain ⟨hl, hn, hh, hla, hb⟩ := h
  obtain ⟨ps, q, rs, rfl, hlx, hly⟩ := linked_append.mp hl
  obtain ⟨q, q', rs, ⟨⟩, hi, ho, hr⟩ := linked_cons.mp hly
  obtain ⟨q', q'', rs, ⟨⟩, hi', ho', hr'⟩ := linked_cons.mp hr
  obtain ⟨_, ⟨⟩⟩ := linked_nil.mp hr'
  refine ⟨ps ++ [q, q''],
    linked_append.mpr ⟨ps, q, _, rfl, linked_congr hx hlx, ?_⟩, ?_, ?_, ?_, ?_⟩
  · exact ⟨hai.trans hi, hao.trans ho', trivial⟩
  · grind
  · simpa using hh
  · simpa using hla
  · intro p hp
    have := hb p
    grind

end Edits

structure Wiring (s : State) : Prop where
  ends : s.pipe.unprocessedFrameQueue ≠ s.pipe.processedFrameQueue
  unprocessed_allocated : s.pipe.unprocessedFrameQueue < s.heap.nextQueue
  processed_allocated : s.pipe.processedFrameQueue < s.heap.nextQueue
  path : s.pipe.effectTasks = [] ∨
    ∃ qs, Path s.heap.task s.heap.nextQueue s.pipe.unprocessedFrameQueue
      s.pipe.processedFrameQueue qs s.pipe.effectTasks

theorem Wiring.restarted {s : State} (h : Wiring s) : Wiring (restarted s) := by
  obtain ⟨ht, -, -, hq⟩ := restarted_heap s
  obtain ⟨h1, h2, h3, h4⟩ := h
  constructor <;> rw [restarted_pipe] <;> simp_all

theorem change_wiring {s s' : State} {l : List ℕ} {kind : Kind} (hs : Shape s)
    (hf : Fresh s kind) (hc : Change s l kind s') (h : Wiring s) : Wiring s' := by
  obtain ⟨hne, hu, hp, hpath⟩ := h
  obtain ⟨-, hd, hb⟩ := hs
  cases hc with
  | newTask h p e =>
    refine ⟨hne, hu, hp, hpath.imp id ?_⟩
    rintro ⟨qs, hl, hn, hh, hla, ha⟩
    refine ⟨qs, linked_congr (fun t ht => ?_) hl, hn, hh, hla, ha⟩
    simp [(hb t ht).ne]
  | start h p => exact ⟨hne, hu, hp, hpath⟩
  | stop h p => exact ⟨hne, hu, hp, hpath⟩
  | clear h uq pq r ths ts =>
    refine .restarted ⟨hne, hu, hp, Or.inr ⟨[uq, pq], path_single hne hu hp ?_ ?_⟩⟩ <;> simp
  | addFirst h uq pq r t =>
    refine .restarted ⟨hne, hu, hp, Or.inr ⟨[uq, pq], path_single hne hu hp ?_ ?_⟩⟩ <;> simp
  | addLast h uq pq r us u xs a t hl =>
    obtain ⟨-, hn⟩ := hf t rfl
    obtain ⟨qs, hpath⟩ := hpath.resolve_left (by simp)
    have hta : t ≠ a := by grind
    refine .restarted ⟨hne, hu.trans (by simp), hp.trans (by simp), Or.inr ?_⟩
    refine hpath.snoc (fun x hx => ?_) ?_ ?_ ?_ ?_
    · have hxt : x ≠ t := by grind
      have hxa : x ≠ a := by grind
      simp [hxt, hxa]
    all_goals simp [hta, hta.symm]
  | addHead h uq pq r us u xs a t hl =>
    obtain ⟨-, hn⟩ := hf t rfl
    obtain ⟨qs, hpath⟩ := hpath.resolve_left (by simp)
    have hta : t ≠ a := by grind
    refine .restarted ⟨hne, hu.trans (by simp), hp.trans (by simp), Or.inr ?_⟩
    refine hpath.cons (fun x hx => ?_) ?_ ?_ ?_ ?_
    · have hxt : x ≠ t := by grind
      have hxa : x ≠ a := by grind
      simp [hxt, hxa]
    all_goals simp [hta, hta.symm]
  | addMiddle h uq pq r us u v vs xs a b ys t hl hm =>
    obtain ⟨-, hn⟩ := hf t rfl
    obtain ⟨qs, hpath⟩ := hpath.resolve_left (by simp)
    have hta : t ≠ a := by grind
    have htb : t ≠ b := by grind
    have hab : a ≠ b := by grind
    refine .restarted ⟨hne, hu.trans (by simp), hp.trans (by simp), Or.inr ?_⟩
    refine hpath.insert (fun x hx => ?_) (fun x hx => ?_) ?_ ?_ ?_ ?_ ?_
    · have hxt : x ≠ t := by grind
      have hxb : x ≠ b := by grind
      simp [hxt, hxb]
    · have hxt : x ≠ t := by grind
      have hxb : x ≠ b := by grind
      simp [hxt, hxb]
    all_goals simp [hta.symm, htb, htb.symm, hab]
  | removeInner h uq pq r us u v vs xs a b ys hl hm =>
    obtain ⟨qs, hpath⟩ := hpath.resolve_left (by simp)
    refine .restarted ⟨hne, hu, hp, Or.inr ?_⟩
    refine hpath.eraseInner (fun x hx => ?_) (fun x hx => ?_) ?_ ?_
    · have hxb : x ≠ b := by grind
      simp [hxb]
    · have hxb : x ≠ b := by grind
      simp [hxb]
    all_goals simp
  | removeLast h uq pq r us u v xs a b hl =>
    obtain ⟨qs, hpath⟩ := hpath.resolve_left (by simp)
    refine .restarted ⟨hne, hu, hp, Or.inr ?_⟩
    refine hpath.eraseLast (fun x hx => ?_) ?_ ?_
    · have hxa : x ≠ a := by grind
      simp [hxa]
    all_goals simp
  | removeOnly h uq pq r u a =>
    refine .restarted ⟨hne, hu, hp, Or.inr ⟨[uq, pq], path_single hne hu hp ?_ ?_⟩⟩ <;> simp

theorem wire_task (pq q : ℕ) (effects : List ℕ) (h : Heap) {t : ℕ} (ht : t ∉ effects) :
    (wire pq q effects h).task t = h.task t := by
  induction effects generalizing q h with
  | nil => rfl
  | cons a ts ih =>
    simp only [List.mem_cons, not_or] at ht
    cases ts with
    | nil => simp [wire, ht.1]
    | cons b ts =>
      have hi := ih h.nextQueue
        (((h.setInput a (some q)).newQueue).setOutput a (some h.nextQueue)) (by simpa using ht.2)
      simpa [wire, ht.1] using hi

/-- The constructor loop lays a path; its queues are the two ends and new ones. -/
theorem wire_path {pq q : ℕ} {effects : List ℕ} {h : Heap} (hne : effects ≠ [])
    (hd : effects.Nodup) (hq : q ≠ pq) (hlq : q < h.nextQueue) (hlp : pq < h.nextQueue) :
    h.nextQueue ≤ (wire pq q effects h).nextQueue ∧
      ∃ qs, Path (wire pq q effects h).task (wire pq q effects h).nextQueue q pq qs effects ∧
        ∀ p ∈ qs, p = q ∨ p = pq ∨ h.nextQueue ≤ p := by
  induction effects generalizing q h with
  | nil => exact absurd rfl hne
  | cons a ts ih =>
    cases ts with
    | nil =>
      refine ⟨le_rfl, [q, pq], path_single hq hlq hlp ?_ ?_, by simp⟩ <;> simp [wire]
    | cons b ts =>
      obtain ⟨had, hd⟩ := List.nodup_cons.mp hd
      obtain ⟨hle, qs, hp, hqs⟩ := ih (q := h.nextQueue)
        (h := ((h.setInput a (some q)).newQueue).setOutput a (some h.nextQueue))
        (by simp) hd hlp.ne' (by simp) (by simp; omega)
      have ha := wire_task pq h.nextQueue (b :: ts)
        (((h.setInput a (some q)).newQueue).setOutput a (some h.nextQueue)) had
      simp only [Heap.setOutput_nextQueue, Heap.newQueue_nextQueue,
        Heap.setInput_nextQueue] at hle hqs
      obtain ⟨hl, hn, hh, hla, hb⟩ := hp
      obtain ⟨q', qs, rfl⟩ : ∃ q' rs, qs = q' :: rs := List.ne_nil_iff_exists_cons.mp
        (by rintro rfl; simp at hh)
      obtain rfl : q' = h.nextQueue := by simpa using hh
      have hfresh : q ∉ h.nextQueue :: qs := by
        intro hm
        have := hqs q hm
        omega
      refine ⟨by simp only [wire]; omega, q :: h.nextQueue :: qs, ⟨?_, ?_, rfl, ?_, ?_⟩, ?_⟩
      · refine ⟨?_, ?_, hl⟩ <;> simp [wire, ha]
      · exact List.nodup_cons.mpr ⟨hfresh, hn⟩
      · simpa using hla
      · rintro p (_ | ⟨_, hp⟩)
        · simp only [wire]
          omega
        · exact hb p hp
      · rintro p (_ | ⟨_, hp⟩)
        · exact Or.inl rfl
        · have := hqs p hp
          omega

theorem built_wiring {h : Heap} {uq pq : ℕ} {effects : List ℕ} (ha : Arguments h uq pq effects) :
    Wiring (built h uq pq effects) := by
  rcases eq_or_ne effects [] with rfl | hne
  · rw [built_nil]
    exact ⟨ha.ends, ha.uq_allocated, ha.pq_allocated, Or.inl rfl⟩
  · obtain ⟨ht, -, hq, -⟩ := spawn_fields (wire pq uq effects h) effects
    obtain ⟨hle, qs, hp, -⟩ := wire_path hne ha.distinct ha.ends ha.uq_allocated ha.pq_allocated
    rw [built_cons h uq pq hne]
    refine ⟨ha.ends, ?_, ?_, Or.inr ⟨qs, ?_⟩⟩
    · exact hq ▸ ha.uq_allocated.trans_le hle
    · exact hq ▸ ha.pq_allocated.trans_le hle
    · rw [ht, hq]
      exact hp

theorem reachable_wiring {h : Heap} {uq pq : ℕ} {effects : List ℕ} {ops : List Op} {s : State}
    (hr : Reachable h uq pq effects ops s) : Wiring s :=
  hr.invariant (built_wiring hr.arguments) fun _ _ _ _ hs hf hc hw => change_wiring hs hf hc hw

/-- The tasks met on the way from a queue: look for the task that reads it, go on with the
queue that this task writes. -/
def follow (s : State) : ℕ → Option ℕ → List ℕ
  | 0, _ => []
  | _ + 1, none => []
  | n + 1, some q =>
    match s.pipe.effectTasks.find? fun t => (s.heap.task t).inputQueue = some q with
    | none => []
    | some t => t :: follow s n (s.heap.task t).outputQueue

/-- The wiring as its users see it. -/
structure WellWired (s : State) : Prop where
  first_input : ∀ t, s.pipe.effectTasks.head? = some t →
    (s.heap.task t).inputQueue = some s.pipe.unprocessedFrameQueue
  last_output : ∀ t, s.pipe.effectTasks.getLast? = some t →
    (s.heap.task t).outputQueue = some s.pipe.processedFrameQueue
  link : ∀ i t t', s.pipe.effectTasks[i]? = some t → s.pipe.effectTasks[i + 1]? = some t' →
    (s.heap.task t).outputQueue = (s.heap.task t').inputQueue
  inner_not_end : ∀ i t, i + 1 < s.pipe.effectTasks.length → s.pipe.effectTasks[i]? = some t →
    ∃ q, (s.heap.task t).outputQueue = some q ∧
      q ≠ s.pipe.unprocessedFrameQueue ∧ q ≠ s.pipe.processedFrameQueue
  inner_distinct : ∀ i j t t', i < j → j + 1 < s.pipe.effectTasks.length →
    s.pipe.effectTasks[i]? = some t → s.pipe.effectTasks[j]? = some t' →
    (s.heap.task t).outputQueue ≠ (s.heap.task t').outputQueue
  visited : follow s (s.pipe.effectTasks.length + 1) (some s.pipe.unprocessedFrameQueue) =
    s.pipe.effectTasks

theorem Path.get_inj {task : ℕ → EffectTask} {bound uq pq : ℕ} {qs ts : List ℕ}
    (h : Path task bound uq pq qs ts) {i j : ℕ} (hi : i < qs.length)
    (he : qs[i]? = qs[j]?) : i = j :=
  (List.getElem?_inj hi h.nodup).mp he

theorem Path.follow_eq {s : State} {bound uq pq : ℕ} {qs : List ℕ}
    (h : Path s.heap.task bound uq pq qs s.pipe.effectTasks) (n i : ℕ)
    (hn : s.pipe.effectTasks.length < n + i) :
    follow s n qs[i]? = s.pipe.effectTasks.drop i := by
  obtain ⟨hlen, hget⟩ := linked_get h.linked
  induction n generalizing i with
  | zero => rw [List.drop_eq_nil_of_le (by omega)]; rfl
  | succ n ih =>
    rcases lt_or_ge i qs.length with hi | hi
    swap
    · rw [List.getElem?_eq_none hi, List.drop_eq_nil_of_le (by omega)]
      rfl
    rw [List.getElem?_eq_getElem hi, follow]
    -- whoever reads queue `i` of the path is task `i`
    have hreader : ∀ j t, s.pipe.effectTasks[j]? = some t →
        (s.heap.task t).inputQueue = some qs[i] → i = j := by
      intro j t hj ht
      refine h.get_inj hi ?_
      rw [← (hget j t hj).1, ht, List.getElem?_eq_getElem hi]
    split
    · next hnone =>
      rw [List.find?_eq_none] at hnone
      rcases lt_or_ge i s.pipe.effectTasks.length with hlt | hge
      · have hi' := List.getElem?_eq_getElem hlt
        have hin := (hget i _ hi').1
        rw [List.getElem?_eq_getElem hi] at hin
        exact absurd hin (by simpa using hnone _ (List.getElem_mem hlt))
      · rw [List.drop_eq_nil_of_le hge]
    · next t hsome =>
      obtain ⟨j, hj⟩ := List.mem_iff_getElem?.mp (List.mem_of_find?_eq_some hsome)
      have ht : (s.heap.task t).inputQueue = some qs[i] := by
        simpa using List.find?_some hsome
      obtain rfl := hreader j t hj ht
      rw [(hget i t hj).2, ih (i + 1) (by omega)]
      obtain ⟨hlt, rfl⟩ := List.getElem?_eq_some_iff.mp hj
      exact (List.drop_eq_getElem_cons hlt).symm

theorem wiring_wellWired {s : State} (h : Wiring s) (hne : s.pipe.effectTasks ≠ []) :
    WellWired s := by
  obtain ⟨qs, hp⟩ := h.path.resolve_left hne
  obtain ⟨hlen, hget⟩ := linked_get hp.linked
  have hhead : qs[0]? = some s.pipe.unprocessedFrameQueue := by
    rw [← List.head?_eq_getElem?]
    exact hp.head
  have hlast : qs[s.pipe.effectTasks.length]? = some s.pipe.processedFrameQueue := by
    rw [← hp.last, List.getLast?_eq_getElem?]
    congr 1
    omega
  constructor
  · intro t ht
    rw [List.head?_eq_getElem?] at ht
    rw [(hget 0 t ht).1, hhead]
  · intro t ht
    rw [List.getLast?_eq_getElem?] at ht
    have hpos := List.length_pos_of_ne_nil hne
    rw [(hget _ t ht).2, ← hlast]
    congr 1
    omega
  · intro i t t' ht ht'
    rw [(hget i t ht).2, (hget (i + 1) t' ht').1]
  · intro i t hi ht
    have hlt : i + 1 < qs.length := by omega
    refine ⟨qs[i + 1], by rw [(hget i t ht).2, List.getElem?_eq_getElem hlt], ?_, ?_⟩
    · intro he
      have := hp.get_inj hlt (j := 0) (by rw [hhead, List.getElem?_eq_getElem hlt, he])
      omega
    · intro he
      have := hp.get_inj hlt (j := s.pipe.effectTasks.length)
        (by rw [hlast, List.getElem?_eq_getElem hlt, he])
      omega
  · intro i j t t' hij hj ht ht' he
    rw [(hget i t ht).2, (hget j t' ht').2] at he
    have := hp.get_inj (by omega) he
    omega
  · rw [← hhead]
    simpa using hp.follow_eq (s.pipe.effectTasks.length + 1) 0 (by omega)

/-- Whatever sequence of operations the pipeline has gone through, its queue links visit
exactly its tasks, in list order. -/
theorem pipeline_wiring_invariant {h : Heap} {uq pq : ℕ} {effects : List ℕ} {ops : List Op}
    {s : State} (hr : Reachable h uq pq effects ops s) (hne : s.pipe.effectTasks ≠ []) :
    WellWired s :=
  wiring_wellWired (reachable_wiring hr) hne

theorem pipeline_wiring_moved :
    WellWired (step (step (built sampleHeap 0 1 [0]) (.addEffectAt 0 1)) (.moveEffect 0 1)) :=
  pipeline_wiring_invariant
    ⟨sample_arguments, .snoc (.snoc .nil (by decide)) (by decide)⟩ (by decide)

end PipelineWiring
