import VideoEditorOffloading.PipelineWiring
import VideoEditorOffloading.TransitionSystems

/-! # A FrameProcessor with several pipelines

The pipelines of a `FrameProcessor` read and write the same two queues, and a copy of a pipeline
works with the task objects of the original. -/
namespace PipelineCopies

open SharedStatePrograms PipelineObjects PipelineOperations PipelineOperationSpecs PipelineRuns
  PipelineWiring TransitionSystems

/-- The pipelines stand in the order in which the HashSet yields them. -/
structure FrameProcessor where
  unprocessedFrameQueue : ℕ
  processedFrameQueue : ℕ
  heap : Heap
  pipelines : List Pipeline

def forEach (code : Code Unit) : Heap → List Pipeline → Heap × List Pipeline
  | h, [] => (h, [])
  | h, p :: ps =>
    match call code ⟨h, p⟩ with
    | (.ok (), s) => ((forEach code s.heap ps).1, s.pipe :: (forEach code s.heap ps).2)
    | (.error _, s) => (s.heap, s.pipe :: ps)

namespace FrameProcessor

def each (x : FrameProcessor) (code : Code Unit) : FrameProcessor :=
  { x with
    heap := (forEach code x.heap x.pipelines).1
    pipelines := (forEach code x.heap x.pipelines).2 }

def addEffect (x : FrameProcessor) (effect : ℕ) : FrameProcessor :=
  x.each (PipelineOperations.addEffect effect)

def clearEffects (x : FrameProcessor) : FrameProcessor := x.each PipelineOperations.clearEffects

def start (x : FrameProcessor) : FrameProcessor := x.each PipelineOperations.start

def stop (x : FrameProcessor) : FrameProcessor := x.each PipelineOperations.stop

/-- The private `addPipeline()`, with the copy constructor of `Pipeline`. The set may yield its
elements in any order afterwards. -/
def addPipeline (x : FrameProcessor) (order : List ℕ) : Option FrameProcessor :=
  match x.pipelines with
  | [] => some x
  | pipeline :: _ =>
    let s := built x.heap pipeline.unprocessedFrameQueue pipeline.processedFrameQueue
      pipeline.effectTasks
    if order.Perm (List.range (x.pipelines.length + 1)) then
      some { x with
        heap := s.heap
        pipelines := order.filterMap fun i => (x.pipelines ++ [s.pipe])[i]? }
    else none

end FrameProcessor

inductive Event where
  | newTask (effect : Effect)
  | addPipeline (order : List ℕ)
  | addEffect (effect : ℕ)
  | clearEffects
  | start
  | stop
  deriving DecidableEq, Repr

def next (x : FrameProcessor) : Event → Option FrameProcessor
  | .newTask e => some { x with heap := x.heap.newTask e }
  | .addPipeline order => x.addPipeline order
  | .addEffect effect => some (x.addEffect effect)
  | .clearEffects => some x.clearEffects
  | .start => some x.start
  | .stop => some x.stop

/-- An added task is new to all pipelines. -/
def Valid (x : FrameProcessor) : Event → Prop
  | .addEffect effect => effect < x.heap.nextTask ∧ ∀ p ∈ x.pipelines, effect ∉ p.effectTasks
  | _ => True

/-- Effects are only added while all pipelines have the same tasks. -/
def Careful (x : FrameProcessor) : Event → Prop
  | .addEffect _ => ∀ p ∈ x.pipelines, ∀ p' ∈ x.pipelines, p.effectTasks = p'.effectTasks
  | _ => True

instance (x : FrameProcessor) (e : Event) : Decidable (Valid x e) := by
  cases e <;> unfold Valid <;> infer_instance

instance (x : FrameProcessor) (e : Event) : Decidable (Careful x e) := by
  cases e <;> unfold Careful <;> infer_instance

def newFrameProcessor (h : Heap) (uq pq : ℕ) (effects : List ℕ) : FrameProcessor :=
  ⟨uq, pq, (built h uq pq effects).heap, [(built h uq pq effects).pipe]⟩

/-- The first task reads the unprocessed frames, the last one writes the processed frames, and
each task writes the queue that the next one reads. -/
structure Wired (task : ℕ → EffectTask) (uq pq : ℕ) (ts : List ℕ) : Prop where
  first_input : ∀ t, ts.head? = some t → (task t).inputQueue = some uq
  last_output : ∀ t, ts.getLast? = some t → (task t).outputQueue = some pq
  link : ts.IsChain fun t t' => (task t).outputQueue = (task t').inputQueue

def AllWired (x : FrameProcessor) : Prop :=
  ∀ p ∈ x.pipelines,
    Wired x.heap.task x.unprocessedFrameQueue x.processedFrameQueue p.effectTasks

theorem linked_chain {task : ℕ → EffectTask} {qs ts : List ℕ} (hl : Linked task qs ts) :
    ts.IsChain fun t t' => (task t).outputQueue = (task t').inputQueue := by
  fun_induction Linked task qs ts with
  | case1 q => exact List.IsChain.nil
  | case2 q q' qs t ts ih =>
    obtain ⟨-, ho, hr⟩ := hl
    have hrest := ih hr
    cases ts with
    | nil => exact List.IsChain.singleton t
    | cons t' ts =>
      obtain ⟨p, p', rs, ⟨⟩, hi, -, -⟩ := linked_cons.mp hr
      exact List.IsChain.cons_cons (ho.trans hi.symm) hrest
  | case3 => exact hl.elim

theorem wired_of_path {task : ℕ → EffectTask} {bound uq pq : ℕ} {qs ts : List ℕ}
    (hp : Path task bound uq pq qs ts) : Wired task uq pq ts := by
  obtain ⟨hlen, hget⟩ := linked_get hp.linked
  have hhead := hp.head
  have hlast := hp.last
  rw [List.head?_eq_getElem?] at hhead
  rw [List.getLast?_eq_getElem?] at hlast
  constructor
  · intro t ht
    rw [List.head?_eq_getElem?] at ht
    rw [(hget 0 t ht).1, hhead]
  · intro t ht
    rw [List.getLast?_eq_getElem?] at ht
    obtain ⟨hlt, -⟩ := List.getElem?_eq_some_iff.mp ht
    rw [(hget _ t ht).2, ← hlast]
    congr 1
    omega
  · exact linked_chain hp.linked

/-- Wired but for the output of the last task. -/
structure Chained (task : ℕ → EffectTask) (uq : ℕ) (ts : List ℕ) : Prop where
  first_input : ∀ t, ts.head? = some t → (task t).inputQueue = some uq
  link : ts.IsChain fun t t' => (task t).outputQueue = (task t').inputQueue

theorem Wired.chained {task : ℕ → EffectTask} {uq pq : ℕ} {ts : List ℕ}
    (h : Wired task uq pq ts) : Chained task uq ts := ⟨h.first_input, h.link⟩

/-- What `addEffect` does to the links around the end of a list of tasks, with the new queue. -/
structure Reattached (task task' : ℕ → EffectTask) (uq pq : ℕ) (ts : List ℕ) (t queue : ℕ) :
    Prop where
  inputs : ∀ x, x ≠ t → (task' x).inputQueue = (task x).inputQueue
  outputs : ∀ x, x ≠ t → ts.getLast? ≠ some x → (task' x).outputQueue = (task x).outputQueue
  output : (task' t).outputQueue = some pq
  first : ts = [] → (task' t).inputQueue = some uq
  last : ∀ a, ts.getLast? = some a →
    (task' a).outputQueue = some queue ∧ (task' t).inputQueue = some queue

section Appending

variable {task task' : ℕ → EffectTask} {uq pq t queue : ℕ} {ts : List ℕ}

theorem Chained.reattached (hc : Chained task uq ts) (hd : ts.Nodup) (ht : t ∉ ts)
    (hr : Reattached task task' uq pq ts t queue) : Chained task' uq ts := by
  have hne : ∀ x ∈ ts, x ≠ t := by
    rintro x hx rfl
    exact ht hx
  constructor
  · intro x hx
    rw [hr.inputs x (hne x (List.mem_of_head? hx))]
    exact hc.first_input x hx
  · have hlink := hc.link
    rw [List.isChain_iff_getElem] at hlink ⊢
    intro i hi
    have hlast : ts.getLast? ≠ some ts[i] := by
      intro hl
      rw [List.getLast?_eq_getElem?, List.getElem?_eq_some_iff] at hl
      obtain ⟨hlt, he⟩ := hl
      have := hd.getElem_inj_iff.mp he
      omega
    rw [hr.inputs _ (hne _ (List.getElem_mem _)), hr.outputs _ (hne _ (List.getElem_mem _)) hlast]
    exact hlink i hi

theorem Chained.append (hc : Chained task' uq ts) (hr : Reattached task task' uq pq ts t queue) :
    Wired task' uq pq (ts ++ [t]) := by
  constructor
  · intro x hx
    cases ts with
    | nil =>
      obtain rfl : t = x := by simpa using hx
      exact hr.first rfl
    | cons a ts => exact hc.first_input x (by simpa using hx)
  · intro x hx
    obtain rfl : t = x := by simpa using hx
    exact hr.output
  · apply List.isChain_append.mpr
    refine ⟨hc.link, List.isChain_singleton t, ?_⟩
    intro a ha x hx
    obtain rfl : t = x := by simpa using hx
    rw [(hr.last a ha).1, (hr.last a ha).2]

end Appending

structure Member (uq pq : ℕ) (h : Heap) (p : Pipeline) : Prop where
  input : p.unprocessedFrameQueue = uq
  output : p.processedFrameQueue = pq
  length : p.effectThreads.length = p.effectTasks.length
  distinct : p.effectTasks.Nodup
  allocated : ∀ t ∈ p.effectTasks, t < h.nextTask

theorem Member.restarted {uq pq : ℕ} {m : State} (h : Member uq pq m.heap m.pipe) :
    Member uq pq (restarted m).heap (restarted m).pipe := by
  obtain ⟨h1, h2, h3, h4, h5⟩ := h
  rw [restarted_pipe]
  refine ⟨h1, h2, h3, h4, fun t ht => ?_⟩
  rw [(restarted_heap m).2.1]
  exact h5 t ht

theorem Member.mono {uq pq : ℕ} {h h' : Heap} {p : Pipeline} (hm : Member uq pq h p)
    (hle : h.nextTask ≤ h'.nextTask) : Member uq pq h' p :=
  ⟨hm.input, hm.output, hm.length, hm.distinct, fun t ht => (hm.allocated t ht).trans_le hle⟩

section Calls

variable {uq pq t : ℕ} {h : Heap} {p : Pipeline}

theorem addEffect_reattached (hm : Member uq pq h p) (ht : t < h.nextTask)
    (hn : t ∉ p.effectTasks) :
    ∃ s, call (addEffect t) ⟨h, p⟩ = (.ok (), s) ∧ Member uq pq s.heap s.pipe ∧
      s.pipe.effectTasks = p.effectTasks ++ [t] ∧ s.heap.nextTask = h.nextTask ∧
      h.nextQueue ≤ s.heap.nextQueue ∧
      (p.effectTasks ≠ [] → h.nextQueue < s.heap.nextQueue) ∧
      Reattached h.task s.heap.task uq pq p.effectTasks t h.nextQueue := by
  obtain ⟨rfl, rfl, hlen, hd, hb⟩ := hm
  obtain ⟨uq, pq, r, ths, ts⟩ := p
  simp only at hlen hd hb hn
  rcases eq_or_ne ts [] with rfl | hne
  · obtain rfl : ths = [] := by simpa using hlen
    refine ⟨_, call_addEffect_empty h uq pq r t, .restarted ⟨rfl, rfl, rfl, by simp, ?_⟩,
      ?_, ?_, ?_, fun hne => absurd rfl hne, ?_⟩
    · simpa using ht
    · rw [restarted_pipe, List.nil_append]
    · rw [(restarted_heap _).2.1]
      rfl
    · rw [(restarted_heap _).2.2.2]
      exact le_rfl
    · rw [(restarted_heap _).1]
      constructor
      all_goals simp only [Heap.newThread_task, setInput_inputQueue, setInput_outputQueue,
        setOutput_inputQueue, setOutput_outputQueue]
      · intro x hx
        rw [if_neg hx]
      · intro x hx _
        rw [if_neg hx]
      · rw [if_true]
      · simp
      · simp
  · obtain ⟨xs, a, rfl⟩ := split_last hne
    obtain ⟨us, u, rfl⟩ := split_last (l := ths) (by rintro rfl; simp at hlen)
    simp only [List.mem_append, List.mem_singleton, not_or] at hn
    refine ⟨_, call_addEffect_last h uq pq r xs us a u t, .restarted ⟨rfl, rfl, ?_, ?_, ?_⟩,
      ?_, ?_, ?_, fun _ => ?_, ?_⟩
    · simpa using hlen
    · have hnodup := hd.concat (by simpa using hn)
      simpa using hnodup
    · intro x hx
      have hmem : x ∈ xs ++ [a] ∨ x = t := by simpa [or_assoc] using hx
      rcases hmem with hx | rfl
      · exact hb x hx
      · exact ht
    · rw [restarted_pipe]
      simp
    · rw [(restarted_heap _).2.1]
      rfl
    · rw [(restarted_heap _).2.2.2]
      exact Nat.le_succ _
    · rw [(restarted_heap _).2.2.2]
      exact Nat.lt_succ_self _
    · rw [(restarted_heap _).1]
      constructor
      all_goals simp only [Heap.newThread_task, Heap.newQueue_task, Heap.interrupt_task,
        setInput_inputQueue, setInput_outputQueue, setOutput_inputQueue, setOutput_outputQueue]
      · intro x hx
        rw [if_neg hx]
      · intro x hx hlast
        have hxa : x ≠ a := by
          rintro rfl
          simp at hlast
        rw [if_neg hxa, if_neg hx]
      · rw [if_neg hn.2, if_true]
      · simp
      · intro b hb
        obtain rfl : a = b := by simpa using hb
        exact ⟨if_pos rfl, if_true _ _⟩

theorem clearEffects_single (hm : Member uq pq h p) :
    ∃ s, call clearEffects ⟨h, p⟩ = (.ok (), s) ∧ Member uq pq s.heap s.pipe ∧
      s.pipe.effectTasks = [h.nextTask] ∧ s.heap.nextTask = h.nextTask + 1 ∧
      h.nextQueue ≤ s.heap.nextQueue ∧
      (s.heap.task h.nextTask).inputQueue = some uq ∧
      (s.heap.task h.nextTask).outputQueue = some pq ∧
      ∀ x, x ≠ h.nextTask → s.heap.task x = h.task x := by
  obtain ⟨rfl, rfl, hlen, hd, hb⟩ := hm
  obtain ⟨uq, pq, r, ths, ts⟩ := p
  refine ⟨_, call_clearEffects h uq pq r ths ts, .restarted ⟨rfl, rfl, rfl, by simp, by simp⟩,
    ?_, ?_, ?_, ?_, ?_, ?_⟩
  · rw [restarted_pipe]
  · rw [(restarted_heap _).2.1]
    rfl
  · rw [(restarted_heap _).2.2.2]
    exact le_rfl
  · rw [(restarted_heap _).1]
    simp
  · rw [(restarted_heap _).1]
    simp
  · intro x hx
    rw [(restarted_heap _).1]
    simp [hx]

/-- A method that leaves the list of tasks and all links as they are. -/
def Passive (code : Code Unit) : Prop :=
  ∀ h p, ∃ h' r, call code ⟨h, p⟩ = (.ok (), ⟨h', { p with running := r }⟩) ∧
    h'.task = h.task ∧ h'.nextTask = h.nextTask ∧ h'.nextQueue = h.nextQueue

theorem start_passive : Passive start := by
  intro h p
  exact ⟨_, _, call_start h p, rfl, rfl, rfl⟩

theorem stop_passive : Passive stop := by
  intro h p
  exact ⟨_, _, call_stop h p, rfl, rfl, rfl⟩

end Calls

section Loops

variable {uq pq t : ℕ} {ts : List ℕ} {code : Code Unit}

theorem forEach_cons {h : Heap} {p : Pipeline} {ps : List Pipeline} {s : State}
    (hs : call code ⟨h, p⟩ = (.ok (), s)) :
    forEach code h (p :: ps) =
      ((forEach code s.heap ps).1, s.pipe :: (forEach code s.heap ps).2) := by
  rw [forEach, hs]

/-- With the same tasks in all pipelines, every round attaches the new task to the same last one,
and the last round decides on the queue. -/
theorem forEach_addEffect (ps : List Pipeline) (h : Heap)
    (hm : ∀ p ∈ ps, Member uq pq h p ∧ p.effectTasks = ts) (ht : t < h.nextTask) (hn : t ∉ ts)
    (hc : Chained h.task uq ts) :
    (∀ p ∈ (forEach (addEffect t) h ps).2,
      Member uq pq (forEach (addEffect t) h ps).1 p ∧ p.effectTasks = ts ++ [t]) ∧
    (ps ≠ [] → Wired (forEach (addEffect t) h ps).1.task uq pq (ts ++ [t])) ∧
    (forEach (addEffect t) h ps).1.nextTask = h.nextTask ∧
    h.nextQueue ≤ (forEach (addEffect t) h ps).1.nextQueue := by
  induction ps generalizing h with
  | nil => exact ⟨by simp [forEach], fun hne => absurd rfl hne, rfl, le_rfl⟩
  | cons p ps ih =>
    obtain ⟨hp, rfl⟩ := hm p List.mem_cons_self
    obtain ⟨s, hcall, hmember, htasks, hnext, hqueue, -, hr⟩ := addEffect_reattached hp ht hn
    have hc' := hc.reattached hp.distinct hn hr
    obtain ⟨hall, hwired, hnext', hqueue'⟩ := ih s.heap
      (fun p' hp' => ⟨(hm p' (List.mem_cons_of_mem _ hp')).1.mono hnext.ge,
        (hm p' (List.mem_cons_of_mem _ hp')).2⟩) (hnext ▸ ht) hc'
    rw [forEach_cons hcall]
    refine ⟨?_, ?_, hnext'.trans hnext, hqueue.trans hqueue'⟩
    · intro p' hp'
      rcases List.mem_cons.mp hp' with rfl | hp'
      · exact ⟨hmember.mono hnext'.ge, htasks⟩
      · exact hall p' hp'
    · intro _
      rcases eq_or_ne ps [] with rfl | hne
      · exact hc'.append hr
      · exact hwired hne

def Single (uq pq : ℕ) (h : Heap) (p : Pipeline) : Prop :=
  ∃ t, p.effectTasks = [t] ∧ (h.task t).inputQueue = some uq ∧ (h.task t).outputQueue = some pq

/-- With a task of its own in each pipeline, the new task reads the queue of the last round, which
no task outside the last pipeline writes. -/
theorem forEach_addEffect_single (ps : List Pipeline) (h : Heap)
    (hm : ∀ p ∈ ps, Member uq pq h p ∧ ∃ a, p.effectTasks = [a] ∧ a ≠ t) (ht : t < h.nextTask)
    (hne : ps ≠ []) :
    (∀ p ∈ ps, ∃ p' ∈ (forEach (addEffect t) h ps).2, p'.effectTasks = p.effectTasks ++ [t]) ∧
    ∃ p₀ ∈ ps, ∃ a q, p₀.effectTasks = [a] ∧
      ((forEach (addEffect t) h ps).1.task t).inputQueue = some q ∧
      ∀ b, b ≠ a → b ≠ t → (∃ q₀ < h.nextQueue, (h.task b).outputQueue = some q₀) →
        ((forEach (addEffect t) h ps).1.task b).outputQueue ≠ some q := by
  induction ps generalizing h with
  | nil => exact absurd rfl hne
  | cons p ps ih =>
    obtain ⟨hp, a, ha, hat⟩ := hm p List.mem_cons_self
    obtain ⟨s, hcall, -, htasks, hnext, -, hqueue, hr⟩ :=
      addEffect_reattached hp ht (by simp [ha, Ne.symm hat])
    obtain ⟨hout, hin⟩ := hr.last a (by simp [ha])
    have hkeep : ∀ b, b ≠ a → b ≠ t →
        (s.heap.task b).outputQueue = (h.task b).outputQueue := by
      intro b hba hbt
      apply hr.outputs b hbt
      simpa [ha] using Ne.symm hba
    have hlt : h.nextQueue < s.heap.nextQueue := hqueue (by simp [ha])
    rw [forEach_cons hcall]
    rcases eq_or_ne ps [] with rfl | hps
    · constructor
      · intro p' hp'
        obtain rfl := List.mem_singleton.mp hp'
        exact ⟨s.pipe, List.mem_cons_self, htasks⟩
      · refine ⟨p, List.mem_cons_self, a, h.nextQueue, ha, hin, ?_⟩
        rintro b hba hbt ⟨q₀, hq₀, hb⟩ he
        have hb' : (s.heap.task b).outputQueue = some h.nextQueue := he
        rw [hkeep b hba hbt, hb] at hb'
        exact absurd (Option.some_inj.mp hb') hq₀.ne
    · obtain ⟨hall, p₀, hp₀, c, q, hc, hin', hfresh⟩ := ih s.heap (fun p' hp' =>
        ⟨(hm p' (List.mem_cons_of_mem _ hp')).1.mono hnext.ge,
          (hm p' (List.mem_cons_of_mem _ hp')).2⟩) (hnext ▸ ht) hps
      constructor
      · intro p' hp'
        rcases List.mem_cons.mp hp' with rfl | hp'
        · exact ⟨s.pipe, List.mem_cons_self, htasks⟩
        · obtain ⟨p'', hp'', he⟩ := hall p' hp'
          exact ⟨p'', List.mem_cons_of_mem _ hp'', he⟩
      · refine ⟨p₀, List.mem_cons_of_mem _ hp₀, c, q, hc, hin', ?_⟩
        rintro b hbc hbt ⟨q₀, hq₀, hb⟩
        apply hfresh b hbc hbt
        rcases eq_or_ne b a with rfl | hba
        · exact ⟨h.nextQueue, hlt, hout⟩
        · exact ⟨q₀, hq₀.trans hlt, by rw [hkeep b hba hbt, hb]⟩

theorem forEach_clearEffects (ps : List Pipeline) (h : Heap) (hm : ∀ p ∈ ps, Member uq pq h p) :
    (∀ p ∈ (forEach clearEffects h ps).2, Member uq pq (forEach clearEffects h ps).1 p ∧
      Single uq pq (forEach clearEffects h ps).1 p) ∧
    (∀ x < h.nextTask, (forEach clearEffects h ps).1.task x = h.task x) ∧
    h.nextTask ≤ (forEach clearEffects h ps).1.nextTask ∧
    h.nextQueue ≤ (forEach clearEffects h ps).1.nextQueue := by
  induction ps generalizing h with
  | nil => exact ⟨by simp [forEach], fun _ _ => rfl, le_rfl, le_rfl⟩
  | cons p ps ih =>
    obtain ⟨s, hcall, hmember, htasks, hnext, hqueue, hin, hout, hframe⟩ :=
      clearEffects_single (hm p List.mem_cons_self)
    obtain ⟨hall, hframe', hle, hqueue'⟩ := ih s.heap fun p' hp' =>
      (hm p' (List.mem_cons_of_mem _ hp')).mono (by omega)
    rw [forEach_cons hcall]
    refine ⟨?_, ?_, by simp only; omega, hqueue.trans hqueue'⟩
    · intro p' hp'
      rcases List.mem_cons.mp hp' with rfl | hp'
      · refine ⟨hmember.mono hle, h.nextTask, htasks, ?_, ?_⟩
        · rw [hframe' _ (by omega), hin]
        · rw [hframe' _ (by omega), hout]
      · exact hall p' hp'
    · intro x hx
      rw [hframe' x (by omega), hframe x hx.ne]

theorem forEach_passive (hcode : Passive code) (ps : List Pipeline) (h : Heap) :
    (∀ p ∈ (forEach code h ps).2, ∃ p' ∈ ps, ∃ r, p = { p' with running := r }) ∧
    (forEach code h ps).1.task = h.task ∧ (forEach code h ps).1.nextTask = h.nextTask ∧
    (forEach code h ps).1.nextQueue = h.nextQueue := by
  induction ps generalizing h with
  | nil => exact ⟨by simp [forEach], rfl, rfl, rfl⟩
  | cons p ps ih =>
    obtain ⟨h', r, hcall, htask, hnext, hqueue⟩ := hcode h p
    obtain ⟨hall, htask', hnext', hqueue'⟩ := ih h'
    rw [forEach_cons hcall]
    refine ⟨?_, htask'.trans htask, hnext'.trans hnext, hqueue'.trans hqueue⟩
    intro q hq
    rcases List.mem_cons.mp hq with rfl | hq
    · exact ⟨p, List.mem_cons_self, r, rfl⟩
    · obtain ⟨p', hp', hr⟩ := hall q hq
      exact ⟨p', List.mem_cons_of_mem _ hp', hr⟩

end Loops

/-- All pipelines have the same tasks, or each has a task of its own after `clearEffects`. -/
structure Invariant (x : FrameProcessor) : Prop where
  ends : x.unprocessedFrameQueue ≠ x.processedFrameQueue
  unprocessed_allocated : x.unprocessedFrameQueue < x.heap.nextQueue
  processed_allocated : x.processedFrameQueue < x.heap.nextQueue
  members : ∀ p ∈ x.pipelines, Member x.unprocessedFrameQueue x.processedFrameQueue x.heap p
  tasks : (∃ ts, (∀ p ∈ x.pipelines, p.effectTasks = ts) ∧
      Wired x.heap.task x.unprocessedFrameQueue x.processedFrameQueue ts) ∨
    ∀ p ∈ x.pipelines, Single x.unprocessedFrameQueue x.processedFrameQueue x.heap p

section Invariants

variable {x x' : FrameProcessor} {e : Event}

theorem Single.wired {uq pq : ℕ} {h : Heap} {p : Pipeline} (hp : Single uq pq h p) :
    Wired h.task uq pq p.effectTasks := by
  obtain ⟨t, ht, hin, hout⟩ := hp
  rw [ht]
  constructor
  · intro y hy
    obtain rfl : t = y := by simpa using hy
    exact hin
  · intro y hy
    obtain rfl : t = y := by simpa using hy
    exact hout
  · exact List.isChain_singleton t

theorem Invariant.wired (hx : Invariant x) : AllWired x := by
  intro p hp
  rcases hx.tasks with ⟨ts, hts, hw⟩ | hsingle
  · rw [hts p hp]
    exact hw
  · exact (hsingle p hp).wired

theorem invariant_addEffect (hx : Invariant x) {t : ℕ} (hv : Valid x (.addEffect t))
    (hc : Careful x (.addEffect t)) : Invariant (x.addEffect t) := by
  obtain ⟨ht, hn⟩ := hv
  have hwired := hx.wired
  obtain ⟨hne, hu, hp, hm, -⟩ := hx
  rcases eq_or_ne x.pipelines [] with hnil | hsome
  · have hsame : x.addEffect t = x := by
      rw [FrameProcessor.addEffect, FrameProcessor.each, hnil, forEach, ← hnil]
    rw [hsame]
    exact ⟨hne, hu, hp, hm, Or.inr (by simp [hnil])⟩
  obtain ⟨p₀, ps, hps⟩ := List.exists_cons_of_ne_nil hsome
  have hp₀ : p₀ ∈ x.pipelines := by simp [hps]
  obtain ⟨hall, hw, hnext, hqueue⟩ := forEach_addEffect x.pipelines x.heap
    (fun p hp => ⟨hm p hp, hc p hp p₀ hp₀⟩) ht (hn p₀ hp₀) (hwired p₀ hp₀).chained
  exact ⟨hne, hu.trans_le hqueue, hp.trans_le hqueue, fun p hp => (hall p hp).1,
    Or.inl ⟨_, fun p hp => (hall p hp).2, hw hsome⟩⟩

theorem invariant_clearEffects (hx : Invariant x) : Invariant x.clearEffects := by
  obtain ⟨hne, hu, hp, hm, -⟩ := hx
  obtain ⟨hall, -, -, hqueue⟩ := forEach_clearEffects x.pipelines x.heap hm
  exact ⟨hne, hu.trans_le hqueue, hp.trans_le hqueue, fun p hp => (hall p hp).1,
    Or.inr fun p hp => (hall p hp).2⟩

theorem invariant_passive (hx : Invariant x) {code : Code Unit} (hcode : Passive code) :
    Invariant (x.each code) := by
  obtain ⟨hne, hu, hp, hm, htasks⟩ := hx
  obtain ⟨hall, htask, hnext, hqueue⟩ := forEach_passive hcode x.pipelines x.heap
  refine ⟨hne, by rwa [FrameProcessor.each, hqueue], by rwa [FrameProcessor.each, hqueue], ?_, ?_⟩
  · intro p hq
    obtain ⟨p', hp', r, rfl⟩ := hall p hq
    obtain ⟨h1, h2, h3, h4, h5⟩ := (hm p' hp').mono hnext.ge
    exact ⟨h1, h2, h3, h4, h5⟩
  · rcases htasks with ⟨ts, hts, hw⟩ | hsingle
    · refine Or.inl ⟨ts, fun p hq => ?_, by rwa [FrameProcessor.each, htask]⟩
      obtain ⟨p', hp', r, rfl⟩ := hall p hq
      exact hts p' hp'
    · refine Or.inr fun p hq => ?_
      obtain ⟨p', hp', r, rfl⟩ := hall p hq
      obtain ⟨t, ht, hin, hout⟩ := hsingle p' hp'
      exact ⟨t, ht, by rwa [FrameProcessor.each, htask], by rwa [FrameProcessor.each, htask]⟩

theorem built_member {uq pq : ℕ} {h : Heap} {effects : List ℕ} (hne : uq ≠ pq)
    (hu : uq < h.nextQueue) (hp : pq < h.nextQueue) (hd : effects.Nodup)
    (hb : ∀ t ∈ effects, t < h.nextTask) :
    Member uq pq (built h uq pq effects).heap (built h uq pq effects).pipe ∧
      (built h uq pq effects).pipe.effectTasks = effects ∧
      (built h uq pq effects).heap.nextTask = h.nextTask ∧
      h.nextQueue ≤ (built h uq pq effects).heap.nextQueue ∧
      Wired (built h uq pq effects).heap.task uq pq effects := by
  rcases eq_or_ne effects [] with rfl | hsome
  · rw [built_nil]
    refine ⟨⟨rfl, rfl, rfl, List.nodup_nil, by simp [blank]⟩, rfl, rfl, le_rfl, ?_⟩
    constructor
    · simp
    · simp
    · exact List.IsChain.nil
  · obtain ⟨-, -, htask⟩ := wire_frame pq uq effects h
    obtain ⟨hle, qs, hpath, -⟩ := wire_path hsome hd hne hu hp
    obtain ⟨hlinks, hnext, hqueue, -⟩ := spawn_fields (wire pq uq effects h) effects
    rw [built_cons h uq pq hsome]
    refine ⟨⟨rfl, rfl, by simp, hd, ?_⟩, rfl, hnext.trans htask, ?_, ?_⟩
    · intro t ht
      rw [hnext, htask]
      exact hb t ht
    · rw [hqueue]
      exact hle
    · rw [hlinks]
      exact wired_of_path hpath

theorem copy_single {uq pq : ℕ} {h : Heap} {p : Pipeline} (hp : Single uq pq h p) :
    (built h uq pq p.effectTasks).heap.task = h.task := by
  obtain ⟨t, ht, hin, hout⟩ := hp
  rw [ht, built_cons h uq pq (List.cons_ne_nil t []), (spawn_fields _ _).1]
  have hi : h.setInput t (some uq) = h := by
    simp [Heap.setInput, ← hin]
  have ho : h.setOutput t (some pq) = h := by
    simp [Heap.setOutput, ← hout]
  rw [wire, hi, ho]

theorem invariant_addPipeline (hx : Invariant x) {order : List ℕ}
    (hnext : x.addPipeline order = some x') : Invariant x' := by
  unfold FrameProcessor.addPipeline at hnext
  split at hnext
  · cases hnext
    exact hx
  · next p₀ ps hps =>
    have hp₀ : p₀ ∈ x.pipelines := by simp [hps]
    obtain ⟨hne, hu, hp, hm, htasks⟩ := hx
    have hm₀ := hm p₀ hp₀
    rw [hm₀.input, hm₀.output] at hnext
    obtain ⟨hmember, hsame, hnextTask, hqueue, hwired⟩ := 
      built_member hne hu hp hm₀.distinct hm₀.allocated
    obtain ⟨-, ⟨⟩⟩ := Option.ite_none_right_eq_some.mp hnext
    -- whatever the order, the elements are the old ones and the copy
    have hmem : ∀ p ∈ order.filterMap fun i => (x.pipelines ++ [(built x.heap
        x.unprocessedFrameQueue x.processedFrameQueue p₀.effectTasks).pipe])[i]?,
        p ∈ x.pipelines ∨ p = (built x.heap x.unprocessedFrameQueue x.processedFrameQueue
          p₀.effectTasks).pipe := by
      intro p hp
      obtain ⟨i, -, hi⟩ := List.mem_filterMap.mp hp
      rcases List.mem_append.mp (List.mem_of_getElem? hi) with hp | hp
      · exact Or.inl hp
      · exact Or.inr (List.mem_singleton.mp hp)
    refine ⟨hne, hu.trans_le hqueue, hp.trans_le hqueue, fun p hp => ?_, ?_⟩
    · rcases hmem p hp with hp | rfl
      · exact (hm p hp).mono hnextTask.ge
      · exact hmember
    · rcases htasks with ⟨ts, hts, -⟩ | hsingle
      · refine Or.inl ⟨p₀.effectTasks, fun p hp => ?_, hwired⟩
        rcases hmem p hp with hp | rfl
        · rw [hts p hp, hts p₀ hp₀]
        · exact hsame
      · have hlinks := copy_single (hsingle p₀ hp₀)
        refine Or.inr fun p hp => ?_
        have hold : ∃ p' ∈ x.pipelines, p.effectTasks = p'.effectTasks := by
          rcases hmem p hp with hp | rfl
          · exact ⟨p, hp, rfl⟩
          · exact ⟨p₀, hp₀, hsame⟩
        obtain ⟨p', hp', he⟩ := hold
        obtain ⟨t, ht, hin, hout⟩ := hsingle p' hp'
        exact ⟨t, he.trans ht, by rwa [hlinks], by rwa [hlinks]⟩

theorem invariant_newTask (hx : Invariant x) (e : Effect) :
    Invariant { x with heap := x.heap.newTask e } := by
  obtain ⟨hne, hu, hp, hm, htasks⟩ := hx
  have hold : ∀ p ∈ x.pipelines, ∀ t ∈ p.effectTasks,
      (x.heap.newTask e).task t = x.heap.task t := by
    intro p hp t ht
    have hlt := (hm p hp).allocated t ht
    simp [hlt.ne]
  refine ⟨hne, hu, hp, fun p hp => (hm p hp).mono (Nat.le_succ _), ?_⟩
  rcases htasks with ⟨ts, hts, hw⟩ | hsingle
  · rcases eq_or_ne x.pipelines [] with hnil | hsome
    · exact Or.inr (by simp [hnil])
    obtain ⟨p₀, ps, hps⟩ := List.exists_cons_of_ne_nil hsome
    have hp₀ : p₀ ∈ x.pipelines := by simp [hps]
    have hsame := hold p₀ hp₀
    rw [hts p₀ hp₀] at hsame
    refine Or.inl ⟨ts, hts, ?_⟩
    constructor
    · intro t ht
      rw [hsame t (List.mem_of_head? ht)]
      exact hw.first_input t ht
    · intro t ht
      rw [hsame t (List.mem_of_getLast? ht)]
      exact hw.last_output t ht
    · have hlink := hw.link
      rw [List.isChain_iff_getElem] at hlink ⊢
      intro i hi
      rw [hsame _ (List.getElem_mem _), hsame _ (List.getElem_mem _)]
      exact hlink i hi
  · refine Or.inr fun p hp => ?_
    obtain ⟨t, ht, hin, hout⟩ := hsingle p hp
    have hsame := hold p hp t (by simp [ht])
    exact ⟨t, ht, by rwa [hsame], by rwa [hsame]⟩

theorem invariant_next (hx : Invariant x) (hv : Valid x e) (hc : Careful x e)
    (hnext : next x e = some x') : Invariant x' := by
  cases e with
  | newTask effect =>
    cases hnext
    exact invariant_newTask hx effect
  | addPipeline order => exact invariant_addPipeline hx hnext
  | addEffect effect =>
    cases hnext
    exact invariant_addEffect hx hv hc
  | clearEffects =>
    cases hnext
    exact invariant_clearEffects hx
  | start =>
    cases hnext
    exact invariant_passive hx start_passive
  | stop =>
    cases hnext
    exact invariant_passive hx stop_passive

theorem new_invariant {h : Heap} {uq pq : ℕ} {effects : List ℕ}
    (ha : Arguments h uq pq effects) : Invariant (newFrameProcessor h uq pq effects) := by
  obtain ⟨hmember, hsame, -, hqueue, hwired⟩ :=
    built_member ha.ends ha.uq_allocated ha.pq_allocated ha.distinct ha.allocated
  refine ⟨ha.ends, ha.uq_allocated.trans_le hqueue, ha.pq_allocated.trans_le hqueue, ?_,
    Or.inl ⟨effects, ?_, hwired⟩⟩
  · intro p hp
    rw [List.mem_singleton.mp hp]
    exact hmember
  · intro p hp
    rw [List.mem_singleton.mp hp]
    exact hsame

/-- Only with the same tasks in all pipelines does `addEffect` leave all of them wired. -/
theorem addEffect_wired_iff (hx : Invariant x) {t : ℕ} (hv : Valid x (.addEffect t)) :
    AllWired (x.addEffect t) ↔ Careful x (.addEffect t) := by
  constructor
  · intro hwired p hp p' hp'
    rcases hx.tasks with ⟨ts, hts, -⟩ | hsingle
    · rw [hts p hp, hts p' hp']
    have hnew : ∀ q ∈ x.pipelines, ∃ a, q.effectTasks = [a] ∧ a ≠ t := by
      intro q hq
      obtain ⟨a, ha, -⟩ := hsingle q hq
      refine ⟨a, ha, ?_⟩
      rintro rfl
      exact hv.2 q hq (by simp [ha])
    obtain ⟨hall, p₀, hp₀, a, q, ha, hin, hfresh⟩ := forEach_addEffect_single x.pipelines x.heap
      (fun q hq => ⟨hx.members q hq, hnew q hq⟩) hv.1 (List.ne_nil_of_mem hp)
    -- a pipeline with another task than the last one is not wired
    have hsame : ∀ q' ∈ x.pipelines, q'.effectTasks = [a] := by
      intro q' hq'
      obtain ⟨b, hb, hbin, hbout⟩ := hsingle q' hq'
      obtain ⟨b', hb', hbt⟩ := hnew q' hq'
      obtain rfl : b = b' := by simpa [hb] using hb'
      by_contra hne
      have hba : b ≠ a := by
        rintro rfl
        exact hne hb
      obtain ⟨p'', hp'', he⟩ := hall q' hq'
      have hlink := (hwired p'' hp'').link
      rw [he, hb] at hlink
      have hstep := List.isChain_pair.mp hlink
      refine hfresh b hba hbt ⟨_, hx.processed_allocated, hbout⟩ ?_
      rw [← hin]
      exact hstep
    rw [hsame p hp, hsame p' hp']
  · intro hc
    exact (invariant_addEffect hx hv hc).wired

def copied : FrameProcessor :=
  ((newFrameProcessor sampleHeap 0 1 [0]).addPipeline [1, 0]).getD
    (newFrameProcessor sampleHeap 0 1 [0])

theorem copied_next : next (newFrameProcessor sampleHeap 0 1 [0]) (.addPipeline [1, 0]) =
    some copied := by
  have hperm : [1, 0].Perm (List.range 2) := by decide
  simp [next, copied, FrameProcessor.addPipeline, newFrameProcessor, hperm]

/-- As long as effects are only added while all pipelines have the same tasks, every pipeline of
the set is wired in every state, and the first effect added otherwise ends that. -/
theorem pipelines_stay_wired {h : Heap} {uq pq : ℕ} {effects : List ℕ} {x : FrameProcessor}
    (ha : Arguments h uq pq effects)
    (hx : Execution next (fun y e => Valid y e ∧ Careful y e) (newFrameProcessor h uq pq effects)
      x) :
    AllWired x ∧ ∀ t, Valid x (.addEffect t) →
      (AllWired (x.addEffect t) ↔ Careful x (.addEffect t)) := by
  have hinv : Invariant x := hx.invariant (new_invariant ha) fun _ _ _ hok hnext hy =>
    invariant_next hy hok.1 hok.2 hnext
  exact ⟨hinv.wired, fun t hv => addEffect_wired_iff hinv hv⟩

theorem copies_wired : AllWired (copied.addEffect 1).clearEffects := by
  have hrun : Execution next (fun y e => Valid y e ∧ Careful y e)
      (newFrameProcessor sampleHeap 0 1 [0]) (copied.addEffect 1).clearEffects := by
    apply Execution.step (e := .clearEffects)
    · apply Execution.step (e := .addEffect 1)
      · exact Execution.step (e := .addPipeline [1, 0]) .refl ⟨trivial, trivial⟩ copied_next
      · exact ⟨by decide, by decide⟩
      · rfl
    · exact ⟨trivial, trivial⟩
    · rfl
  exact (pipelines_stay_wired sample_arguments hrun).1

/-- Cleared first, the two pipelines share the effect but not the task in front of it. -/
theorem cleared_copies_not_wired :
    ¬ ∀ h uq pq effects x, Arguments h uq pq effects →
      Execution next Valid (newFrameProcessor h uq pq effects) x → AllWired x := by
  intro hall
  have hinv : Invariant copied.clearEffects := by
    apply invariant_clearEffects
    exact invariant_next (e := .addPipeline [1, 0]) (new_invariant sample_arguments) trivial
      trivial copied_next
  have hvalid : Valid copied.clearEffects (.addEffect 1) := by decide
  have hrun : Execution next Valid (newFrameProcessor sampleHeap 0 1 [0])
      (copied.clearEffects.addEffect 1) := by
    apply Execution.step (e := .addEffect 1)
    · apply Execution.step (e := .clearEffects)
      · exact Execution.step (e := .addPipeline [1, 0]) .refl trivial copied_next
      · trivial
      · rfl
    · exact hvalid
    · rfl
  have hwired := hall _ _ _ _ _ sample_arguments hrun
  exact absurd ((addEffect_wired_iff hinv hvalid).mp hwired) (by decide)

end Invariants

end PipelineCopies
