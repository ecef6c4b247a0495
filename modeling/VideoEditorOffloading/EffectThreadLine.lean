import VideoEditorOffloading.EffectThreads

/-! # A running pipeline is a line

One working thread for each task and links that visit the tasks in list order: then every thread
step is a move of the line, and the frames in it stay in order. -/
namespace EffectThreadLine

open SharedStatePrograms PipelineObjects PipelineRuns PipelineWiring LossyLine EffectThreads

variable {M : Type}

structure Steady (w : World M) (q : ℕ) (stages : List (Stage ℕ ℕ)) : Prop where
  simple : Simple q stages
  wired : ∀ p s rest, At q stages p s rest →
    (w.taskOf s.worker).inputQueue = some p ∧ (w.taskOf s.worker).outputQueue = some s.output
  working : ∀ th ∈ workers stages, Working w th
  retired : ∀ th, th ∉ workers stages → Retired w th

section Steps

variable (applyTo : Effect → M → M)

/-- The frames in the line as they will come out, the next one first. -/
def inFlight (w : World M) (q : ℕ) (stages : List (Stage ℕ ℕ)) : List (Frame M) :=
  flow (fun th => onImage applyTo (w.taskOf th).effect) (contents applyTo w) q stages

def processed (w : World M) (stages : List (Stage ℕ ℕ)) (f : Frame M) : Frame M :=
  through (fun th => onImage applyTo (w.taskOf th).effect) stages f

variable {applyTo} {w w' : World M} {q th : ℕ} {stages : List (Stage ℕ ℕ)}

theorem through_number (fn : ℕ → Effect) (stages : List (Stage ℕ ℕ)) (f : Frame M) :
    (through (fun th => onImage applyTo (fn th)) stages f).number = f.number := by
  induction stages generalizing f with
  | nil => rfl
  | cons s rest ih => exact ih _

theorem processed_number (w : World M) (stages : List (Stage ℕ ℕ)) (f : Frame M) :
    (processed applyTo w stages f).number = f.number :=
  through_number (fun th => (w.taskOf th).effect) stages f

theorem steady_turn (hs : Steady w q stages) (h : Turn applyTo w th w') : Steady w' q stages := by
  refine ⟨hs.simple, fun p s rest hat => ?_, fun x hx => turn_working h (hs.working x hx),
    fun x hx => turn_retired h (hs.retired x hx)⟩
  rw [turn_taskOf h]
  exact hs.wired p s rest hat

/-- A thread step keeps the frames in flight, except for one that a full queue refuses. -/
theorem turn_inFlight (hs : Steady w q stages) (h : Turn applyTo w th w') :
    inFlight applyTo w' q stages = inFlight applyTo w q stages ∧
      refusedFrames w'.log = refusedFrames w.log ∨
    ∃ l x l' g, inFlight applyTo w q stages = l ++ x :: l' ∧
      inFlight applyTo w' q stages = l ++ l' ∧ x.number = g.number ∧
      refusedFrames w'.log = refusedFrames w.log ++ [g] := by
  have ht := turn_taskOf h
  unfold inFlight
  rw [ht]
  by_cases hw : th ∈ workers stages
  swap
  · obtain ⟨hc, hlog⟩ := turn_retired_contents h (hs.retired th hw)
    exact Or.inl ⟨by rw [hc], by rw [hlog]⟩
  obtain ⟨s, hmem, rfl⟩ := List.mem_map.mp hw
  obtain ⟨p, rest, hat⟩ := exists_at (q := q) hmem
  obtain ⟨hin, hout⟩ := hs.wired p s rest hat
  have hwork := hs.working s.worker hw
  cases turn_effects h with
  | quiet hc hlog => exact Or.inl ⟨by rw [hc], by rw [hlog]⟩
  | took q' f fs hpc hflag hq hh hc hlog =>
    obtain rfl : p = q' := by simpa [hin] using hwork.taking q' hpc
    refine Or.inl ⟨?_, by rw [hlog]⟩
    rw [hc]
    exact flow_take hs.simple hat hq hh
  | gave q' g hpc hroom hh hc hlog =>
    obtain rfl : s.output = q' := by simpa [hout] using hwork.offering q' g hpc
    refine Or.inl ⟨?_, by simp [hlog]⟩
    rw [hc]
    exact flow_give hs.simple hat hh
  | refused q' g hpc hfull hh hc hlog =>
    have hh : (contents applyTo w).leaving s.worker = [g] := hh
    obtain ⟨l, l', h1, h2⟩ := flow_drop (fun th => onImage applyTo (w.taskOf th).effect)
      hs.simple hat hh
    refine Or.inr ⟨l, _, l', g, h1, by rw [hc]; exact h2, ?_, by simp [hlog]⟩
    exact through_number (fun th => (w.taskOf th).effect) rest g
  | lost g hpc hh =>
    rcases hpc with ⟨-, hflag⟩ | ⟨-, hnone⟩
    · simp [hwork.clear] at hflag
    · exact absurd hnone hwork.output

/-- The threads leave the first queue's history alone and only add to the last queue. -/
theorem turn_ends (hs : Steady w q stages) (h : Turn applyTo w th w') :
    acceptedAt q w'.log = acceptedAt q w.log ∧
    ∃ l, acceptedAt (exit q stages) w'.log = acceptedAt (exit q stages) w.log ++ l ∧
      w'.items (exit q stages) = w.items (exit q stages) ++ l := by
  have hitems : w'.items = (contents applyTo w').items := rfl
  rw [hitems]
  by_cases hw : th ∈ workers stages
  swap
  · obtain ⟨hc, hlog⟩ := turn_retired_contents h (hs.retired th hw)
    rw [hc, hlog]
    exact ⟨rfl, [], by simp, by simp [contents]⟩
  obtain ⟨s, hmem, rfl⟩ := List.mem_map.mp hw
  obtain ⟨p, rest, hat⟩ := exists_at (q := q) hmem
  obtain ⟨hin, hout⟩ := hs.wired p s rest hat
  have hwork := hs.working s.worker hw
  cases turn_effects h with
  | quiet hc hlog =>
    rw [hc, hlog]
    exact ⟨rfl, [], by simp, by simp [contents]⟩
  | took q' f fs hpc hflag hq hh hc hlog =>
    obtain rfl : p = q' := by simpa [hin] using hwork.taking q' hpc
    rw [hc, hlog]
    refine ⟨rfl, [], by simp, ?_⟩
    simp [contents, Contents.hold, Contents.pop, (hs.simple.exit_ne hat).symm]
  | gave q' g hpc hroom hh hc hlog =>
    obtain rfl : s.output = q' := by simpa [hout] using hwork.offering q' g hpc
    have hne : s.output ≠ q := ne_of_mem_of_not_mem hat.output_mem
      (List.nodup_cons.mp hs.simple.queues_nodup).1
    rw [hc, hlog]
    refine ⟨by simp [hne], if s.output = exit q stages then [g] else [], by simp, ?_⟩
    by_cases he : s.output = exit q stages
    · simp [contents, Contents.hold, Contents.put, he]
    · simp [contents, Contents.hold, Contents.put, he, Ne.symm he]
  | refused q' g hpc hfull hh hc hlog =>
    rw [hc, hlog]
    exact ⟨by simp, [], by simp, by simp [contents, Contents.hold]⟩
  | lost g hpc hh =>
    rcases hpc with ⟨-, hflag⟩ | ⟨-, hnone⟩
    · simp [hwork.clear] at hflag
    · exact absurd hnone hwork.output

theorem turn_outside (hs : Steady w q stages) (h : Turn applyTo w th w') {p : ℕ}
    (hp : p ∉ queues q stages) : w'.items p = w.items p := by
  have hitems : w'.items = (contents applyTo w').items := rfl
  rw [hitems]
  by_cases hw : th ∈ workers stages
  swap
  · rw [(turn_retired_contents h (hs.retired th hw)).1]
    rfl
  obtain ⟨s, hmem, rfl⟩ := List.mem_map.mp hw
  obtain ⟨p', rest, hat⟩ := exists_at (q := q) hmem
  obtain ⟨hin, hout⟩ := hs.wired p' s rest hat
  have hwork := hs.working s.worker hw
  cases turn_effects h with
  | quiet hc hlog =>
    rw [hc]
    rfl
  | took q' f fs hpc hflag hq hh hc hlog =>
    obtain rfl : p' = q' := by simpa [hin] using hwork.taking q' hpc
    have hne : p ≠ p' := fun he => hp (he ▸ hat.input_mem)
    rw [hc]
    simp [contents, Contents.hold, Contents.pop, hne]
  | gave q' g hpc hroom hh hc hlog =>
    obtain rfl : s.output = q' := by simpa [hout] using hwork.offering q' g hpc
    have hne : p ≠ s.output := fun he => hp (he ▸ List.mem_cons_of_mem _ hat.output_mem)
    rw [hc]
    simp [contents, Contents.hold, Contents.put, hne]
  | refused q' g hpc hfull hh hc hlog =>
    rw [hc]
    rfl
  | lost g hpc hh hc hlog =>
    rw [hc]
    rfl

theorem offer_inFlight (applyTo : Effect → M → M) (w : World M) (hs : Simple q stages)
    (f : Frame M) :
    inFlight applyTo (w.offer q f) q stages = inFlight applyTo w q stages ++
        [processed applyTo w stages f] ∧
      (w.offer q f).log = w.log ++ [.accepted q f] ∧
      (w.offer q f).items = Function.update w.items q (w.items q ++ [f]) ∨
    inFlight applyTo (w.offer q f) q stages = inFlight applyTo w q stages ∧
      (w.offer q f).log = w.log ++ [.refused q f] ∧ (w.offer q f).items = w.items := by
  by_cases hroom : (w.items q).length < w.capacity q
  · rw [World.offer, if_pos hroom]
    refine Or.inl ⟨?_, rfl, rfl⟩
    exact flow_put (c := contents applyTo w) hs f
  · rw [World.offer, if_neg hroom]
    exact Or.inr ⟨rfl, rfl, rfl⟩

theorem removeFirst_inFlight (applyTo : Effect → M → M) (hs : Simple q stages) {f : Frame M} {fs : List (Frame M)}
    (h : w.items (exit q stages) = f :: fs) :
    inFlight applyTo w q stages = f :: inFlight applyTo (w.removeFirst (exit q stages)) q stages :=
  flow_pop (c := contents applyTo w) hs h

theorem steady_congr (hs : Steady w q stages) (hst : w'.state = w.state) (hpc : w'.pc = w.pc)
    (hf : w'.flag = w.flag) : Steady w' q stages := by
  have ht : w'.taskOf = w.taskOf := by
    funext x
    rw [World.taskOf, World.taskOf, hst]
  refine ⟨hs.simple, ?_, fun x hx => ?_, fun x hx => ?_⟩
  · rw [ht]
    exact hs.wired
  · exact (hs.working x hx).congr (congrFun hf x) (congrFun hpc x) (congrFun ht x)
  · exact (hs.retired x hx).congr (congrFun hf x) (congrFun hpc x)

end Steps

section Pipelines

def stageOf (s : State) (th : ℕ) : Stage ℕ ℕ :=
  ⟨th, ((s.heap.task (taskOf s.heap th)).outputQueue).getD 0⟩

def stagesOf (s : State) : List (Stage ℕ ℕ) := s.pipe.effectThreads.map (stageOf s)

variable {s : State}

@[simp] theorem workers_stagesOf (s : State) : workers (stagesOf s) = s.pipe.effectThreads := by
  simp [workers, stagesOf, stageOf, Function.comp_def]

theorem queues_stagesOf (hs : Staffed s) (q : ℕ) : queues q (stagesOf s) =
    q :: s.pipe.effectTasks.map fun t => ((s.heap.task t).outputQueue).getD 0 := by
  rw [queues, stagesOf, ← hs.aligned, List.map_map, List.map_map]
  rfl

theorem getLast?_of_index {l : List ℕ} {i t : ℕ} (ht : l[i]? = some t) (hi : l.length ≤ i + 1) :
    l.getLast? = some t := by
  obtain ⟨hlt, -⟩ := List.getElem?_eq_some_iff.mp ht
  rw [List.getLast?_eq_getElem?, ← ht]
  congr 1
  omega

theorem output_getD (h : WellWired s) {i t : ℕ} (ht : s.pipe.effectTasks[i]? = some t) :
    (s.heap.task t).outputQueue = some (((s.heap.task t).outputQueue).getD 0) := by
  rcases Nat.lt_or_ge (i + 1) s.pipe.effectTasks.length with hi | hi
  · obtain ⟨q, hq, -⟩ := h.inner_not_end i t hi ht
    rw [hq]
    rfl
  · rw [h.last_output t (getLast?_of_index ht hi)]
    rfl

theorem stagesOf_exit (h : WellWired s) (hs : Staffed s) (hne : s.pipe.effectTasks ≠ []) :
    exit s.pipe.unprocessedFrameQueue (stagesOf s) = s.pipe.processedFrameQueue := by
  have hlast := exit_eq_getLast s.pipe.unprocessedFrameQueue (stagesOf s)
  obtain ⟨ts, t, ht⟩ := split_last hne
  have hq := h.last_output t (by rw [ht]; simp)
  rw [queues_stagesOf hs, ht] at hlast
  simpa [hq, List.getLast?_cons] using hlast.symm

theorem stagesOf_simple (h : WellWired s) (hs : Staffed s)
    (hends : s.pipe.unprocessedFrameQueue ≠ s.pipe.processedFrameQueue) :
    Simple s.pipe.unprocessedFrameQueue (stagesOf s) := by
  refine ⟨?_, by rw [workers_stagesOf]; exact hs.threads_distinct⟩
  rw [queues_stagesOf hs, List.nodup_cons]
  constructor
  · intro hmem
    obtain ⟨t, ht, he⟩ := List.mem_map.mp hmem
    obtain ⟨i, hi⟩ := List.mem_iff_getElem?.mp ht
    have hq := output_getD h hi
    rw [he] at hq
    rcases Nat.lt_or_ge (i + 1) s.pipe.effectTasks.length with hlt | hge
    · obtain ⟨q, hq', hne, -⟩ := h.inner_not_end i t hlt hi
      rw [hq] at hq'
      exact hne (Option.some.inj hq').symm
    · have hlast := h.last_output t (getLast?_of_index hi hge)
      rw [hq] at hlast
      exact hends (Option.some.inj hlast)
  · rw [List.nodup_iff_getElem?_ne_getElem?]
    intro i j hij hj he
    rw [List.length_map] at hj
    have hi' := List.getElem?_eq_getElem (hij.trans hj)
    have hj' := List.getElem?_eq_getElem hj
    have hq := output_getD h hi'
    have hq' := output_getD h hj'
    simp only [List.getElem?_map, hi', hj', Option.map_some, Option.some.injEq] at he
    rw [← he, ← hq] at hq'
    rcases Nat.lt_or_ge (j + 1) s.pipe.effectTasks.length with hlt | hge
    · exact h.inner_distinct i j _ _ hij hlt hi' hj' hq'.symm
    · obtain ⟨q, hq₁, -, hne⟩ := h.inner_not_end i _ (by omega) hi'
      rw [h.last_output _ (getLast?_of_index hj' hge), hq₁] at hq'
      exact hne (Option.some.inj hq').symm

theorem stagesOf_wired (h : WellWired s) (hs : Staffed s) {p : ℕ} {st : Stage ℕ ℕ}
    {rest : List (Stage ℕ ℕ)} (hat : At s.pipe.unprocessedFrameQueue (stagesOf s) p st rest) :
    (s.heap.task (taskOf s.heap st.worker)).inputQueue = some p ∧
      (s.heap.task (taskOf s.heap st.worker)).outputQueue = some st.output := by
  obtain ⟨i, hst, hp⟩ := hat.index
  rw [stagesOf, List.getElem?_map] at hst
  obtain ⟨th, hth, rfl⟩ := Option.map_eq_some_iff.mp hst
  have ht : s.pipe.effectTasks[i]? = some (taskOf s.heap th) := by
    rw [← hs.aligned, List.getElem?_map, hth]
    rfl
  refine ⟨?_, output_getD h ht⟩
  change (s.heap.task (taskOf s.heap th)).inputQueue = some p
  rw [queues_stagesOf hs] at hp
  cases i with
  | zero =>
    obtain rfl : s.pipe.unprocessedFrameQueue = p := by simpa using hp
    exact h.first_input _ (by rw [List.head?_eq_getElem?]; exact ht)
  | succ i =>
    have hlt := (List.getElem?_eq_some_iff.mp ht).1
    have hi' := List.getElem?_eq_getElem (Nat.lt_of_succ_lt hlt)
    rw [List.getElem?_cons_succ, List.getElem?_map, hi'] at hp
    rw [← h.link i _ _ hi' ht, output_getD h hi']
    exact hp

abbrev entry (w : World M) : ℕ := w.state.pipe.unprocessedFrameQueue
abbrev line (w : World M) : List (Stage ℕ ℕ) := stagesOf w.state

/-- A well-wired pipeline with one working thread for each task, and no other thread that could
touch a frame. -/
structure Running (w : World M) : Prop where
  nonempty : w.state.pipe.effectTasks ≠ []
  ends : w.state.pipe.unprocessedFrameQueue ≠ w.state.pipe.processedFrameQueue
  wired : WellWired w.state
  staffed : Staffed w.state
  working : ∀ th ∈ w.state.pipe.effectThreads, Working w th
  retired : ∀ th, th ∉ w.state.pipe.effectThreads → Retired w th

variable {w : World M}

theorem Running.steady (h : Running w) :
    Steady w w.state.pipe.unprocessedFrameQueue (stagesOf w.state) where
  simple := stagesOf_simple h.wired h.staffed h.ends
  wired := fun _ _ _ hat => stagesOf_wired h.wired h.staffed hat
  working := fun th hth => h.working th (by rwa [workers_stagesOf] at hth)
  retired := fun th hth => h.retired th (by rwa [workers_stagesOf] at hth)

theorem Running.exit (h : Running w) :
    exit w.state.pipe.unprocessedFrameQueue (stagesOf w.state) =
      w.state.pipe.processedFrameQueue :=
  stagesOf_exit h.wired h.staffed h.nonempty

def effectsOf (s : State) : List Effect := s.pipe.effectTasks.map fun t => (s.heap.task t).effect

/-- `e_n(...e_1(image))`. -/
def composed (applyTo : Effect → M → M) (effects : List Effect) (image : M) : M :=
  effects.foldl (fun m e => applyTo e m) image

theorem processed_stagesOf (applyTo : Effect → M → M) (hs : Staffed w.state) (f : Frame M) :
    processed applyTo w (stagesOf w.state) f =
      { f with image := composed applyTo (effectsOf w.state) f.image } := by
  have general : ∀ (ths : List ℕ) (f : Frame M),
      processed applyTo w (ths.map (stageOf w.state)) f =
        { f with image := composed applyTo (ths.map fun th => (w.taskOf th).effect) f.image } := by
    intro ths
    induction ths with
    | nil => intro f; rfl
    | cons th ths ih => intro f; exact ih _
  have heff : effectsOf w.state =
      w.state.pipe.effectThreads.map fun th => (w.taskOf th).effect := by
    rw [effectsOf, ← hs.aligned, List.map_map]
    rfl
  rw [heff]
  exact general _ f

end Pipelines

section Sessions

/-- A producer that numbers its frames, a consumer and the effect threads. -/
structure Session (M : Type) where
  world : World M
  submitted : ℕ

inductive Event (M : Type) where
  | produce (image : M)
  | consume
  | thread (th : ℕ)

def next (applyTo : Effect → M → M) (x : Session M) : Event M → Option (Session M)
  | .produce image =>
    some ⟨x.world.offer x.world.state.pipe.unprocessedFrameQueue ⟨x.submitted, image⟩,
      x.submitted + 1⟩
  | .consume =>
    match x.world.items x.world.state.pipe.processedFrameQueue with
    | [] => none
    | _ :: _ => some ⟨x.world.removeFirst x.world.state.pipe.processedFrameQueue, x.submitted⟩
  | .thread th => (threadStep applyTo x.world th).map fun w => ⟨w, x.submitted⟩

abbrev Execution (applyTo : Effect → M → M) (x₀ x : Session M) : Prop :=
  TransitionSystems.Execution (next applyTo) (fun _ _ => True) x₀ x

/-- What has come out and what is in flight, together, are the processed frames that were
accepted, in order; those left out were refused on the way. -/
structure Fifo (applyTo : Effect → M → M) (w : World M) (q : ℕ) (stages : List (Stage ℕ ℕ))
    (consumed : List (Frame M)) (submitted : ℕ) : Prop where
  steady : Steady w q stages
  nonempty : stages ≠ []
  delivered : acceptedAt (exit q stages) w.log = consumed ++ w.items (exit q stages)
  ordered : (consumed ++ inFlight applyTo w q stages).Sublist
    ((acceptedAt q w.log).map (processed applyTo w stages))
  complete : ∀ f ∈ acceptedAt q w.log,
    processed applyTo w stages f ∈ consumed ++ inFlight applyTo w q stages ∨
      ∃ g ∈ refusedFrames w.log, g.number = f.number
  numbered : (acceptedAt q w.log).Pairwise fun f g => f.number < g.number
  bounded : ∀ f ∈ acceptedAt q w.log, f.number < submitted

variable {applyTo : Effect → M → M} {w w' : World M} {q th submitted : ℕ}
  {stages : List (Stage ℕ ℕ)} {consumed : List (Frame M)}

theorem processed_congr (h : w'.taskOf = w.taskOf) :
    processed applyTo w' stages = processed applyTo w stages := by
  unfold processed
  rw [h]

theorem fifo_turn (hx : Fifo applyTo w q stages consumed submitted) (h : Turn applyTo w th w') :
    Fifo applyTo w' q stages consumed submitted := by
  obtain ⟨hs, hne, hd, ho, hc, hn, hb⟩ := hx
  obtain ⟨hin, l, hacc, hitems⟩ := turn_ends hs h
  have hp : processed applyTo w' stages = processed applyTo w stages :=
    processed_congr (turn_taskOf h)
  refine ⟨steady_turn hs h, hne, ?_, ?_, ?_, by rwa [hin], by rwa [hin]⟩
  · rw [hacc, hitems, hd, List.append_assoc]
  · rw [hin, hp]
    rcases turn_inFlight hs h with ⟨he, -⟩ | ⟨l, x, l', g, h1, h2, -, -⟩
    · rwa [he]
    · rw [h1] at ho
      rw [h2]
      exact List.Sublist.trans (by simp) ho
  · intro f hf
    rw [hin] at hf
    rw [hp]
    rcases turn_inFlight hs h with ⟨he, hr⟩ | ⟨l, x, l', g, h1, h2, hx, hr⟩
    · rw [he, hr]
      exact hc f hf
    · rw [h2, hr]
      rcases hc f hf with hm | ⟨g', hg', hnum⟩
      · rw [h1] at hm
        by_cases hfx : processed applyTo w stages f = x
        · refine Or.inr ⟨g, by simp, ?_⟩
          rw [← hx, ← hfx, processed_number]
        · refine Or.inl ?_
          simp only [List.mem_append, List.mem_cons, hfx, false_or] at hm ⊢
          exact hm
      · exact Or.inr ⟨g', List.mem_append_left _ hg', hnum⟩

theorem fifo_produce (hx : Fifo applyTo w q stages consumed submitted) (image : M) :
    Fifo applyTo (w.offer q ⟨submitted, image⟩) q stages consumed (submitted + 1) := by
  obtain ⟨hs, hne, hd, ho, hc, hn, hb⟩ := hx
  have hs' : Steady (w.offer q ⟨submitted, image⟩) q stages :=
    steady_congr hs (by simp) (by simp) (by simp)
  have hp : processed applyTo (w.offer q ⟨submitted, image⟩) stages =
      processed applyTo w stages := by
    refine processed_congr (funext fun x => ?_)
    rw [World.taskOf, World.taskOf, World.offer_state]
  have hqe : q ≠ exit q stages := by
    cases stages with
    | nil => exact absurd rfl hne
    | cons s rest => exact hs.simple.exit_ne (.here q s rest)
  rcases offer_inFlight applyTo w hs.simple ⟨submitted, image⟩ with
    ⟨hfl, hlog, hitems⟩ | ⟨hfl, hlog, hitems⟩
  · have hacc : acceptedAt q (w.offer q ⟨submitted, image⟩).log =
        acceptedAt q w.log ++ [⟨submitted, image⟩] := by simp [hlog]
    refine ⟨hs', hne, ?_, ?_, ?_, ?_, ?_⟩
    · rw [hlog, hitems, acceptedAt_accepted, if_neg hqe, Function.update_of_ne hqe.symm, hd]
      simp
    · rw [hfl, hp, hacc, List.map_append, ← List.append_assoc]
      exact ho.append (List.Sublist.refl _)
    · intro f hf
      rw [hfl, hp, hlog, refusedFrames_accepted, ← List.append_assoc, List.mem_append]
      rcases List.mem_append.mp (hacc ▸ hf) with hf | hf
      · rcases hc f hf with hm | hr
        · exact Or.inl (Or.inl hm)
        · exact Or.inr hr
      · obtain rfl : f = ⟨submitted, image⟩ := by simpa using hf
        exact Or.inl (Or.inr (by simp))
    · rw [hacc, List.pairwise_append]
      exact ⟨hn, by simp, fun f hf g hg => by
        obtain rfl : g = ⟨submitted, image⟩ := by simpa using hg
        exact hb f hf⟩
    · intro f hf
      rcases List.mem_append.mp (hacc ▸ hf) with hf | hf
      · exact (hb f hf).trans (by omega)
      · obtain rfl : f = ⟨submitted, image⟩ := by simpa using hf
        exact Nat.lt_succ_self submitted
  · have hacc (p : ℕ) : acceptedAt p (w.offer q ⟨submitted, image⟩).log = acceptedAt p w.log := by
      simp [hlog]
    refine ⟨hs', hne, by rw [hacc, hitems, hd], by rw [hfl, hp, hacc]; exact ho, ?_,
      by rw [hacc]; exact hn, fun f hf => (hb f (hacc q ▸ hf)).trans (by omega)⟩
    intro f hf
    rw [hfl, hp, hlog, refusedFrames_refused]
    rcases hc f (hacc q ▸ hf) with hm | ⟨g, hg, hnum⟩
    · exact Or.inl hm
    · exact Or.inr ⟨g, List.mem_append_left _ hg, hnum⟩

theorem fifo_consume (hx : Fifo applyTo w q stages consumed submitted) {f : Frame M}
    {fs : List (Frame M)} (hf : w.items (exit q stages) = f :: fs) :
    Fifo applyTo (w.removeFirst (exit q stages)) q stages (consumed ++ [f]) submitted := by
  obtain ⟨hs, hne, hd, ho, hc, hn, hb⟩ := hx
  have hfl := removeFirst_inFlight applyTo hs.simple hf
  have hsame : consumed ++ [f] ++
      inFlight applyTo (w.removeFirst (exit q stages)) q stages =
        consumed ++ inFlight applyTo w q stages := by
    rw [hfl]
    simp
  refine ⟨steady_congr hs rfl rfl rfl, hne, ?_, by rw [hsame]; exact ho, ?_, hn, hb⟩
  · simp [hd, hf]
  · rw [hsame]
    exact hc

theorem fifo_delivered (hx : Fifo applyTo w q stages consumed submitted) :
    (acceptedAt (exit q stages) w.log).Sublist
      ((acceptedAt q w.log).map (processed applyTo w stages)) := by
  rw [hx.delivered]
  have hpre := flow_exit (fun th => onImage applyTo (w.taskOf th).effect) (contents applyTo w) q
    stages
  exact ((List.Sublist.refl consumed).append hpre.sublist).trans hx.ordered

theorem fifo_processed (hx : Fifo applyTo w q stages consumed submitted) {f g : Frame M}
    (hf : f ∈ acceptedAt q w.log) (hg : g ∈ acceptedAt (exit q stages) w.log)
    (hn : g.number = f.number) : g = processed applyTo w stages f := by
  obtain ⟨f', hf', rfl⟩ := List.mem_map.mp ((fifo_delivered hx).subset hg)
  rw [processed_number] at hn
  have hnodup := List.pairwise_map.mpr (hx.numbered.imp ne_of_lt)
  rw [List.inj_on_of_nodup_map hnodup hf' hf hn]

/-- Where a frame is that has not come out: in a queue, in a thread's hands, or gone because a
full queue refused it. -/
inductive Missing (w : World M) (number : ℕ) : Prop where
  | queued (p : ℕ) (hp : p ∈ queues w.state.pipe.unprocessedFrameQueue (stagesOf w.state))
    (g : Frame M) (hg : g ∈ w.items p) (hn : g.number = number)
  | inHand (th : ℕ) (hth : th ∈ w.state.pipe.effectThreads) (g : Frame M)
    (hg : g ∈ (w.pc th).inHand) (hn : g.number = number)
  | refused (g : Frame M) (hg : g ∈ refusedFrames w.log) (hn : g.number = number)

theorem fifo_missing (hx : Fifo applyTo w w.state.pipe.unprocessedFrameQueue
      (stagesOf w.state) consumed submitted) {f : Frame M}
    (hf : f ∈ acceptedAt w.state.pipe.unprocessedFrameQueue w.log)
    (hout : processed applyTo w (stagesOf w.state) f ∉
      acceptedAt (exit w.state.pipe.unprocessedFrameQueue (stagesOf w.state)) w.log) :
    Missing w f.number := by
  rw [hx.delivered, List.mem_append, not_or] at hout
  rcases hx.complete f hf with hm | ⟨g, hg, hn⟩
  swap
  · exact .refused g hg hn
  have hm := (List.mem_append.mp hm).resolve_left hout.1
  rcases mem_flow hm with he | ⟨p, s, rest, hat, ⟨g, hg, hn⟩ | ⟨g, hg, hn⟩⟩
  · exact absurd he hout.2
  · have hnum := congrArg Frame.number hn
    rw [processed_number] at hnum
    exact .queued p hat.input_mem g hg
      (hnum.trans (through_number (fun th => (w.taskOf th).effect) (s :: rest) g)).symm
  · have hnum := congrArg Frame.number hn
    rw [processed_number] at hnum
    have hnum := (hnum.trans (through_number (fun th => (w.taskOf th).effect) rest g)).symm
    have hmem : g.number ∈ (leaving applyTo w s.worker).map (·.number) :=
      List.mem_map_of_mem hg
    rw [leaving_number] at hmem
    obtain ⟨g', hg', he⟩ := List.mem_map.mp hmem
    have hth := hat.worker_mem
    rw [workers_stagesOf] at hth
    exact .inHand s.worker hth g' hg' (he.trans hnum)

theorem fifo_start (hr : Running w) (hitems : ∀ p, w.items p = [])
    (hhands : ∀ th, (w.pc th).inHand = []) (hlog : w.log = []) :
    Fifo applyTo w w.state.pipe.unprocessedFrameQueue (stagesOf w.state) [] 0 := by
  have hflow : inFlight applyTo w w.state.pipe.unprocessedFrameQueue (stagesOf w.state) = [] := by
    refine List.eq_nil_iff_forall_not_mem.mpr fun f hf => ?_
    have hl : ∀ th, leaving applyTo w th = [] := fun th => by
      have h := leaving_number applyTo w th
      rw [hhands] at h
      exact List.map_eq_nil_iff.mp h
    rcases mem_flow hf with he | ⟨p, s, rest, hat, ⟨g, hg, -⟩ | ⟨g, hg, -⟩⟩
    · simp [contents, hitems] at he
    · simp [contents, hitems] at hg
    · simp [contents, hl] at hg
  have hne : stagesOf w.state ≠ [] := by
    intro h
    have hlen := hr.staffed.length
    rw [List.map_eq_nil_iff.mp h] at hlen
    exact hr.nonempty (List.length_eq_zero_iff.mp hlen.symm)
  refine ⟨hr.steady, hne, ?_, ?_, ?_, ?_, ?_⟩ <;> simp [hlog, acceptedAt, hitems, hflow]

theorem execution_fifo {x : Session M} (hr : Running w) (hitems : ∀ p, w.items p = [])
    (hhands : ∀ th, (w.pc th).inHand = []) (hlog : w.log = [])
    (h : Execution applyTo ⟨w, 0⟩ x) :
    x.world.state = w.state ∧ ∃ consumed, Fifo applyTo x.world w.state.pipe.unprocessedFrameQueue
      (stagesOf w.state) consumed x.submitted := by
  induction h with
  | refl => exact ⟨rfl, [], fifo_start hr hitems hhands hlog⟩
  | @step x x' e hprev _ hnext ih =>
    obtain ⟨hst, consumed, hx⟩ := ih
    cases e with
    | produce image =>
      cases hnext
      refine ⟨by simpa using hst, consumed, ?_⟩
      rw [hst]
      exact fifo_produce hx image
    | consume =>
      simp only [next, hst, ← hr.exit] at hnext
      split at hnext <;> cases hnext
      exact ⟨hst, _, fifo_consume hx ‹_›⟩
    | thread th =>
      obtain ⟨w', hw', rfl⟩ := Option.map_eq_some_iff.mp hnext
      have ht := threadStep_turn hw'
      exact ⟨(turn_frame ht).1.trans hst, consumed, fifo_turn hx ht⟩

/-- In every execution, what was put into `processedFrameQueue` is the image under
`e_n(...e_1(.))` of frames that `unprocessedFrameQueue` accepted, in their order and each once,
and nothing is missing without a reason. -/
theorem running_pipeline_lossy_fifo {x : Session M} (hr : Running w)
    (hitems : ∀ p, w.items p = []) (hhands : ∀ th, (w.pc th).inHand = []) (hlog : w.log = [])
    (h : Execution applyTo ⟨w, 0⟩ x) :
    ∃ kept : List (Frame M),
      kept.Sublist (acceptedAt w.state.pipe.unprocessedFrameQueue x.world.log) ∧
      (kept.Pairwise fun f g => f.number < g.number) ∧
      acceptedAt w.state.pipe.processedFrameQueue x.world.log =
        kept.map (fun f => { f with image := composed applyTo (effectsOf w.state) f.image }) ∧
      ∀ f ∈ acceptedAt w.state.pipe.unprocessedFrameQueue x.world.log, f ∉ kept →
        Missing x.world f.number := by
  obtain ⟨hst, consumed, hx⟩ := execution_fifo hr hitems hhands hlog h
  have hproc : processed applyTo x.world (stagesOf w.state) =
      fun f => { f with image := composed applyTo (effectsOf w.state) f.image } := by
    funext f
    rw [← hst]
    exact processed_stagesOf applyTo (hst ▸ hr.staffed) f
  have hsub := fifo_delivered hx
  rw [hr.exit] at hsub
  obtain ⟨kept, hkept, heq⟩ := List.sublist_map_iff.mp hsub
  refine ⟨kept, hkept, hx.numbered.sublist hkept, by rw [heq, hproc], fun f hf hnot => ?_⟩
  have hmissing : processed applyTo x.world (stagesOf x.world.state) f ∉
      acceptedAt (exit x.world.state.pipe.unprocessedFrameQueue (stagesOf x.world.state))
        x.world.log → Missing x.world f.number := fifo_missing (hst ▸ hx) (hst ▸ hf)
  refine hmissing ?_
  rw [hst, hr.exit, heq]
  intro hm
  obtain ⟨f', hf', he⟩ := List.mem_map.mp hm
  -- accepted frames have different numbers
  have hnum : f'.number = f.number := by
    have hnum := congrArg Frame.number he
    rwa [processed_number, processed_number] at hnum
  have hnodup := List.pairwise_map.mpr (hx.numbered.imp ne_of_lt)
  exact hnot (List.inj_on_of_nodup_map hnodup (hkept.subset hf') hf hnum ▸ hf')

end Sessions

section Sample

def sampleWorld : World ℕ where
  state := after (built sampleHeap 0 1 [0]) [.start]
  items _ := []
  capacity _ := 2
  pc th := if th = 0 then .looping else .unstarted
  flag _ := false
  log := []

theorem sample_running : Running sampleWorld where
  nonempty := by decide
  ends := by decide
  wired := wiring_wellWired
    (reachable_wiring ⟨sample_arguments, .snoc .nil trivial⟩ : Wiring (step _ .start)) (by decide)
  staffed := after_staffed (built_staffed sampleHeap 0 1 [0]) [.start]
  working := by
    have hth : sampleWorld.state.pipe.effectThreads = [0] := by decide
    rw [hth]
    simp only [List.mem_singleton, forall_eq]
    constructor <;> first | decide | simp [sampleWorld]
  retired := by
    have hth : sampleWorld.state.pipe.effectThreads = [0] := by decide
    rw [hth]
    intro th h
    exact Or.inl (if_neg (by simpa using h))

def stagedWorld : World ℕ where
  state := after (built sampleHeap 0 1 [0, 1]) [.start]
  items _ := []
  capacity q := if q = 2 then 1 else 2
  pc th := if th ∈ [0, 1] then .looping else .unstarted
  flag _ := false
  log := []

theorem staged_running : Running stagedWorld where
  nonempty := by decide
  ends := by decide
  wired := wiring_wellWired
    (reachable_wiring ⟨sample_two_arguments, .snoc .nil trivial⟩ : Wiring (step _ .start))
      (by decide)
  staffed := after_staffed (built_staffed sampleHeap 0 1 [0, 1]) [.start]
  working := by
    have hth : stagedWorld.state.pipe.effectThreads = [0, 1] := by decide
    rw [hth]
    simp only [List.mem_cons, List.not_mem_nil, or_false, forall_eq_or_imp, forall_eq]
    constructor <;> constructor <;> first | decide | simp [stagedWorld]
  retired := by
    have hth : stagedWorld.state.pipe.effectThreads = [0, 1] := by decide
    rw [hth]
    intro th h
    exact Or.inl (if_neg h)

def stagedEffect (e : Effect) (image : ℕ) : ℕ := if e.ref = 0 then 2 * image else image + 1

/-- The first thread processes both frames while the second one waits, so the second frame finds no
room between them. -/
theorem running_pipeline_two_frames : ∃ x, Execution stagedEffect ⟨stagedWorld, 0⟩ x ∧
    acceptedAt 0 x.world.log = [⟨0, 7⟩, ⟨1, 8⟩] ∧ acceptedAt 1 x.world.log = [⟨0, 15⟩] ∧
    ∃ kept : List (Frame ℕ), kept.Sublist (acceptedAt 0 x.world.log) ∧
      (kept.Pairwise fun f g => f.number < g.number) ∧
      acceptedAt 1 x.world.log = kept.map (fun f =>
        { f with image := composed stagedEffect (effectsOf stagedWorld.state) f.image }) ∧
      ∀ f ∈ acceptedAt 0 x.world.log, f ∉ kept → Missing x.world f.number := by
  have hrun : ∃ x, TransitionSystems.runEvents (next stagedEffect) ⟨stagedWorld, 0⟩
      ([.produce 7, .produce 8] ++ List.replicate 16 (.thread 0) ++
        List.replicate 7 (.thread 1)) = some x ∧
      acceptedAt 0 x.world.log = [⟨0, 7⟩, ⟨1, 8⟩] ∧
      acceptedAt 1 x.world.log = [⟨0, 15⟩] := ⟨_, rfl, by decide, by decide⟩
  obtain ⟨x, h, hin, hout⟩ := hrun
  have hx : Execution stagedEffect ⟨stagedWorld, 0⟩ x := .append .refl (by simp) h
  exact ⟨x, hx, hin, hout, running_pipeline_lossy_fifo staged_running (fun _ => rfl)
    (by intro th; simp only [stagedWorld]; split <;> rfl) rfl hx⟩

end Sample

end EffectThreadLine
