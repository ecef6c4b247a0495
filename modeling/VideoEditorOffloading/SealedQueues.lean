import VideoEditorOffloading.ServerReconfiguration

/-! # Queues that no running thread reads

Frames with numbers below a bound are old. They are shut in a set of queues if every thread that
may still read one of these queues is about to notice its interrupt, and if every old frame that
a thread has in hand is either dropped or goes back into one of them. -/
namespace SealedQueues

open SharedStatePrograms PipelineObjects PipelineRuns PipelineThreadLifecycle EffectThreads
  ServerReconfiguration

variable {M : Type}

def Live (pc : Pc M) : Prop := pc ≠ .unstarted ∧ pc ≠ .exited

/-- With a frame in hand and before the interrupt check. -/
def Early (pc : Pc M) (f : Frame M) : Prop :=
  pc = .taken f ∨ pc = .applying f ∨ pc = .applied f

/-- A queue that exists and that effect threads may write to. -/
def Fillable (s : State) (q : ℕ) : Prop :=
  q ≠ s.pipe.unprocessedFrameQueue ∧ q < s.heap.nextQueue

section Threads

structure Employed (s : State) (th : ℕ) (pc : Pc M) (flag : Bool) : Prop where
  marked : Live pc → flag = false → stateOf s th = .started
  allocated : Live pc → taskOf s.heap th < s.heap.nextTask
  output : Live pc → (s.heap.task (taskOf s.heap th)).outputQueue ≠ none
  offering : ∀ q g, pc = .offering q g → Fillable s q

/-- A thread that neither takes a frame out of the queues nor carries an old frame elsewhere. -/
structure Tied (Q : ℕ → Prop) (bound : ℕ) (pc : Pc M) (flag : Bool) (task : EffectTask) :
    Prop where
  early : ∀ f, Early pc f → f.number < bound → flag = true
  passed : ∀ g, pc = .passed g → g.number < bound → ∀ q, task.outputQueue = some q → Q q
  offering : ∀ q g, pc = .offering q g → g.number < bound → Q q
  reading : Live pc → flag = false → ∀ q, task.inputQueue = some q → ¬ Q q
  taking : ∀ q, pc = .taking q → flag = false → ¬ Q q

variable {s : State} {th bound : ℕ} {Q : ℕ → Prop} {pc : Pc M} {flag : Bool} {task : EffectTask}

theorem employed_resting (h : ¬ Live pc) : Employed s th pc flag := by
  refine ⟨fun hl => absurd hl h, fun hl => absurd hl h, fun hl => absurd hl h, ?_⟩
  rintro q g rfl
  exact absurd ⟨nofun, nofun⟩ h

theorem tied_resting (h : ¬ Live pc) : Tied Q bound pc flag task := by
  have hlive : ∀ pc', pc = pc' → Live pc' → False := fun _ he hl => h (he ▸ hl)
  constructor
  · rintro f (hf | hf | hf) <;> exact (hlive _ hf ⟨nofun, nofun⟩).elim
  · intro g hg
    exact (hlive _ hg ⟨nofun, nofun⟩).elim
  · intro q g hg
    exact (hlive _ hg ⟨nofun, nofun⟩).elim
  · intro hl
    exact absurd hl h
  · intro q hq
    exact (hlive _ hq ⟨nofun, nofun⟩).elim

theorem not_live_unstarted : ¬ Live (.unstarted : Pc M) := fun h => h.1 rfl

end Threads

/-- Frames lie in queues that exist, and no thread fills the unprocessed queue. -/
structure Sound (w : World M) : Prop where
  entry : w.state.pipe.unprocessedFrameQueue < w.state.heap.nextQueue
  items : ∀ q, w.items q ≠ [] → q < w.state.heap.nextQueue
  outputs : ∀ t q, (w.state.heap.task t).outputQueue = some q → Fillable w.state q
  threads : ∀ th, Employed w.state th (w.pc th) (w.flag th)

structure Below (n : ℕ) (w : World M) : Prop where
  items : ∀ q, ∀ f ∈ w.items q, f.number < n
  hands : ∀ th, ∀ f ∈ (w.pc th).inHand, f.number < n

/-- Old frames lie in the queues of the set, and no thread brings one out. -/
structure Sealed (Q : ℕ → Prop) (bound : ℕ) (w : World M) : Prop where
  items : ∀ q, ∀ f ∈ w.items q, f.number < bound → Q q
  threads : ∀ th, Tied Q bound (w.pc th) (w.flag th) (w.taskOf th)

section Turns

variable {applyTo : Effect → M → M} {w w' : World M} {th n bound : ℕ} {Q : ℕ → Prop}

theorem turn_live (h : Turn applyTo w th w') : Live (w.pc th) := by
  cases h <;> simp_all [Live]

theorem turn_flag (h : Turn applyTo w th w') (hl : Live (w'.pc th)) :
    w'.flag th = w.flag th := by
  cases h <;> simp_all [Live]

theorem turn_items (h : Turn applyTo w th w') (q : ℕ) :
    ∀ f ∈ w'.items q, f ∈ w.items q ∨ w.pc th = .offering q f := by
  intro f hf
  cases h with
  | take p g gs hpc hflag hq =>
    by_cases hx : q = p
    · subst q
      simp only [World.setPc_items, World.removeFirst_items, Function.update_self, hq,
        List.tail_cons] at hf
      exact Or.inl (hq ▸ List.mem_cons_of_mem _ hf)
    · exact Or.inl (by simpa [hx] using hf)
  | offer p g hpc =>
    by_cases hroom : (w.items p).length < w.capacity p
    · by_cases hx : q = p
      · subst q
        simp only [World.setPc_items, World.offer, hroom, if_true, Function.update_self,
          List.mem_append, List.mem_singleton] at hf
        rcases hf with hf | rfl
        · exact Or.inl hf
        · exact Or.inr hpc
      · exact Or.inl (by simpa [World.offer, hroom, hx] using hf)
    · exact Or.inl (by simpa [World.offer, hroom] using hf)
  | _ => exact Or.inl hf

theorem sound_turn (hs : Sound w) (h : Turn applyTo w th w') : Sound w' := by
  obtain ⟨hst, -, hother⟩ := turn_frame h
  have hold := hs.threads th
  refine ⟨by rw [hst]; exact hs.entry, fun q hq => ?_, by rw [hst]; exact hs.outputs, fun x => ?_⟩
  · rw [hst]
    obtain ⟨f, hf⟩ := List.exists_mem_of_ne_nil _ hq
    rcases turn_items h q f hf with hf | hpc
    · exact hs.items q (List.ne_nil_of_mem hf)
    · exact (hold.offering q f hpc).2
  · rw [hst]
    by_cases hx : x = th
    swap
    · obtain ⟨hpc, hflag⟩ := hother x hx
      rw [hpc, hflag]
      exact hs.threads x
    subst x
    have hlive := turn_live h
    refine ⟨fun hl hf => ?_, fun _ => hold.allocated hlive, fun _ => hold.output hlive, ?_⟩
    · rw [turn_flag h hl] at hf
      exact hold.marked hlive hf
    · intro q g hpc
      cases h with
      | readOutput q' g' _ hq =>
        obtain ⟨rfl, -⟩ : q' = q ∧ g' = g := by simpa using hpc
        exact hs.outputs _ _ hq
      | _ => simp at hpc

theorem below_turn (hb : Below n w) (h : Turn applyTo w th w') : Below n w' := by
  have hold := hb.hands th
  refine ⟨fun q f hf => ?_, fun x f hf => ?_⟩
  · rcases turn_items h q f hf with hf | hpc
    · exact hb.items q f hf
    · exact hold f (by simp [hpc, Pc.inHand])
  · by_cases hx : x = th
    swap
    · rw [((turn_frame h).2.2 x hx).1] at hf
      exact hb.hands x f hf
    subst x
    cases h with
    | take q g gs hpc hflag hq =>
      obtain rfl : f = g := by simpa [Pc.inHand] using hf
      exact hb.items q f (by simp [hq])
    | enter g hpc | pass g hpc hflag | readOutput q g hpc hq =>
      obtain rfl : f = g := by simpa [Pc.inHand] using hf
      exact hold f (by simp [hpc, Pc.inHand])
    | finish g hpc =>
      obtain rfl : f = onImage applyTo (w.taskOf th).effect g := by simpa [Pc.inHand] using hf
      exact hold g (by simp [hpc, Pc.inHand])
    | _ => simp [Pc.inHand] at hf

/-- The thread that moves stays tied: it takes new frames only. -/
theorem tied_turn (hs : Sealed Q bound w) (h : Turn applyTo w th w') :
    Tied Q bound (w'.pc th) (w'.flag th) (w'.taskOf th) := by
  have hold := hs.threads th
  have hread := hold.reading (turn_live h)
  rw [turn_taskOf h]
  cases h with
  | readInput q hpc hq =>
    refine ⟨?_, ?_, ?_, fun _ => by simpa using hread, ?_⟩
    · simp [Early]
    · simp
    · simp
    · intro p hp hf
      obtain rfl : q = p := by simpa using hp
      exact hread (by simpa using hf) q hq
  | take q f fs hpc hflag hq =>
    refine ⟨?_, ?_, ?_, fun _ => by simpa using hread, ?_⟩
    · intro g hg hlt
      obtain rfl : f = g := by simpa [Early] using hg
      exact absurd (hs.items q f (by simp [hq]) hlt) (hold.taking q hpc hflag)
    all_goals simp
  | enter f hpc =>
    refine ⟨?_, ?_, ?_, fun _ => by simpa using hread, ?_⟩
    · intro g hg hlt
      obtain rfl : f = g := by simpa [Early] using hg
      exact hold.early f (Or.inl hpc) hlt
    all_goals simp
  | finish f hpc =>
    refine ⟨?_, ?_, ?_, fun _ => by simpa using hread, ?_⟩
    · intro g hg hlt
      obtain rfl : onImage applyTo (w.taskOf th).effect f = g := by simpa [Early] using hg
      exact hold.early f (Or.inr (Or.inl hpc)) hlt
    all_goals simp
  | pass g hpc hflag =>
    refine ⟨by simp [Early], ?_, ?_, fun _ => by simpa using hread, by simp⟩
    · intro f hf hlt
      obtain rfl : g = f := by simpa using hf
      have hset := hold.early g (Or.inr (Or.inr hpc)) hlt
      rw [hflag] at hset
      cases hset
    · simp
  | readOutput q g hpc hq =>
    refine ⟨by simp [Early], by simp, ?_, fun _ => by simpa using hread, by simp⟩
    intro p f hf hlt
    obtain ⟨rfl, rfl⟩ : q = p ∧ g = f := by simpa using hf
    exact hold.passed g hpc hlt q hq
  | offer q g hpc =>
    refine ⟨by simp [Early], by simp, by simp, fun _ => by simpa using hread, by simp⟩
  | again hpc hflag =>
    refine ⟨by simp [Early], by simp, by simp, fun _ => by simpa using hread, by simp⟩
  | _ => exact tied_resting (by simp [Live])

theorem sealed_turn (hs : Sealed Q bound w) (h : Turn applyTo w th w') : Sealed Q bound w' := by
  refine ⟨fun q f hf hlt => ?_, fun x => ?_⟩
  · rcases turn_items h q f hf with hf | hpc
    · exact hs.items q f hf hlt
    · exact (hs.threads th).offering q f hpc hlt
  · by_cases hx : x = th
    · subst x
      exact tied_turn hs h
    · obtain ⟨hpc, hflag⟩ := (turn_frame h).2.2 x hx
      rw [hpc, hflag, turn_taskOf h]
      exact hs.threads x

end Turns

/-- What a statement must find so that it opens no queue of the set. -/
def Permitted (Q : ℕ → Prop) (i : Instr) (s : State) : Prop :=
  match i with
  | .setInputQueue _ q => ∀ p, q = some p → ¬ Q p
  | .setOutputQueue t q => (∃ p, q = some p ∧ Fillable s p) ∧
      ∀ p, (s.heap.task t).outputQueue = some p → ¬ Q p
  | .startThread th => (s.heap.task (taskOf s.heap th)).outputQueue ≠ none ∧
      ∀ p, (s.heap.task (taskOf s.heap th)).inputQueue = some p → ¬ Q p
  | _ => True

section Statements

variable {w : World M} {i : Instr} {n bound : ℕ} {Q : ℕ → Prop}

theorem Fillable.exec {s : State} {q : ℕ} (h : Fillable s q) (i : Instr) :
    Fillable (PipelineObjects.exec i s).2 q := by
  obtain ⟨hu, -, hn, -⟩ := exec_frame i s
  exact ⟨by rw [hu]; exact h.1, h.2.trans_le hn⟩

theorem exec_items (i : Instr) (w : World M) (q : ℕ) :
    (World.exec i w).2.items q = w.items q ∨ (World.exec i w).2.items q = [] := by
  cases i with
  | newQueue capacity =>
    by_cases hx : q = w.state.heap.nextQueue
    · exact Or.inr (by simp [World.exec, hx])
    · exact Or.inl (by simp [World.exec, hx])
  | _ => exact Or.inl rfl

theorem exec_inputQueue (i : Instr) (s : State) {t : ℕ} (ht : t < s.heap.nextTask) :
    (∃ q, i = .setInputQueue t q ∧ ((exec i s).2.heap.task t).inputQueue = q) ∨
      ((exec i s).2.heap.task t).inputQueue = (s.heap.task t).inputQueue := by
  rcases exec_task i s ht with htask | ⟨q, hi, htask⟩ | ⟨q, -, htask⟩
  · right
    rw [htask]
  · left
    exact ⟨q, hi, by rw [htask]⟩
  · right
    rw [htask]

theorem exec_outputQueue (i : Instr) (s : State) {t : ℕ} (ht : t < s.heap.nextTask) :
    (∃ q, i = .setOutputQueue t q ∧ ((exec i s).2.heap.task t).outputQueue = q) ∨
      ((exec i s).2.heap.task t).outputQueue = (s.heap.task t).outputQueue := by
  rcases exec_task i s ht with htask | ⟨q, -, htask⟩ | ⟨q, hi, htask⟩
  · right
    rw [htask]
  · right
    rw [htask]
  · left
    exact ⟨q, hi, by rw [htask]⟩

inductive Moved (i : Instr) (w : World M) (th : ℕ) : Prop where
  | rests (hpc : ¬ Live ((World.exec i w).2.pc th))
  | starts (hi : i = .startThread th) (hpc : (World.exec i w).2.pc th = .looping)
    (hstate : stateOf (World.exec i w).2.state th = .started)
    (halloc : taskOf w.state.heap th < w.state.heap.nextTask)
    (htask : taskOf (World.exec i w).2.state.heap th = taskOf w.state.heap th)
  | stays (hlive : Live (w.pc th)) (hpc : (World.exec i w).2.pc th = w.pc th)
    (hflag : (World.exec i w).2.flag th = true ∨ (World.exec i w).2.flag th = w.flag th ∧
      (stateOf w.state th = .started → stateOf (World.exec i w).2.state th = .started))
    (htask : taskOf (World.exec i w).2.state.heap th = taskOf w.state.heap th)

theorem moved_same {th : ℕ} (hpc : (World.exec i w).2.pc th = w.pc th)
    (hflag : (World.exec i w).2.flag th = w.flag th)
    (hthread : (World.exec i w).2.state.heap.thread th = w.state.heap.thread th) :
    Moved i w th := by
  by_cases hl : Live (w.pc th)
  · refine .stays hl hpc (Or.inr ⟨hflag, ?_⟩) (congrArg JavaThread.task hthread)
    rw [stateOf, stateOf, hthread]
    exact id
  · exact .rests (by rwa [hpc])

theorem exec_moved (i : Instr) (w : World M) (th : ℕ) : Moved i w th := by
  cases i with
  | newThread t =>
    by_cases hx : th = w.state.heap.nextThread
    · exact .rests (by simp [World.exec, hx, Live])
    · exact moved_same (by simp [World.exec, hx]) (by simp [World.exec, hx])
        (by simp [World.exec, exec, hx])
  | startThread t =>
    by_cases hnew : (w.state.heap.thread t).state = .new
    swap
    · exact moved_same (by simp [World.exec, hnew]) rfl (by simp [World.exec, exec, hnew])
    by_cases hx : th = t
    swap
    · exact moved_same (by simp [World.exec, hx, hnew]) rfl (by simp [World.exec, exec, hx, hnew])
    subst th
    by_cases hex : Allocated w.state.heap t
    · refine .starts rfl ?_ ?_ hex.2 ?_
      · simp [World.exec, hnew, hex]
      · simp [stateOf, World.exec, exec, hnew, start_state]
      · simp [PipelineRuns.taskOf, World.exec, exec, hnew]
    · exact .rests (by simp [World.exec, hnew, hex, Live])
  | interruptThread t =>
    by_cases hx : th = t
    swap
    · refine moved_same rfl ?_ (by simp [World.exec, exec, hx])
      by_cases hnew : (w.state.heap.thread t).state = .new <;> simp [World.exec, hnew, hx]
    subst th
    by_cases hl : Live (w.pc t)
    swap
    · exact .rests hl
    refine .stays hl rfl ?_ (by simp [PipelineRuns.taskOf, World.exec, exec])
    by_cases hnew : (w.state.heap.thread t).state = .new
    · refine Or.inr ⟨by simp [World.exec, hnew], fun hst => ?_⟩
      rw [stateOf, hnew] at hst
      cases hst
    · exact Or.inl (by simp [World.exec, hnew])
  | tasksAdd k x | tasksRemove k | threadsAdd k x | threadsRemove k =>
    refine moved_same rfl rfl ?_
    simp only [World.exec, exec]
    split <;> rfl
  | _ => exact moved_same rfl rfl rfl

theorem exec_outputs (hs : Sound w) (hi : Permitted Q i w.state) (t q : ℕ)
    (h : ((World.exec i w).2.state.heap.task t).outputQueue = some q) :
    Fillable (World.exec i w).2.state q := by
  rw [World.exec_state]
  refine Fillable.exec ?_ i
  cases i with
  | newTask e =>
    by_cases hx : t = w.state.heap.nextTask
    · simp [World.exec, exec, hx] at h
    · exact hs.outputs t q (by simpa [World.exec, exec, hx] using h)
  | setInputQueue t' p =>
    refine hs.outputs t q ?_
    rw [← setInput_outputQueue]
    exact h
  | setOutputQueue t' p =>
    by_cases hx : t = t'
    · obtain ⟨p', rfl, hin⟩ := hi.1
      obtain rfl : p' = q := by simpa [World.exec, exec, hx] using h
      exact hin
    · exact hs.outputs t q (by simpa [World.exec, exec, hx] using h)
  | startThread th | tasksAdd k x | tasksRemove k | threadsAdd k x | threadsRemove k =>
    simp only [World.exec, exec] at h
    split at h <;> exact hs.outputs t q h
  | _ => exact hs.outputs t q h

theorem sound_exec (hs : Sound w) (hi : Permitted Q i w.state) :
    Sound (World.exec i w).2 := by
  obtain ⟨hu, -, hn, ht⟩ := exec_frame i w.state
  refine ⟨?_, fun q hq => ?_, exec_outputs hs hi, fun th => ?_⟩
  · rw [World.exec_state, hu]
    exact hs.entry.trans_le hn
  · rcases exec_items i w q with he | he
    · exact (hs.items q (he ▸ hq)).trans_le hn
    · exact absurd he hq
  · have hold := hs.threads th
    cases exec_moved i w th with
    | rests hpc => exact employed_resting hpc
    | starts he hpc hstate halloc htask =>
      refine ⟨fun _ _ => hstate, fun _ => ?_, fun _ => ?_, by simp [hpc]⟩
      · rw [htask]
        exact halloc.trans_le ht
      · rw [htask, World.exec_state]
        rcases exec_outputQueue i w.state halloc with ⟨q, rfl, -⟩ | hsame
        · cases he
        · subst i
          rw [hsame]
          exact hi.1
    | stays hlive hpc hflag htask =>
      rw [hpc]
      refine ⟨fun _ hf => ?_, fun _ => ?_, fun _ => ?_, fun q g hg => ?_⟩
      · rcases hflag with hset | ⟨hsame, hstate⟩
        · rw [hset] at hf
          cases hf
        · exact hstate (hold.marked hlive (hsame ▸ hf))
      · rw [htask]
        exact (hold.allocated hlive).trans_le ht
      · rw [htask, World.exec_state]
        rcases exec_outputQueue i w.state (hold.allocated hlive) with ⟨q, rfl, hq⟩ | hsame
        · obtain ⟨p, rfl, -⟩ := hi.1
          rw [hq]
          exact Option.some_ne_none p
        · rw [hsame]
          exact hold.output hlive
      · exact (hold.offering q g hg).exec i

theorem below_exec (hb : Below n w) (i : Instr) : Below n (World.exec i w).2 := by
  refine ⟨fun q f hf => ?_, fun th f hf => ?_⟩
  · rcases exec_items i w q with he | he
    · exact hb.items q f (he ▸ hf)
    · simp [he] at hf
  · cases exec_moved i w th with
    | rests hpc =>
      cases hp : (World.exec i w).2.pc th <;> simp_all [Live, Pc.inHand]
    | starts he hpc => simp [hpc, Pc.inHand] at hf
    | stays hlive hpc => exact hb.hands th f (hpc ▸ hf)

theorem sealed_exec (hs : Sound w) (hx : Sealed Q bound w) (hi : Permitted Q i w.state) :
    Sealed Q bound (World.exec i w).2 := by
  refine ⟨fun q f hf => ?_, fun th => ?_⟩
  · rcases exec_items i w q with he | he
    · exact hx.items q f (he ▸ hf)
    · simp [he] at hf
  · have hold := hx.threads th
    cases exec_moved i w th with
    | rests hpc => exact tied_resting hpc
    | starts he hpc hstate halloc htask =>
      rw [hpc, World.taskOf, htask, World.exec_state]
      refine ⟨by simp [Early], by simp, by simp, fun _ _ q hq => ?_, by simp⟩
      rcases exec_inputQueue i w.state halloc with ⟨q, rfl, -⟩ | hsame
      · cases he
      · subst i
        exact hi.2 q (hsame ▸ hq)
    | stays hlive hpc hflag htask =>
      have halloc := (hs.threads th).allocated hlive
      have hclear : (World.exec i w).2.flag th = false → w.flag th = false := by
        rcases hflag with hset | ⟨hsame, -⟩
        · simp [hset]
        · exact fun hf => hsame ▸ hf
      rw [hpc, World.taskOf, htask, World.exec_state]
      refine ⟨fun f hf hlt => ?_, fun g hg hlt q hq => ?_, hold.offering, fun hl hf q hq => ?_,
        fun q hq hf => hold.taking q hq (hclear hf)⟩
      · rcases hflag with hset | ⟨hsame, -⟩
        · exact hset
        · exact hsame.trans (hold.early f hf hlt)
      · rcases exec_outputQueue i w.state halloc with ⟨p, rfl, -⟩ | hsame
        · -- the queue that the task loses is one of the set
          obtain ⟨p', hp'⟩ := Option.ne_none_iff_exists'.mp ((hs.threads th).output hlive)
          exact absurd (hold.passed g hg hlt p' hp') (hi.2 p' hp')
        · exact hold.passed g hg hlt q (hsame ▸ hq)
      · rcases exec_inputQueue i w.state halloc with ⟨p, rfl, hp⟩ | hsame
        · exact hi q (hp ▸ hq)
        · exact hold.reading hl (hclear hf) q (hsame ▸ hq)

end Statements

section Queues

variable {w w' : World M} {n bound : ℕ} {Q : ℕ → Prop}

theorem Sound.of_items (h : Sound w) (hst : w'.state = w.state) (hpc : w'.pc = w.pc)
    (hflag : w'.flag = w.flag)
    (hitems : ∀ q, w'.items q ≠ [] → w.items q ≠ [] ∨ q < w.state.heap.nextQueue) :
    Sound w' := by
  refine ⟨by rw [hst]; exact h.entry, fun q hq => ?_, by rw [hst]; exact h.outputs, fun th => ?_⟩
  · rw [hst]
    exact (hitems q hq).elim (h.items q) id
  · rw [hst, hpc, hflag]
    exact h.threads th

theorem Sealed.of_items (h : Sealed Q bound w) (hst : w'.state = w.state) (hpc : w'.pc = w.pc)
    (hflag : w'.flag = w.flag)
    (hitems : ∀ q, ∀ f ∈ w'.items q, f ∈ w.items q ∨ bound ≤ f.number) : Sealed Q bound w' := by
  refine ⟨fun q f hf hlt => ?_, fun th => ?_⟩
  · rcases hitems q f hf with hf | hle
    · exact h.items q f hf hlt
    · omega
  · rw [World.taskOf, hst, hpc, hflag]
    exact h.threads th

theorem Below.of_items (h : Below n w) {n' : ℕ} (hle : n ≤ n') (hpc : w'.pc = w.pc)
    (hitems : ∀ q, ∀ f ∈ w'.items q, f ∈ w.items q ∨ f.number < n') : Below n' w' := by
  refine ⟨fun q f hf => ?_, fun th f hf => ?_⟩
  · exact (hitems q f hf).elim (fun hf => (h.items q f hf).trans_le hle) id
  · rw [hpc] at hf
    exact (h.hands th f hf).trans_le hle

/-- No frame moves between queues other than through a thread. -/
theorem offer_items (w : World M) (q : ℕ) (f : Frame M) (p : ℕ) :
    ∀ g ∈ (w.offer q f).items p, g ∈ w.items p ∨ p = q ∧ g = f := by
  intro g hg
  unfold World.offer at hg
  split at hg
  · by_cases hx : p = q
    · subst p
      simp only [Function.update_self, List.mem_append, List.mem_singleton] at hg
      exact hg.imp id fun hg => ⟨rfl, hg⟩
    · exact Or.inl (by simpa [hx] using hg)
  · exact Or.inl hg

theorem removeFirst_items (w : World M) (q p : ℕ) :
    ∀ g ∈ (w.removeFirst q).items p, g ∈ w.items p := by
  intro g hg
  by_cases hx : p = q
  · subst p
    exact List.mem_of_mem_tail (by simpa using hg)
  · simpa [hx] using hg

end Queues

end SealedQueues
