import VideoEditorOffloading.EffectExclusion

/-! # An interrupt of an effect thread

One thread runs `LocalEffectTask.run` from its start. Everybody else does what they like, as long
as they leave the thread's program counter and its flag alone. An interrupt comes at any time. -/
namespace InterruptedThreads

open SharedStatePrograms PipelineObjects EffectThreads

/-- A world, and what one thread has done so far: the frames that it has taken, those that it has
offered, accepted or not, and the number of its steps. -/
structure Watch (M : Type) where
  world : World M
  taken : List (Frame M)
  offered : List (Frame M)
  turns : ℕ

/-- `other` is a step of somebody else. -/
inductive Event (M : Type) where
  | turn
  | interrupt
  | other (world : World M)

variable {M : Type}

def justTaken : Pc M → List (Frame M)
  | .taken f => [f]
  | _ => []

/-- The frame has passed the first check for an interrupt, and its `offer` is still to come. -/
def due : Pc M → List (Frame M)
  | .passed g => [g]
  | .offering _ g => [g]
  | _ => []

def beingOffered : Pc M → List (Frame M)
  | .offering _ g => [g]
  | _ => []

def Watch.turn (th : ℕ) (s : Watch M) (w : World M) : Watch M where
  world := w
  taken := s.taken ++ justTaken (w.pc th)
  offered := s.offered ++ beingOffered (s.world.pc th)
  turns := s.turns + 1

def Watch.interrupt (th : ℕ) (s : Watch M) : Watch M :=
  { s with world := { s.world with flag := Function.update s.world.flag th true } }

section Runs

variable (answer : ℕ → M → M) (th : ℕ)

/-- What the effect returns when this thread calls it for the frame that it took last. The effect
may answer every call in another way. -/
def call (s : Watch M) : Effect → M → M := fun _ => answer (s.taken.length - 1)

def next (s : Watch M) : Event M → Option (Watch M)
  | .turn => (threadStep (call answer s) s.world th).map (s.turn th)
  | .interrupt => some (s.interrupt th)
  | .other w => some { s with world := w }

def Permitted (s : Watch M) : Event M → Prop
  | .other w => w.pc th = s.world.pc th ∧ w.flag th = s.world.flag th
  | _ => True

abbrev Run (s s' : Watch M) : Prop :=
  TransitionSystems.Execution (next answer th) (Permitted th) s s'

def images (frames : List (Frame M)) : List (Frame M) :=
  frames.mapIdx fun n f => { f with image := answer n f.image }

/-- How `s'` may differ from `s` when the thread has been interrupted at `s`. -/
structure HandsOver (s s' : Watch M) : Prop where
  takes_none : s'.taken = s.taken
  offers_held : s'.offered = s.offered ∨
    ∃ g, (s.world.pc th = .passed g ∨ ∃ q, s.world.pc th = .offering q g) ∧
      s'.offered = s.offered ++ [g]
  leaves : s'.world.pc th = .exited ∨
    s'.turns < s.turns + 3 ∧ ∃ s'', next answer th s' .turn = some s''

end Runs

section Steps

variable {applyTo : Effect → M → M} {w w' : World M} {th : ℕ}

inductive Deed (applyTo : Effect → M → M) (w : World M) (th : ℕ) (w' : World M) : Prop where
  | worked (hpc : w'.pc th ≠ .exited) (htaken : justTaken (w'.pc th) = [])
    (hoffered : beingOffered (w.pc th) = [])
    (hl : leaving applyTo w' th = leaving applyTo w th)
  | took (f : Frame M) (hpc : w'.pc th = .taken f) (hoffered : beingOffered (w.pc th) = [])
    (hl : leaving applyTo w th = [])
  | offered (q : ℕ) (g : Frame M) (hpc : w.pc th = .offering q g) (hpc' : w'.pc th = .offered)
  | left (hpc : w'.pc th = .exited) (hoffered : beingOffered (w.pc th) = [])

theorem turn_deed (h : Turn applyTo w th w') : Deed applyTo w th w' := by
  cases h with
  | readInput q hpc hq =>
    exact .worked (by simp) (by simp [justTaken]) (by simp [beingOffered, hpc])
      (by simp [leaving, hpc])
  | noInput hpc hq => exact .left (by simp) (by simp [beingOffered, hpc])
  | wake q hpc hflag => exact .left (by simp) (by simp [beingOffered, hpc])
  | take q f fs hpc hflag hq =>
    exact .took f (by simp) (by simp [beingOffered, hpc]) (by simp [leaving, hpc])
  | enter f hpc =>
    exact .worked (by simp) (by simp [justTaken]) (by simp [beingOffered, hpc])
      (by simp [leaving, hpc, World.taskOf])
  | finish f hpc =>
    exact .worked (by simp) (by simp [justTaken]) (by simp [beingOffered, hpc])
      (by simp [leaving, hpc])
  | cut g hpc hflag => exact .left (by simp) (by simp [beingOffered, hpc])
  | pass g hpc hflag =>
    exact .worked (by simp) (by simp [justTaken]) (by simp [beingOffered, hpc])
      (by simp [leaving, hpc])
  | readOutput q g hpc hq =>
    exact .worked (by simp) (by simp [justTaken]) (by simp [beingOffered, hpc])
      (by simp [leaving, hpc])
  | noOutput g hpc hq => exact .left (by simp) (by simp [beingOffered, hpc])
  | offer q g hpc => exact .offered q g hpc (by simp)
  | stop hpc hflag => exact .left (by simp) (by simp [beingOffered, hpc])
  | again hpc hflag =>
    exact .worked (by simp) (by simp [justTaken]) (by simp [beingOffered, hpc])
      (by simp [leaving, hpc])

theorem turn_started (h : Turn applyTo w th w') :
    w.pc th ≠ .exited ∧ w'.pc th ≠ .unstarted := by
  cases h <;> simp_all

theorem leaving_cases (applyTo : Effect → M → M) (w : World M) (th : ℕ) :
    leaving applyTo w th = [] ∨ ∃ g, leaving applyTo w th = [g] := by
  unfold leaving
  cases w.pc th <;> simp

def turnsLeft : Pc M → ℕ
  | .looping => 2
  | .taking _ => 1
  | .taken _ => 3
  | .applying _ => 2
  | .applied _ => 1
  | .passed _ => 3
  | .offering _ _ => 2
  | .offered => 1
  | _ => 0

theorem turnsLeft_le (pc : Pc M) : turnsLeft pc ≤ 3 := by
  cases pc <;> simp [turnsLeft]

theorem turnsLeft_pos {pc : Pc M} (hstarted : pc ≠ .unstarted) (halive : pc ≠ .exited) :
    0 < turnsLeft pc := by
  cases pc <;> simp_all [turnsLeft]

theorem prefix_due {pc : Pc M} {l : List (Frame M)} (h : l <+: due pc) :
    l = [] ∨ ∃ g, (pc = .passed g ∨ ∃ q, pc = .offering q g) ∧ l = [g] := by
  cases pc with
  | passed g =>
    rcases List.prefix_cons_iff.mp h with rfl | ⟨l', rfl, hl⟩
    · exact Or.inl rfl
    · exact Or.inr ⟨g, Or.inl rfl, by rw [List.prefix_nil.mp hl]⟩
  | offering q g =>
    rcases List.prefix_cons_iff.mp h with rfl | ⟨l', rfl, hl⟩
    · exact Or.inl rfl
    · exact Or.inr ⟨g, Or.inr ⟨q, rfl⟩, by rw [List.prefix_nil.mp hl]⟩
  | _ => exact Or.inl (List.prefix_nil.mp h)

theorem interrupt_flag (s : Watch M) (th : ℕ) : (s.interrupt th).world.flag th = true := by
  simp only [Watch.interrupt, Function.update_self]

/-- No statement takes the interrupt away without leaving the loop. -/
theorem interrupted_turn (h : Turn applyTo w th w') (hflag : w.flag th = true) :
    justTaken (w'.pc th) = [] ∧ turnsLeft (w'.pc th) < turnsLeft (w.pc th) ∧
      (w'.pc th = .exited ∧ beingOffered (w.pc th) = [] ∨
        w'.flag th = true ∧ beingOffered (w.pc th) ++ due (w'.pc th) = due (w.pc th)) := by
  cases h with
  | readInput q hpc hq => simp [hpc, hflag, justTaken, turnsLeft, beingOffered, due]
  | noInput hpc hq => simp [hpc, justTaken, turnsLeft, beingOffered]
  | wake q hpc => simp [hpc, justTaken, turnsLeft, beingOffered]
  | take q f fs hpc hclear => exact absurd (hflag.symm.trans hclear) (by decide)
  | enter f hpc => simp [hpc, hflag, justTaken, turnsLeft, beingOffered, due]
  | finish f hpc => simp [hpc, hflag, justTaken, turnsLeft, beingOffered, due]
  | cut g hpc => simp [hpc, justTaken, turnsLeft, beingOffered]
  | pass g hpc hclear => exact absurd (hflag.symm.trans hclear) (by decide)
  | readOutput q g hpc hq => simp [hpc, hflag, justTaken, turnsLeft, beingOffered, due]
  | noOutput g hpc hq => simp [hpc, justTaken, turnsLeft, beingOffered]
  | offer q g hpc => simp [hpc, hflag, justTaken, turnsLeft, beingOffered, due]
  | stop hpc => simp [hpc, justTaken, turnsLeft, beingOffered]
  | again hpc hclear => exact absurd (hflag.symm.trans hclear) (by decide)

theorem interrupted_moves (applyTo : Effect → M → M) (hflag : w.flag th = true)
    (hstarted : w.pc th ≠ .unstarted) (halive : w.pc th ≠ .exited) :
    ∃ w', threadStep applyTo w th = some w' := by
  unfold threadStep
  cases hpc : w.pc th with
  | unstarted => exact absurd hpc hstarted
  | looping => cases (w.taskOf th).inputQueue <;> exact ⟨_, rfl⟩
  | taking q => exact ⟨_, if_pos hflag⟩
  | taken f => exact ⟨_, rfl⟩
  | applying f => exact ⟨_, rfl⟩
  | applied g => exact ⟨_, if_pos hflag⟩
  | passed g => cases (w.taskOf th).outputQueue <;> exact ⟨_, rfl⟩
  | offering q g => exact ⟨_, rfl⟩
  | offered => exact ⟨_, if_pos hflag⟩
  | exited => exact absurd hpc halive

end Steps

section Accounts

variable {answer : ℕ → M → M} {th : ℕ} {s s₀ s' : Watch M} {w : World M}

theorem images_concat (frames : List (Frame M)) (f : Frame M) :
    images answer (frames ++ [f]) =
      images answer frames ++ [{ f with image := answer frames.length f.image }] := by
  rw [images, images, List.mapIdx_concat]

theorem images_dropLast (frames : List (Frame M)) :
    images answer frames.dropLast = (images answer frames).dropLast := by
  rcases List.eq_nil_or_concat frames with rfl | ⟨rest, f, rfl⟩
  · rfl
  · rw [List.concat_eq_append, images_concat, List.dropLast_concat, List.dropLast_concat]

structure Recorded (answer : ℕ → M → M) (th : ℕ) (s : Watch M) : Prop where
  started : s.world.pc th ≠ .unstarted
  working : s.world.pc th ≠ .exited →
    s.offered ++ leaving (call answer s) s.world th = images answer s.taken
  exited : s.world.pc th = .exited →
    s.offered = images answer s.taken ∨ s.offered = images answer s.taken.dropLast

theorem Recorded.accounted (h : Recorded answer th s) :
    s.offered = images answer s.taken ∨ s.offered = images answer s.taken.dropLast := by
  by_cases hpc : s.world.pc th = .exited
  · exact h.exited hpc
  · have haccount := h.working hpc
    rcases leaving_cases (call answer s) s.world th with hl | ⟨g, hl⟩
    · left
      rw [← haccount, hl, List.append_nil]
    · right
      rw [images_dropLast, ← haccount, hl, List.dropLast_concat]

theorem recorded_turn (hs : Recorded answer th s) (h : Turn (call answer s) s.world th w) :
    Recorded answer th (s.turn th w) := by
  obtain ⟨halive, hstarted⟩ := turn_started h
  have haccount := hs.working halive
  have haccounted := hs.accounted
  cases turn_deed h with
  | worked hpc htaken hoffered hl =>
    have hcall : call answer (s.turn th w) = call answer s := by
      unfold call
      simp only [Watch.turn, htaken, List.append_nil]
    constructor
    · exact hstarted
    · intro _
      rw [hcall]
      simp only [Watch.turn, htaken, hoffered, hl, List.append_nil]
      exact haccount
    · intro hexited
      exact absurd hexited hpc
  | took f hpc hoffered hl =>
    rw [hl, List.append_nil] at haccount
    constructor
    · exact hstarted
    · intro _
      simp only [Watch.turn, hpc, justTaken, hoffered, leaving, call, onImage, images_concat,
        List.append_nil, List.length_append, List.length_singleton, Nat.add_sub_cancel]
      rw [haccount]
    · intro hexited
      exact absurd (hpc.symm.trans hexited) (by simp)
  | offered q g hpc hpc' =>
    have hl : leaving (call answer s) s.world th = [g] := by simp only [leaving, hpc]
    rw [hl] at haccount
    constructor
    · exact hstarted
    · intro _
      simp only [Watch.turn, hpc, hpc', justTaken, beingOffered, leaving, List.append_nil]
      exact haccount
    · intro hexited
      exact absurd (hpc'.symm.trans hexited) (by simp)
  | left hpc hoffered =>
    constructor
    · exact hstarted
    · intro hne
      exact absurd hpc hne
    · intro _
      simp only [Watch.turn, hpc, justTaken, hoffered, List.append_nil]
      exact haccounted

theorem recorded_other (hs : Recorded answer th s) (hpc : w.pc th = s.world.pc th) :
    Recorded answer th { s with world := w } := by
  have hl : leaving (call answer s) w th = leaving (call answer s) s.world th := by
    unfold leaving
    rw [hpc]
    rfl
  constructor
  · rw [hpc]
    exact hs.started
  · intro hne
    rw [hpc] at hne
    rw [← hs.working hne, ← hl]
    rfl
  · intro hexited
    rw [hpc] at hexited
    exact hs.exited hexited

theorem recorded_next {e : Event M} (hs : Recorded answer th s) (hok : Permitted th s e)
    (h : next answer th s e = some s') : Recorded answer th s' := by
  cases e with
  | turn =>
    obtain ⟨w, hw, rfl⟩ := Option.map_eq_some_iff.mp h
    exact recorded_turn hs (threadStep_turn hw)
  | interrupt =>
    cases h
    exact recorded_other hs rfl
  | other w =>
    cases h
    exact recorded_other hs hok.1

end Accounts

section Interrupts

variable {answer : ℕ → M → M} {th : ℕ} {s₀ s s' : Watch M} {w : World M}

structure Interrupted (th : ℕ) (s₀ s : Watch M) : Prop where
  started : s.world.pc th ≠ .unstarted
  taken : s.taken = s₀.taken
  turns : s.turns + turnsLeft (s.world.pc th) ≤ s₀.turns + 3
  offered : ∃ l, s.offered = s₀.offered ++ l ∧
    (s.world.pc th = .exited ∧ l <+: due (s₀.world.pc th) ∨
      s.world.flag th = true ∧ l ++ due (s.world.pc th) = due (s₀.world.pc th))

theorem interrupted_first (hstarted : s.world.pc th ≠ .unstarted) :
    Interrupted th s (s.interrupt th) := by
  constructor
  · exact hstarted
  · rfl
  · apply Nat.add_le_add_left
    exact turnsLeft_le (s.world.pc th)
  · exact ⟨[], (List.append_nil _).symm, Or.inr ⟨interrupt_flag s th, rfl⟩⟩

theorem interrupted_next {e : Event M} (hs : Interrupted th s₀ s) (hok : Permitted th s e)
    (h : next answer th s e = some s') : Interrupted th s₀ s' := by
  obtain ⟨hstarted, htaken, hturns, l, hl, hoffered⟩ := hs
  cases e with
  | turn =>
    obtain ⟨w, hw, rfl⟩ := Option.map_eq_some_iff.mp h
    have hturn := threadStep_turn hw
    have hrest := hoffered.resolve_left fun hexited => (turn_started hturn).1 hexited.1
    obtain ⟨hnone, hless, hcases⟩ := interrupted_turn hturn hrest.1
    constructor
    · exact (turn_started hturn).2
    · simp only [Watch.turn, hnone, List.append_nil]
      exact htaken
    · simp only [Watch.turn]
      omega
    · refine ⟨l ++ beingOffered (s.world.pc th), ?_, ?_⟩
      · simp only [Watch.turn, hl, List.append_assoc]
      · rcases hcases with ⟨hexited, hnot⟩ | ⟨hflag, hdue⟩
        · left
          rw [hnot, List.append_nil]
          exact ⟨hexited, _, hrest.2⟩
        · right
          rw [← hrest.2, ← hdue, List.append_assoc]
          exact ⟨hflag, rfl⟩
  | interrupt =>
    cases h
    refine ⟨hstarted, htaken, hturns, l, hl, hoffered.imp_right ?_⟩
    rintro ⟨-, hdue⟩
    exact ⟨interrupt_flag s th, hdue⟩
  | other w =>
    cases h
    obtain ⟨hpc, hflag⟩ := hok
    constructor
    · rwa [hpc]
    · exact htaken
    · rwa [hpc]
    · refine ⟨l, hl, ?_⟩
      rwa [hpc, hflag]

theorem interrupted_handsOver (hs : Interrupted th s₀ s) : HandsOver answer th s₀ s := by
  obtain ⟨hstarted, htaken, hturns, l, hl, hoffered⟩ := hs
  constructor
  · exact htaken
  · have hprefix : l <+: due (s₀.world.pc th) := by
      rcases hoffered with ⟨-, hprefix⟩ | ⟨-, hdue⟩
      · exact hprefix
      · exact ⟨_, hdue⟩
    rcases prefix_due hprefix with rfl | ⟨g, hpc, rfl⟩
    · left
      rw [hl, List.append_nil]
    · right
      exact ⟨g, hpc, hl⟩
  · by_cases hexited : s.world.pc th = .exited
    · exact Or.inl hexited
    · right
      have hflag := (hoffered.resolve_left fun h => hexited h.1).1
      have hleft := turnsLeft_pos hstarted hexited
      obtain ⟨w, hw⟩ := interrupted_moves (call answer s) hflag hstarted hexited
      constructor
      · omega
      · exact ⟨s.turn th w, Option.map_eq_some_iff.mpr ⟨w, hw, rfl⟩⟩

/-- An interrupted thread hands over cleanly: it takes no frame any more, offers the frame in its
hand only if it had passed the check for an interrupt, and leaves its loop after at most three
steps, none of which it has to wait for. What it has offered in a run are always the images of
what it has taken, except perhaps for the last one. -/
theorem interrupted_thread_hands_over (answer : ℕ → M → M) (th : ℕ) (w : World M)
    (hpc : w.pc th = .looping) (s : Watch M) (hs : Run answer th ⟨w, [], [], 0⟩ s) :
    (s.offered = images answer s.taken ∨ s.offered = images answer s.taken.dropLast) ∧
      ∀ s', Run answer th (s.interrupt th) s' → HandsOver answer th s s' := by
  have hstart : Recorded answer th ⟨w, [], [], 0⟩ := by
    constructor
    · simp [hpc]
    · simp [hpc, leaving, images]
    · simp [hpc]
  have hrecorded : Recorded answer th s :=
    hs.invariant hstart fun x x' e hok hnext hx => recorded_next hx hok hnext
  refine ⟨hrecorded.accounted, ?_⟩
  intro s' hs'
  apply interrupted_handsOver
  exact hs'.invariant (interrupted_first hrecorded.started)
    fun x x' e hok hnext hx => interrupted_next hx hok hnext

def waitingWorld : World ℕ :=
  { EffectThreadLine.sampleWorld with items := fun q => if q = 0 then [⟨0, 7⟩, ⟨1, 9⟩] else [] }

/-- An interrupt between the check and the `offer` of the first frame, and what becomes of it. -/
theorem thread_hands_over_after_check :
    ∃ s s', Run (fun n m => m + n + 1) 0 ⟨waitingWorld, [], [], 0⟩ s ∧
      Run (fun n m => m + n + 1) 0 (s.interrupt 0) s' ∧
      s.world.pc 0 = .passed ⟨0, 8⟩ ∧ s'.world.pc 0 = .exited ∧
      s'.taken = [⟨0, 7⟩] ∧ s'.offered = [⟨0, 8⟩] ∧
      (s.offered = images (fun n m => m + n + 1) s.taken ∨
        s.offered = images (fun n m => m + n + 1) s.taken.dropLast) ∧
      HandsOver (fun n m => m + n + 1) 0 s s' := by
  have hfirst : ∃ s, TransitionSystems.runEvents (next (fun n m => m + n + 1) 0)
      ⟨waitingWorld, [], [], 0⟩ (List.replicate 5 (Event.turn)) = some s ∧
      s.world.pc 0 = .passed ⟨0, 8⟩ ∧ ∃ s', TransitionSystems.runEvents
        (next (fun n m => m + n + 1) 0) (s.interrupt 0) (List.replicate 3 (Event.turn)) = some s' ∧
        s'.world.pc 0 = .exited ∧ s'.taken = [⟨0, 7⟩] ∧ s'.offered = [⟨0, 8⟩] :=
    ⟨_, rfl, rfl, _, rfl, rfl, rfl, rfl⟩
  obtain ⟨s, hs, hpc, s', hs', hexited, htaken, hoffered⟩ := hfirst
  have hrun : Run (fun n m => m + n + 1) 0 ⟨waitingWorld, [], [], 0⟩ s :=
    .append .refl (by simp [Permitted]) hs
  have hrun' : Run (fun n m => m + n + 1) 0 (s.interrupt 0) s' :=
    .append .refl (by simp [Permitted]) hs'
  obtain ⟨haccounted, hover⟩ := interrupted_thread_hands_over (fun n m => m + n + 1) 0
    waitingWorld rfl s hrun
  exact ⟨s, s', hrun, hrun', hpc, hexited, htaken, hoffered, haccounted, hover s' hrun'⟩

end Interrupts

section Callers

variable {w w' : World M} {th : ℕ} {effect : Effect}

structure Begun (w : World M) (th : ℕ) (effect : Effect) : Prop where
  allocated : Allocated w.state.heap th
  started : (w.state.heap.thread th).state ≠ .new
  effect_eq : (w.taskOf th).effect = effect

theorem exec_effect (i : Instr) (s : State) {t : ℕ} (ht : t < s.heap.nextTask) :
    ((exec i s).2.heap.task t).effect = (s.heap.task t).effect := by
  rcases PipelineRuns.exec_task i s ht with htask | ⟨q, -, htask⟩ | ⟨q, -, htask⟩ <;> rw [htask]

theorem interrupt_started {thread : JavaThread} (h : thread.state ≠ .new) :
    thread.interrupt.state ≠ .new := by
  unfold JavaThread.interrupt
  split
  · simp
  · exact h

theorem exec_thread (i : Instr) (s : State) {th : ℕ} (hth : th < s.heap.nextThread)
    (hstarted : (s.heap.thread th).state ≠ .new) :
    th < (exec i s).2.heap.nextThread ∧ ((exec i s).2.heap.thread th).state ≠ .new ∧
      ((exec i s).2.heap.thread th).task = (s.heap.thread th).task := by
  cases i with
  | newThread t =>
    have hnew : (exec (.newThread t) s).2.heap.thread th = s.heap.thread th := by
      simp [exec, hth.ne]
    rw [hnew]
    exact ⟨hth.trans (Nat.lt_succ_self _), hstarted, rfl⟩
  | startThread x =>
    by_cases hnew : (s.heap.thread x).state = .new
    · have hne : th ≠ x := by
        rintro rfl
        exact hstarted hnew
      simp [exec, hnew, hne, hth, hstarted]
    · simp [exec, hnew, hth, hstarted]
  | interruptThread x =>
    by_cases hx : th = x
    · subst hx
      simp [exec, hth, interrupt_started hstarted]
    · simp [exec, hx, hth, hstarted]
  | tasksAdd k x | tasksRemove k | threadsAdd k x | threadsRemove k =>
    simp only [exec]
    split <;> exact ⟨hth, hstarted, rfl⟩
  | _ => exact ⟨hth, hstarted, rfl⟩

theorem exec_pc (i : Instr) (hth : th < w.state.heap.nextThread)
    (hstarted : (w.state.heap.thread th).state ≠ .new) :
    (World.exec i w).2.pc th = w.pc th ∧
      ((World.exec i w).2.flag th = w.flag th ∨ (World.exec i w).2.flag th = true) := by
  cases i with
  | newThread t => simp [World.exec, hth.ne]
  | startThread x =>
    by_cases hnew : (w.state.heap.thread x).state = .new
    · have hne : th ≠ x := by
        rintro rfl
        exact hstarted hnew
      simp [World.exec, hnew, hne]
    · simp [World.exec, hnew]
  | interruptThread x =>
    by_cases hx : th = x
    · subst hx
      simp [World.exec, hstarted]
    · refine ⟨rfl, Or.inl ?_⟩
      simp only [World.exec]
      split
      · rfl
      · exact Function.update_of_ne hx true w.flag
  | _ => exact ⟨rfl, Or.inl rfl⟩

theorem Begun.exec (h : Begun w th effect) (i : Instr) :
    Begun (World.exec i w).2 th effect := by
  obtain ⟨hth, hstarted, htask⟩ := exec_thread i w.state h.allocated.1 h.started
  have hsame : PipelineRuns.taskOf (World.exec i w).2.state.heap th =
      PipelineRuns.taskOf w.state.heap th := htask
  constructor
  · constructor
    · exact hth
    · rw [hsame]
      exact h.allocated.2.trans_le (PipelineRuns.exec_frame i w.state).2.2.2
  · exact hstarted
  · rw [World.taskOf, hsame, World.exec_state, exec_effect i w.state h.allocated.2]
    exact h.effect_eq

theorem Begun.congr (h : Begun w th effect) (hstate : w'.state = w.state) :
    Begun w' th effect := by
  obtain ⟨hallocated, hstarted, heffect⟩ := h
  constructor
  · rwa [hstate]
  · rwa [hstate]
  · rwa [World.taskOf, hstate]

theorem Begun.threadStep_eq {applyTo : Effect → M → M} (h : Begun w th effect) :
    threadStep applyTo w th = threadStep (fun _ => applyTo effect) w th := by
  unfold threadStep
  rw [← h.effect_eq]
  rfl

variable {answer : ℕ → M → M} {s₀ s : Watch M}

theorem run_other (hrun : Run answer th s₀ s) (hpc : w.pc th = s.world.pc th)
    (hflag : w.flag th = s.world.flag th) : ∃ s', Run answer th s₀ s' ∧ s'.world = w := by
  have hok : Permitted th s (.other w) := ⟨hpc, hflag⟩
  exact ⟨{ s with world := w }, hrun.step hok rfl, rfl⟩

theorem run_exec (hrun : Run answer th s₀ s) (hbegun : Begun s.world th effect) (i : Instr) :
    ∃ s', Run answer th s₀ s' ∧ s'.world = (World.exec i s.world).2 := by
  obtain ⟨hpc, hflag | hflag⟩ := exec_pc i hbegun.allocated.1 hbegun.started
  · exact run_other hrun hpc hflag
  · have hinterrupt : Run answer th s₀ (s.interrupt th) :=
      hrun.step (e := .interrupt) trivial rfl
    apply run_other hinterrupt
    · exact hpc
    · rw [hflag, interrupt_flag]

/-- One step of a caller and its threads, as steps of one thread and of somebody else. -/
theorem caller_next {applyTo : Effect → M → M} {x x' : EffectExclusion.Caller M}
    {e : EffectExclusion.Event M} (hbegun : Begun x.world th effect)
    (hrun : Run (fun _ => applyTo effect) th s₀ s) (hworld : s.world = x.world)
    (h : EffectExclusion.next applyTo x e = some x') :
    Begun x'.world th effect ∧
      ∃ s', Run (fun _ => applyTo effect) th s₀ s' ∧ s'.world = x'.world := by
  obtain ⟨world, code⟩ := x
  obtain rfl : s.world = world := hworld
  cases e with
  | call op =>
    simp only [EffectExclusion.next] at h
    split at h <;> cases h
    exact ⟨hbegun, s, hrun, rfl⟩
  | statement =>
    obtain ⟨⟨p, w⟩, hstep, rfl⟩ := Option.map_eq_some_iff.mp h
    cases code with
    | done a => cases hstep
    | fail e => cases hstep
    | read k =>
      cases hstep
      exact ⟨hbegun, s, hrun, rfl⟩
    | act i k =>
      cases hstep
      exact ⟨hbegun.exec i, run_exec hrun hbegun i⟩
  | thread y =>
    obtain ⟨w, hw, rfl⟩ := Option.map_eq_some_iff.mp h
    refine ⟨hbegun.congr (turn_frame (threadStep_turn hw)).1, ?_⟩
    rcases eq_or_ne th y with rfl | hne
    · rw [hbegun.threadStep_eq] at hw
      have hnext : next (fun _ => applyTo effect) th s .turn = some (s.turn th w) :=
        Option.map_eq_some_iff.mpr ⟨w, hw, rfl⟩
      exact ⟨s.turn th w, hrun.step (e := .turn) trivial hnext, rfl⟩
    · obtain ⟨hpc, hflag⟩ := (turn_frame (threadStep_turn hw)).2.2 th hne
      exact run_other hrun hpc hflag
  | produce f =>
    cases h
    constructor
    · apply hbegun.congr
      simp
    · apply run_other hrun <;> simp
  | consume =>
    cases h
    exact ⟨hbegun.congr rfl, run_other hrun rfl rfl⟩

/-- Every execution of the pipeline operations and of all threads, in any order, is a run of each
thread that has been started. -/
theorem execution_run {applyTo : Effect → M → M} {ok : EffectExclusion.Caller M →
      EffectExclusion.Event M → Prop} {x₀ x : EffectExclusion.Caller M}
    (hbegun : Begun x₀.world th effect) (h : EffectExclusion.Execution applyTo ok x₀ x) :
    ∃ s, Run (fun _ => applyTo effect) th ⟨x₀.world, [], [], 0⟩ s ∧ s.world = x.world := by
  have hall : Begun x.world th effect ∧
      ∃ s, Run (fun _ => applyTo effect) th ⟨x₀.world, [], [], 0⟩ s ∧ s.world = x.world := by
    apply h.invariant
    · exact ⟨hbegun, _, .refl, rfl⟩
    · rintro y y' e - hnext ⟨hy, s, hs, hworld⟩
      exact caller_next hy hs hworld hnext
  exact hall.2

end Callers

end InterruptedThreads
