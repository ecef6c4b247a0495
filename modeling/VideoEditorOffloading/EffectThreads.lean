import VideoEditorOffloading.PipelineWiring
import VideoEditorOffloading.LossyLine
import VideoEditorOffloading.TransitionSystems

/-! # The effect threads

A thread runs `LocalEffectTask.run`. Its program counter says which statement comes next and
holds the frame it has in hand. Statements of the pipeline code and of the threads interleave
in any order. -/
namespace EffectThreads

open SharedStatePrograms PipelineObjects PipelineRuns LossyLine

/-- A frame and the number under which it was submitted. No effect and no thread reads the
number. -/
structure Frame (M : Type) where
  number : ℕ
  image : M
  deriving DecidableEq, Repr

inductive Pc (M : Type) where
  | unstarted
  | looping
  | taking (queue : ℕ)
  | taken (frame : Frame M)
  | applying (frame : Frame M)
  | applied (frame : Frame M)
  | passed (frame : Frame M)
  | offering (queue : ℕ) (frame : Frame M)
  | offered
  | exited
  deriving DecidableEq, Repr

/-- History of the calls of `offer`, for specifications only. -/
inductive QueueEvent (M : Type) where
  | accepted (queue : ℕ) (frame : Frame M)
  | refused (queue : ℕ) (frame : Frame M)
  deriving DecidableEq, Repr

structure World (M : Type) where
  state : State
  items : ℕ → List (Frame M)
  capacity : ℕ → ℕ
  pc : ℕ → Pc M
  flag : ℕ → Bool
  log : List (QueueEvent M)

variable {M : Type}

@[simps -fullyApplied]
def World.setPc (w : World M) (th : ℕ) (pc : Pc M) : World M :=
  { w with pc := Function.update w.pc th pc }

@[simps -fullyApplied]
def World.leave (w : World M) (th : ℕ) : World M :=
  { w with pc := Function.update w.pc th .exited, flag := Function.update w.flag th false }

/-- `queue.offer(frame)` on a LinkedBlockingQueue. -/
def World.offer (w : World M) (q : ℕ) (f : Frame M) : World M :=
  if (w.items q).length < w.capacity q then
    { w with
      items := Function.update w.items q (w.items q ++ [f])
      log := w.log ++ [.accepted q f] }
  else { w with log := w.log ++ [.refused q f] }

@[simps -fullyApplied]
def World.removeFirst (w : World M) (q : ℕ) : World M :=
  { w with items := Function.update w.items q (w.items q).tail }

def Allocated (h : Heap) (th : ℕ) : Prop := th < h.nextThread ∧ PipelineRuns.taskOf h th < h.nextTask

instance (h : Heap) (th : ℕ) : Decidable (Allocated h th) :=
  inferInstanceAs (Decidable (_ ∧ _))

/-- The instructions of the pipeline code, with what they mean for queues and threads. A number
that no object has stands for null: such a thread ends at once. -/
def World.exec (i : Instr) (w : World M) : Reply × World M :=
  ((PipelineObjects.exec i w.state).1,
    { w with
      state := (PipelineObjects.exec i w.state).2
      items := match i with
        | .newQueue _ => Function.update w.items w.state.heap.nextQueue []
        | _ => w.items
      capacity := match i with
        | .newQueue capacity => Function.update w.capacity w.state.heap.nextQueue capacity
        | _ => w.capacity
      pc := match i with
        | .newThread _ => Function.update w.pc w.state.heap.nextThread .unstarted
        | .startThread th =>
          if (w.state.heap.thread th).state = .new then
            Function.update w.pc th
              (if Allocated w.state.heap th then .looping else .exited)
          else w.pc
        | _ => w.pc
      flag := match i with
        | .newThread _ => Function.update w.flag w.state.heap.nextThread false
        | .interruptThread th =>
          if (w.state.heap.thread th).state = .new then w.flag else Function.update w.flag th true
        | _ => w.flag })

theorem run_state {α : Type} (p : Code α) (w : World M) :
    (p.run World.state World.exec w).2.state = (call p w.state).2 := by
  induction p generalizing w with
  | done a => rfl
  | fail e => rfl
  | read k ih => exact ih _ w
  | act i k ih => exact ih _ _

def World.taskOf (w : World M) (th : ℕ) : EffectTask :=
  w.state.heap.task (PipelineRuns.taskOf w.state.heap th)

section Steps

variable (applyTo : Effect → M → M)

def onImage (effect : Effect) (f : Frame M) : Frame M := { f with image := applyTo effect f.image }

/-- The next statement of `LocalEffectTask.run`; `none` if the thread cannot move. A null
queue ends the thread with a NullPointerException. -/
def threadStep (w : World M) (th : ℕ) : Option (World M) :=
  match w.pc th with
  | .unstarted => none
  | .looping =>
    match (w.taskOf th).inputQueue with
    | some q => some (w.setPc th (.taking q))
    | none => some (w.setPc th .exited)
  | .taking q =>
    -- `take` throws at once if the flag is set, also when the queue holds frames
    if w.flag th then some (w.leave th)
    else
      match w.items q with
      | [] => none
      | f :: _ => some ((w.removeFirst q).setPc th (.taken f))
  | .taken f => some (w.setPc th (.applying f))
  | .applying f => some (w.setPc th (.applied (onImage applyTo (w.taskOf th).effect f)))
  | .applied g => if w.flag th then some (w.leave th) else some (w.setPc th (.passed g))
  | .passed g =>
    match (w.taskOf th).outputQueue with
    | some q => some (w.setPc th (.offering q g))
    | none => some (w.setPc th .exited)
  | .offering q g => some ((w.offer q g).setPc th .offered)
  | .offered => if w.flag th then some (w.leave th) else some (w.setPc th .looping)
  | .exited => none

def Pc.inHand : Pc M → List (Frame M)
  | .taken f => [f]
  | .applying f => [f]
  | .applied g => [g]
  | .passed g => [g]
  | .offering _ g => [g]
  | _ => []

/-- The frame that the thread is going to offer, if all goes well. -/
def leaving (w : World M) (th : ℕ) : List (Frame M) :=
  match w.pc th with
  | .taken f => [onImage applyTo (w.taskOf th).effect f]
  | .applying f => [onImage applyTo (w.taskOf th).effect f]
  | .applied g => [g]
  | .passed g => [g]
  | .offering _ g => [g]
  | _ => []

def contents (w : World M) : Contents ℕ ℕ (Frame M) := ⟨w.items, leaving applyTo w⟩

end Steps

theorem leaving_number (applyTo : Effect → M → M) (w : World M) (th : ℕ) :
    (leaving applyTo w th).map (·.number) = ((w.pc th).inHand).map (·.number) := by
  cases h : w.pc th <;> simp [leaving, h, Pc.inHand, onImage]

theorem leaving_eq_nil {w : World M} {th : ℕ} (applyTo : Effect → M → M)
    (h : (w.pc th).inHand = []) : leaving applyTo w th = [] := by
  have hn := leaving_number applyTo w th
  rw [h] at hn
  exact List.map_eq_nil_iff.mp hn

theorem World.exec_state (i : Instr) (w : World M) :
    (World.exec i w).2.state = (PipelineObjects.exec i w.state).2 := rfl

theorem advance_state {α : Type} {p p' : Code α} {w w' : World M}
    (h : p.advance World.state World.exec w = some (p', w')) :
    p.advance id PipelineObjects.exec w.state = some (p', w'.state) := by
  cases p with
  | done a => cases h
  | fail e => cases h
  | read k => cases h; rfl
  | act i k => cases h; rfl

@[simp] theorem World.offer_state (w : World M) (q : ℕ) (f : Frame M) :
    (w.offer q f).state = w.state := by
  unfold World.offer
  split <;> rfl

@[simp] theorem World.offer_capacity (w : World M) (q : ℕ) (f : Frame M) :
    (w.offer q f).capacity = w.capacity := by
  unfold World.offer
  split <;> rfl

@[simp] theorem World.offer_pc (w : World M) (q : ℕ) (f : Frame M) :
    (w.offer q f).pc = w.pc := by
  unfold World.offer
  split <;> rfl

@[simp] theorem World.offer_flag (w : World M) (q : ℕ) (f : Frame M) :
    (w.offer q f).flag = w.flag := by
  unfold World.offer
  split <;> rfl

structure Working (w : World M) (th : ℕ) : Prop where
  clear : w.flag th = false
  started : w.pc th ≠ .unstarted
  alive : w.pc th ≠ .exited
  input : (w.taskOf th).inputQueue ≠ none
  output : (w.taskOf th).outputQueue ≠ none
  taking : ∀ q, w.pc th = .taking q → (w.taskOf th).inputQueue = some q
  offering : ∀ q g, w.pc th = .offering q g → (w.taskOf th).outputQueue = some q

def Pc.Idle (pc : Pc M) : Prop := pc = .looping ∨ (∃ q, pc = .taking q) ∨ pc = .offered

def Retired (w : World M) (th : ℕ) : Prop :=
  w.pc th = .unstarted ∨ w.pc th = .exited ∨ w.flag th = true ∧ (w.pc th).Idle

section Steps

variable {applyTo : Effect → M → M} {w w' : World M} {th : ℕ}

/-- What a thread step does to the queues and to the frame in the thread's hand. -/
inductive Effects (applyTo : Effect → M → M) (w : World M) (th : ℕ) (w' : World M) : Prop where
  | quiet (hc : contents applyTo w' = contents applyTo w) (hlog : w'.log = w.log)
  | took (q : ℕ) (f : Frame M) (fs : List (Frame M)) (hpc : w.pc th = .taking q)
    (hflag : w.flag th = false) (hq : w.items q = f :: fs) (hh : leaving applyTo w th = [])
    (hc : contents applyTo w' =
      ((contents applyTo w).pop q).hold th [onImage applyTo (w.taskOf th).effect f])
    (hlog : w'.log = w.log)
  | gave (q : ℕ) (g : Frame M) (hpc : w.pc th = .offering q g)
    (hroom : (w.items q).length < w.capacity q) (hh : leaving applyTo w th = [g])
    (hc : contents applyTo w' = ((contents applyTo w).put q g).hold th [])
    (hlog : w'.log = w.log ++ [.accepted q g])
  | refused (q : ℕ) (g : Frame M) (hpc : w.pc th = .offering q g)
    (hfull : w.capacity q ≤ (w.items q).length) (hh : leaving applyTo w th = [g])
    (hc : contents applyTo w' = (contents applyTo w).hold th [])
    (hlog : w'.log = w.log ++ [.refused q g])
  | lost (g : Frame M)
    (hpc : w.pc th = .applied g ∧ w.flag th = true ∨
      w.pc th = .passed g ∧ (w.taskOf th).outputQueue = none)
    (hh : leaving applyTo w th = [g])
    (hc : contents applyTo w' = (contents applyTo w).hold th []) (hlog : w'.log = w.log)

/-- Inversion of `threadStep`: the statement that was executed, and what it found. -/
inductive Turn (applyTo : Effect → M → M) (w : World M) (th : ℕ) : World M → Prop where
  | readInput (q) (hpc : w.pc th = .looping) (hq : (w.taskOf th).inputQueue = some q) :
    Turn applyTo w th (w.setPc th (.taking q))
  | noInput (hpc : w.pc th = .looping) (hq : (w.taskOf th).inputQueue = none) :
    Turn applyTo w th (w.setPc th .exited)
  | wake (q) (hpc : w.pc th = .taking q) (hflag : w.flag th = true) :
    Turn applyTo w th (w.leave th)
  | take (q f fs) (hpc : w.pc th = .taking q) (hflag : w.flag th = false)
    (hq : w.items q = f :: fs) : Turn applyTo w th ((w.removeFirst q).setPc th (.taken f))
  | enter (f) (hpc : w.pc th = .taken f) : Turn applyTo w th (w.setPc th (.applying f))
  | finish (f) (hpc : w.pc th = .applying f) :
    Turn applyTo w th (w.setPc th (.applied (onImage applyTo (w.taskOf th).effect f)))
  | cut (g) (hpc : w.pc th = .applied g) (hflag : w.flag th = true) :
    Turn applyTo w th (w.leave th)
  | pass (g) (hpc : w.pc th = .applied g) (hflag : w.flag th = false) :
    Turn applyTo w th (w.setPc th (.passed g))
  | readOutput (q g) (hpc : w.pc th = .passed g) (hq : (w.taskOf th).outputQueue = some q) :
    Turn applyTo w th (w.setPc th (.offering q g))
  | noOutput (g) (hpc : w.pc th = .passed g) (hq : (w.taskOf th).outputQueue = none) :
    Turn applyTo w th (w.setPc th .exited)
  | offer (q g) (hpc : w.pc th = .offering q g) :
    Turn applyTo w th ((w.offer q g).setPc th .offered)
  | stop (hpc : w.pc th = .offered) (hflag : w.flag th = true) : Turn applyTo w th (w.leave th)
  | again (hpc : w.pc th = .offered) (hflag : w.flag th = false) :
    Turn applyTo w th (w.setPc th .looping)

theorem threadStep_turn (h : threadStep applyTo w th = some w') : Turn applyTo w th w' := by
  unfold threadStep at h
  split at h
  case h_1 | h_10 => cases h
  case h_2 hpc =>
    split at h <;> cases h
    · exact .readInput _ hpc ‹_›
    · exact .noInput hpc ‹_›
  case h_3 q hpc =>
    split at h
    case isTrue hflag => cases h; exact .wake q hpc hflag
    case isFalse hflag =>
      split at h <;> cases h
      exact .take q _ _ hpc (eq_false_of_ne_true hflag) ‹_›
  case h_4 f hpc => cases h; exact .enter f hpc
  case h_5 f hpc => cases h; exact .finish f hpc
  case h_6 g hpc =>
    split at h
    case isTrue hflag => cases h; exact .cut g hpc hflag
    case isFalse hflag => cases h; exact .pass g hpc (eq_false_of_ne_true hflag)
  case h_7 g hpc =>
    split at h <;> cases h
    · exact .readOutput _ g hpc ‹_›
    · exact .noOutput g hpc ‹_›
  case h_8 q g hpc => cases h; exact .offer q g hpc
  case h_9 hpc =>
    split at h
    case isTrue hflag => cases h; exact .stop hpc hflag
    case isFalse hflag => cases h; exact .again hpc (eq_false_of_ne_true hflag)

theorem turn_frame (h : Turn applyTo w th w') :
    w'.state = w.state ∧ w'.capacity = w.capacity ∧
      ∀ x, x ≠ th → w'.pc x = w.pc x ∧ w'.flag x = w.flag x := by
  cases h <;> simp +contextual

theorem turn_taskOf (h : Turn applyTo w th w') : w'.taskOf = w.taskOf := by
  funext x
  rw [World.taskOf, World.taskOf, (turn_frame h).1]

theorem hold_leaving (c : Contents ℕ ℕ (Frame M)) (x : ℕ) : c.hold x (c.leaving x) = c := by
  simp [Contents.hold]

theorem contents_setPc (w : World M) (th : ℕ) (pc : Pc M) :
    contents applyTo (w.setPc th pc) =
      (contents applyTo w).hold th (leaving applyTo (w.setPc th pc) th) := by
  have hl : leaving applyTo (w.setPc th pc) =
      Function.update (leaving applyTo w) th (leaving applyTo (w.setPc th pc) th) := by
    funext x
    by_cases hx : x = th
    · subst x
      simp
    · simp [leaving, World.taskOf, hx]
  simp only [contents, Contents.hold, ← hl, World.setPc_items]

theorem contents_leave (w : World M) (th : ℕ) :
    contents applyTo (w.leave th) = (contents applyTo w).hold th [] := by
  have hl : leaving applyTo (w.leave th) = Function.update (leaving applyTo w) th [] := by
    funext x
    by_cases hx : x = th
    · subst x
      simp [leaving]
    · simp [leaving, World.taskOf, hx]
  simp only [contents, Contents.hold, hl, World.leave_items]

theorem quiet_setPc {pc : Pc M}
    (h : leaving applyTo (w.setPc th pc) th = leaving applyTo w th) :
    Effects applyTo w th (w.setPc th pc) := by
  refine .quiet ?_ rfl
  rw [contents_setPc, h]
  exact hold_leaving (contents applyTo w) th

theorem quiet_leave (h : leaving applyTo w th = []) : Effects applyTo w th (w.leave th) := by
  refine .quiet ?_ rfl
  rw [contents_leave, ← h]
  exact hold_leaving (contents applyTo w) th

theorem turn_effects (h : Turn applyTo w th w') : Effects applyTo w th w' := by
  cases h with
  | readInput q hpc hq => exact quiet_setPc (by simp [leaving, hpc])
  | noInput hpc hq => exact quiet_setPc (by simp [leaving, hpc])
  | wake q hpc hflag => exact quiet_leave (by simp [leaving, hpc])
  | take q f fs hpc hflag hq =>
    refine .took q f fs hpc hflag hq (by simp [leaving, hpc]) ?_ rfl
    rw [contents_setPc]
    simp only [leaving, World.setPc_pc, Function.update_self]
    rfl
  | enter f hpc => exact quiet_setPc (by simp [leaving, hpc, World.taskOf])
  | finish f hpc => exact quiet_setPc (by simp [leaving, hpc])
  | cut g hpc hflag =>
    exact .lost g (Or.inl ⟨hpc, hflag⟩) (by simp [leaving, hpc]) (contents_leave w th) rfl
  | pass g hpc hflag => exact quiet_setPc (by simp [leaving, hpc])
  | readOutput q g hpc hq => exact quiet_setPc (by simp [leaving, hpc])
  | noOutput g hpc hq =>
    refine .lost g (Or.inr ⟨hpc, hq⟩) (by simp [leaving, hpc]) ?_ rfl
    rw [contents_setPc]
    simp [leaving]
  | offer q g hpc =>
    have hl : leaving applyTo w th = [g] := by simp [leaving, hpc]
    have hset : contents applyTo ((w.offer q g).setPc th .offered) =
        (contents applyTo (w.offer q g)).hold th [] := by
      rw [contents_setPc]
      simp [leaving]
    by_cases hroom : (w.items q).length < w.capacity q
    · refine .gave q g hpc hroom hl ?_ (by simp [World.offer, hroom])
      rw [hset, World.offer, if_pos hroom]
      rfl
    · refine .refused q g hpc (by omega) hl ?_ (by simp [World.offer, hroom])
      rw [hset, World.offer, if_neg hroom]
      rfl
  | stop hpc hflag => exact quiet_leave (by simp [leaving, hpc])
  | again hpc hflag => exact quiet_setPc (by simp [leaving, hpc])

theorem Working.congr {x : ℕ} (h : Working w x) (hf : w'.flag x = w.flag x)
    (hp : w'.pc x = w.pc x) (ht : w'.taskOf x = w.taskOf x) : Working w' x := by
  obtain ⟨h1, h2, h3, h4, h5, h6, h7⟩ := h
  constructor <;> simp only [hf, hp, ht] <;> assumption

theorem Retired.congr {x : ℕ} (h : Retired w x) (hf : w'.flag x = w.flag x)
    (hp : w'.pc x = w.pc x) : Retired w' x := by
  rw [Retired, hf, hp]
  exact h

theorem turn_working (h : Turn applyTo w th w') {x : ℕ} (hx : Working w x) : Working w' x := by
  have ht := turn_taskOf h
  rcases eq_or_ne x th with rfl | hne
  · obtain ⟨h1, h2, h3, h4, h5, h6, h7⟩ := hx
    cases h with
    | noInput hpc hq => exact absurd hq h4
    | wake q hpc hflag => simp [h1] at hflag
    | cut g hpc hflag => simp [h1] at hflag
    | noOutput g hpc hq => exact absurd hq h5
    | stop hpc hflag => simp [h1] at hflag
    | _ => constructor <;> simp_all
  · obtain ⟨hpc, hflag⟩ := (turn_frame h).2.2 x hne
    exact hx.congr hflag hpc (congrFun ht x)

theorem turn_retired (h : Turn applyTo w th w') {x : ℕ} (hx : Retired w x) : Retired w' x := by
  rcases eq_or_ne x th with rfl | hne
  · cases h <;> simp_all [Retired, Pc.Idle]
  · obtain ⟨hpc, hflag⟩ := (turn_frame h).2.2 x hne
    exact hx.congr hflag hpc

theorem turn_retired_contents (h : Turn applyTo w th w') (hr : Retired w th) :
    contents applyTo w' = contents applyTo w ∧ w'.log = w.log := by
  have hidle : leaving applyTo w th = [] := by
    rcases hr with hr | hr | ⟨-, hr | ⟨q, hr⟩ | hr⟩ <;> simp [leaving, hr]
  have hnot : ∀ q f, w.pc th ≠ .offering q f := by
    rcases hr with hr | hr | ⟨-, hr | ⟨q, hr⟩ | hr⟩ <;> simp [hr]
  cases turn_effects h with
  | quiet hc hlog => exact ⟨hc, hlog⟩
  | took q f fs hpc hflag hq hh hc hlog => simp_all [Retired]
  | gave q g hpc => exact absurd hpc (hnot q g)
  | refused q g hpc => exact absurd hpc (hnot q g)
  | lost g hpc hh => simp [hidle] at hh

end Steps

def acceptedAt (q : ℕ) (log : List (QueueEvent M)) : List (Frame M) :=
  log.filterMap fun
    | .accepted p f => if p = q then some f else none
    | .refused _ _ => none

def refusedFrames (log : List (QueueEvent M)) : List (Frame M) :=
  log.filterMap fun
    | .accepted _ _ => none
    | .refused _ f => some f

section Log

variable (q p : ℕ) (f : Frame M) (log : List (QueueEvent M))

@[simp] theorem acceptedAt_accepted :
    acceptedAt q (log ++ [.accepted p f]) = acceptedAt q log ++ if p = q then [f] else [] := by
  by_cases h : p = q <;> simp [acceptedAt, h]

@[simp] theorem acceptedAt_refused :
    acceptedAt q (log ++ [.refused p f]) = acceptedAt q log := by
  simp [acceptedAt]

@[simp] theorem refusedFrames_accepted :
    refusedFrames (log ++ [.accepted p f]) = refusedFrames log := by
  simp [refusedFrames]

@[simp] theorem refusedFrames_refused :
    refusedFrames (log ++ [.refused p f]) = refusedFrames log ++ [f] := by
  simp [refusedFrames]

end Log

end EffectThreads
