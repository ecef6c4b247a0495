import Mathlib

/-! # Programs over a shared state

A method body is a tree of atomic steps: reads of the shared state and instructions that
change it. The tree is run alone (`run`) or one step at a time between the steps of others
(`advance`). `Guarded` is the rule for the second case: what others may do in between is the
rely, what each instruction finds is the guarantee. Nothing here names a particular state,
instruction set or program. -/
namespace SharedStatePrograms

/-- `read` sees the state at the moment of the step, `act` gets the reply of its instruction. -/
inductive Program (σ π ρ ε α : Type) where
  | done (a : α)
  | fail (e : ε)
  | read (k : σ → Program σ π ρ ε α)
  | act (i : π) (k : ρ → Program σ π ρ ε α)

variable {σ π ρ ε α β ω : Type}

namespace Program

def bind : Program σ π ρ ε α → (α → Program σ π ρ ε β) → Program σ π ρ ε β
  | .done a, f => f a
  | .fail e, _ => .fail e
  | .read k, f => .read fun s => (k s).bind f
  | .act i k, f => .act i fun r => (k r).bind f

instance : Monad (Program σ π ρ ε) where
  pure := .done
  bind := bind

@[simp] theorem pure_eq (a : α) : (pure a : Program σ π ρ ε α) = .done a := rfl
@[simp] theorem bind_eq (p : Program σ π ρ ε α) (f : α → Program σ π ρ ε β) :
    p >>= f = p.bind f := rfl
@[simp] theorem done_bind (a : α) (f : α → Program σ π ρ ε β) :
    (Program.done a).bind f = f a := rfl
@[simp] theorem fail_bind (e : ε) (f : α → Program σ π ρ ε β) :
    (Program.fail e).bind f = .fail e := rfl
@[simp] theorem read_bind (k : σ → Program σ π ρ ε α) (f : α → Program σ π ρ ε β) :
    (Program.read k).bind f = .read fun s => (k s).bind f := rfl
@[simp] theorem act_bind (i : π) (k : ρ → Program σ π ρ ε α) (f : α → Program σ π ρ ε β) :
    (Program.act i k).bind f = .act i fun r => (k r).bind f := rfl

/-- Runs a program without interference. The state is returned also when the program fails. -/
def run (view : ω → σ) (exec : π → ω → ρ × ω) :
    Program σ π ρ ε α → ω → Except ε α × ω
  | .done a, w => (.ok a, w)
  | .fail e, w => (.error e, w)
  | .read k, w => (k (view w)).run view exec w
  | .act i k, w => (k (exec i w).1).run view exec (exec i w).2

variable {view : ω → σ} {exec : π → ω → ρ × ω}

@[simp] theorem run_done (a : α) (w : ω) :
    (Program.done a : Program σ π ρ ε α).run view exec w = (.ok a, w) := rfl
@[simp] theorem run_fail (e : ε) (w : ω) :
    (Program.fail e : Program σ π ρ ε α).run view exec w = (.error e, w) := rfl
@[simp] theorem run_read (k : σ → Program σ π ρ ε α) (w : ω) :
    (Program.read k).run view exec w = (k (view w)).run view exec w := rfl
@[simp] theorem run_act (i : π) (k : ρ → Program σ π ρ ε α) (w : ω) :
    (Program.act i k).run view exec w = (k (exec i w).1).run view exec (exec i w).2 := rfl

theorem run_bind (p : Program σ π ρ ε α) (f : α → Program σ π ρ ε β) (w : ω) :
    (p.bind f).run view exec w =
      match p.run view exec w with
      | (.ok a, v) => (f a).run view exec v
      | (.error e, v) => (.error e, v) := by
  induction p generalizing w with
  | done a => rfl
  | fail e => rfl
  | read k ih => exact ih (view w) w
  | act i k ih => exact ih (exec i w).1 (exec i w).2

/-- The form in which the result of one method is used inside the next one. -/
theorem run_bind_of_ok {p : Program σ π ρ ε α} {f : α → Program σ π ρ ε β} {w v : ω} {a : α}
    (h : p.run view exec w = (.ok a, v)) :
    (p.bind f).run view exec w = (f a).run view exec v := by
  rw [run_bind, h]

def advance (view : ω → σ) (exec : π → ω → ρ × ω) :
    Program σ π ρ ε α → ω → Option (Program σ π ρ ε α × ω)
  | .done _, _ => none
  | .fail _, _ => none
  | .read k, w => some (k (view w), w)
  | .act i k, w => some (k (exec i w).1, (exec i w).2)

/-- Steps one by one and without interference lead where `run` leads. -/
theorem run_advance {p p' : Program σ π ρ ε α} {w w' : ω}
    (h : p.advance view exec w = some (p', w')) :
    p'.run view exec w' = p.run view exec w := by
  cases p with
  | done a => cases h
  | fail e => cases h
  | read k => cases h; rfl
  | act i k => cases h; rfl

end Program

section Guarded

variable (exec : π → σ → ρ × σ) (rely : σ → σ → Prop) (guar : π → σ → Prop)

/-- Whatever others do within `rely` before each step, every instruction that is executed
meets `guar` in the state it finds, and a result meets `post`. -/
def Guarded (post : α → σ → Prop) : Program σ π ρ ε α → σ → Prop
  | .done a, s => post a s
  | .fail _, _ => True
  | .read k, s => ∀ t, rely s t → Guarded post (k t) t
  | .act i k, s => ∀ t, rely s t → guar i t ∧ Guarded post (k (exec i t).1) (exec i t).2

variable {exec rely guar}

section Sequential

variable {post : α → σ → Prop} {s : σ}

@[simp] theorem guarded_done (a : α) :
    Guarded exec rely guar post (.done a : Program σ π ρ ε α) s ↔ post a s := Iff.rfl

@[simp] theorem guarded_fail (e : ε) :
    Guarded exec rely guar post (.fail e : Program σ π ρ ε α) s ↔ True := Iff.rfl

/-- The relation `Eq` as rely: nobody interferes. -/
@[simp] theorem guarded_read (k : σ → Program σ π ρ ε α) :
    Guarded exec Eq guar post (.read k) s ↔ Guarded exec Eq guar post (k s) s :=
  ⟨fun h => h s rfl, fun h _ ht => ht ▸ h⟩

@[simp] theorem guarded_act (i : π) (k : ρ → Program σ π ρ ε α) :
    Guarded exec Eq guar post (.act i k) s ↔
      guar i s ∧ Guarded exec Eq guar post (k (exec i s).1) (exec i s).2 :=
  ⟨fun h => h s rfl, fun h _ ht => ht ▸ h⟩

end Sequential

theorem guarded_mono {post post' : α → σ → Prop} (hpost : ∀ a s, post a s → post' a s)
    {p : Program σ π ρ ε α} {s : σ} (h : Guarded exec rely guar post p s) :
    Guarded exec rely guar post' p s := by
  induction p generalizing s with
  | done a => exact hpost a s h
  | fail e => trivial
  | read k ih => exact fun t ht => ih t (h t ht)
  | act i k ih => exact fun t ht => ⟨(h t ht).1, ih _ (h t ht).2⟩

theorem guarded_bind {post : β → σ → Prop} {p : Program σ π ρ ε α} {f : α → Program σ π ρ ε β}
    {s : σ} (h : Guarded exec rely guar (fun a t => Guarded exec rely guar post (f a) t) p s) :
    Guarded exec rely guar post (p.bind f) s := by
  induction p generalizing s with
  | done a => exact h
  | fail e => trivial
  | read k ih => exact fun t ht => ih t (h t ht)
  | act i k ih => exact fun t ht => ⟨(h t ht).1, ih _ (h t ht).2⟩

/-- Without interference, what comes second starts where the first part ends. -/
theorem guarded_bind_run {post : β → σ → Prop} {p : Program σ π ρ ε α}
    {f : α → Program σ π ρ ε β} {s t : σ} {a : α}
    (hp : Guarded exec Eq guar (fun _ _ => True) p s) (hr : p.run id exec s = (.ok a, t))
    (hf : Guarded exec Eq guar post (f a) t) : Guarded exec Eq guar post (p.bind f) s := by
  induction p generalizing s with
  | done b =>
    cases hr
    exact hf
  | fail e => trivial
  | read k ih =>
    rintro _ rfl
    exact ih s (hp s rfl) hr
  | act i k ih =>
    rintro _ rfl
    exact ⟨(hp s rfl).1, ih _ (hp s rfl).2 hr⟩

theorem guarded_forM {ι : Type} {f : ι → Program σ π ρ ε PUnit} {inv : σ → Prop} {l : List ι}
    (hf : ∀ x ∈ l, ∀ s, inv s → Guarded exec rely guar (fun _ t => inv t) (f x) s) {s : σ}
    (hs : inv s) :
    Guarded exec rely guar (fun _ t => inv t) (l.forM f) s := by
  induction l generalizing s with
  | nil => exact hs
  | cons x l ih =>
    rw [List.forM_eq_forM, List.forM_cons]
    refine guarded_bind (guarded_mono ?_ (hf x List.mem_cons_self s hs))
    exact fun _ t ht => ih (fun y hy => hf y (List.mem_cons_of_mem _ hy)) ht

/-- A step of a guarded program, after others may have interfered. -/
theorem guarded_advance {post : α → σ → Prop} {p p' : Program σ π ρ ε α} {s t t' : σ}
    (h : Guarded exec rely guar post p s) (hst : rely s t)
    (hstep : p.advance id exec t = some (p', t')) : Guarded exec rely guar post p' t' := by
  cases p with
  | done a => cases hstep
  | fail e => cases hstep
  | read k => cases hstep; exact h t hst
  | act i k => cases hstep; exact (h t hst).2

end Guarded

end SharedStatePrograms
