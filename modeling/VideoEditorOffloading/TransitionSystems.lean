import Mathlib

/-! # Executions of a transition system

A step is named by an event and may be impossible in a state. The steps of an execution may have
to meet a condition. Nothing here names a particular system. -/
namespace TransitionSystems

variable {σ ε : Type}

/-- Executions all of whose steps meet a condition. -/
inductive Execution (next : σ → ε → Option σ) (ok : σ → ε → Prop) (x₀ : σ) : σ → Prop where
  | refl : Execution next ok x₀ x₀
  | step {x x' e} : Execution next ok x₀ x → ok x e → next x e = some x' →
    Execution next ok x₀ x'

def runEvents (next : σ → ε → Option σ) (x : σ) (events : List ε) : Option σ :=
  events.foldlM next x

variable {next : σ → ε → Option σ} {ok : σ → ε → Prop} {x₀ x₁ x : σ}

/-- What holds first and is kept by every step that meets the condition. -/
theorem Execution.invariant (h : Execution next ok x₀ x) {P : σ → Prop} (h₀ : P x₀)
    (hstep : ∀ x x' e, ok x e → next x e = some x' → P x → P x') : P x := by
  induction h with
  | refl => exact h₀
  | step _ hok hnext ih => exact hstep _ _ _ hok hnext ih

theorem Execution.weaken {ok' : σ → ε → Prop} {I : σ → Prop} (h : Execution next ok x₀ x)
    (h₀ : I x₀) (hstep : ∀ x x' e, I x → next x e = some x' → ok x e → ok' x e ∧ I x') :
    Execution next ok' x₀ x ∧ I x := by
  induction h with
  | refl => exact ⟨.refl, h₀⟩
  | step _ hok hnext ih =>
    obtain ⟨hok', hI⟩ := hstep _ _ _ ih.2 hnext hok
    exact ⟨ih.1.step hok' hnext, hI⟩

theorem Execution.append {events : List ε} (h₁ : Execution next ok x₀ x₁)
    (hok : ∀ e ∈ events, ∀ y, ok y e) (h : runEvents next x₁ events = some x) :
    Execution next ok x₀ x := by
  induction events generalizing x₁ with
  | nil =>
    cases h
    exact h₁
  | cons e events ih =>
    obtain ⟨y, hy, hx⟩ := Option.bind_eq_some_iff.mp h
    exact ih (h₁.step (hok e List.mem_cons_self _) hy)
      (fun e' he' => hok e' (List.mem_cons_of_mem _ he')) hx

theorem Execution.checked {check : σ → ε → Bool} (hcheck : ∀ y e, check y e = true → ok y e)
    {events : List ε} (h₁ : Execution next ok x₀ x₁)
    (h : runEvents (fun y e => if check y e then next y e else none) x₁ events = some x) :
    Execution next ok x₀ x := by
  induction events generalizing x₁ with
  | nil =>
    cases h
    exact h₁
  | cons e events ih =>
    obtain ⟨y, hy, hx⟩ := Option.bind_eq_some_iff.mp h
    obtain ⟨hok, hnext⟩ := Option.ite_none_right_eq_some.mp hy
    exact ih (h₁.step (hcheck x₁ e hok) hnext) hx

theorem Execution.along {check : σ → ε → Bool} {events : List ε}
    (hcheck : ∀ e ∈ events, ∀ y, check y e = true → ok y e) (h₁ : Execution next ok x₀ x₁)
    (h : runEvents (fun y e => if check y e then next y e else none) x₁ events = some x) :
    Execution next ok x₀ x := by
  induction events generalizing x₁ with
  | nil =>
    cases h
    exact h₁
  | cons e events ih =>
    obtain ⟨y, hy, hx⟩ := Option.bind_eq_some_iff.mp h
    obtain ⟨hok, hnext⟩ := Option.ite_none_right_eq_some.mp hy
    exact ih (fun e' he' => hcheck e' (List.mem_cons_of_mem _ he'))
      (h₁.step (hcheck e List.mem_cons_self x₁ hok) hnext) hx

end TransitionSystems
