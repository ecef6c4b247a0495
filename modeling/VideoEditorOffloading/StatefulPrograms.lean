import Mathlib

/-! # Programs that refine a step relation

A program that changes a state, and may end with an error, takes steps of a relation if its final
state can be reached by such steps. An invariant of the relation is then one of the program. What
holds of the errors is kept beside it. Nothing here names a particular program. -/
namespace StatefulPrograms

open Relation

variable {ε σ α β : Type}

/-- The state in which a program ends, in whichever way it does. -/
def final (r : EStateM.Result ε σ α) : σ :=
  match r with
  | .ok _ s => s
  | .error _ s => s

/-- The program takes steps of `R`, and when it ends with an error `E` holds. -/
structure Takes (R : σ → σ → Prop) (E : ε → σ → Prop) (x : EStateM ε σ α) (s : σ) : Prop where
  steps : ReflTransGen R s (final (x s))
  error : ∀ e t, x s = .error e t → E e t

variable {R : σ → σ → Prop} {E : ε → σ → Prop} {x : EStateM ε σ α} {f : α → EStateM ε σ β} {s : σ}

theorem Takes.of_eq {y : EStateM ε σ α} {t : σ} (h : x s = y t) (hsteps : ReflTransGen R s t)
    (hy : Takes R E y t) : Takes R E x s := by
  constructor
  · rw [h]
    exact hsteps.trans hy.steps
  · rw [h]
    exact hy.error

theorem takes_pure (a : α) : Takes R E (pure a : EStateM ε σ α) s :=
  ⟨.refl, fun _ _ h => by cases h⟩

theorem takes_throw {e : ε} (h : E e s) : Takes R E (throw e : EStateM ε σ α) s := by
  refine ⟨.refl, ?_⟩
  intro e' t ht
  cases ht
  exact h

theorem takes_modify {g : σ → σ} (h : R s (g s)) : Takes R E (modify g : EStateM ε σ PUnit) s :=
  ⟨.single h, fun _ _ h => by cases h⟩

theorem takes_set {t : σ} (h : R s t) : Takes R E (set t : EStateM ε σ PUnit) s :=
  ⟨.single h, fun _ _ h => by cases h⟩

theorem Takes.bind (hx : Takes R E x s) (hf : ∀ a t, x s = .ok a t → Takes R E (f a) t) :
    Takes R E (x >>= f) s := by
  have hsteps := hx.steps
  cases h : x s with
  | ok a t =>
    have hbind : (x >>= f) s = f a t := by
      simp only [Bind.bind, EStateM.bind, h]
    rw [h] at hsteps
    exact .of_eq hbind hsteps (hf a t h)
  | error e t =>
    have hbind : (x >>= f) s = .error e t := by
      simp only [Bind.bind, EStateM.bind, h]
    rw [h] at hsteps
    exact .of_eq (y := throw e) hbind hsteps (takes_throw (hx.error e t h))

theorem takes_get {g : σ → EStateM ε σ β} (h : Takes R E (g s) s) : Takes R E (get >>= g) s :=
  ⟨h.steps, h.error⟩

theorem takes_ite {c : Prop} [Decidable c] {y : EStateM ε σ α} (hx : c → Takes R E x s)
    (hy : ¬ c → Takes R E y s) : Takes R E (if c then x else y) s := by
  split
  · exact hx ‹_›
  · exact hy ‹_›

theorem Takes.mono {R' : σ → σ → Prop} (h : Takes R E x s) (hR : ∀ t t', R t t' → R' t t') :
    Takes R' E x s := ⟨ReflTransGen.mono hR _ _ h.steps, h.error⟩

/-- What every step keeps holds at the end. -/
theorem Takes.invariant (h : Takes R E x s) {I : σ → Prop} (hstep : ∀ t t', R t t' → I t → I t')
    (hs : I s) : I (final (x s)) := by
  have hsteps := h.steps
  generalize final (x s) = t at hsteps
  induction hsteps with
  | refl => exact hs
  | tail _ ht ih => exact hstep _ _ ht ih

end StatefulPrograms
