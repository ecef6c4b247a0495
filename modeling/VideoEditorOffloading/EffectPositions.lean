import VideoEditorOffloading.EffectThreadLine
import VideoEditorOffloading.PipelineReference

/-! # Two numberings of the effects

`getEffects` leaves the identity stages out, the editing methods count them. -/
namespace EffectPositions

open PipelineObjects PipelineOperations PipelineOperationSpecs PipelineRuns PipelineReference
  EffectThreadLine ListPositions

def visible (e : Effect) : Bool := e.cls ≠ .identity

theorem getEffects_eq (s : State) : getEffects s = (effectsOf s).filter visible := rfl

section Steps

variable {s m : State} {l : List ℕ} {kind : Kind}

theorem effects_kept (hc : Change s l kind m) {ts : List ℕ} (hts : ∀ t ∈ ts, t < s.heap.nextTask) :
    (ts.map fun t => (m.heap.task t).effect) = ts.map fun t => (s.heap.task t).effect := by
  apply List.map_congr_left
  intro t ht
  exact (change_effect hc).1 t (hts t ht)

theorem getEffects_removeEffect (hs : Shape s) {i : ℕ} (hi : i < s.pipe.effectTasks.length) :
    getEffects (step s (.removeEffect i)) = ((effectsOf s).eraseIdx i).filter visible := by
  obtain ⟨m, a, hm, hc, -, hedit, -⟩ :=
    removeEffect_change hs.length (Int.natCast_nonneg i) (by exact_mod_cast hi)
  have hstep : step s (.removeEffect i) = m := congrArg Prod.snd hm
  rw [hstep, getEffects_eq]
  split at hedit
  · next h₁ =>
    -- the only stage makes room for an identity stage
    obtain ⟨ht, -, hid⟩ := hedit
    have hnone : (effectsOf s).eraseIdx i = [] := by
      apply List.eq_nil_of_length_eq_zero
      rw [List.length_eraseIdx_of_lt (by simpa [effectsOf] using hi)]
      simp [effectsOf, h₁]
    rw [hnone, effectsOf, ht]
    simp [visible, hid]
  · obtain ⟨ht, -⟩ := hedit
    rw [Int.toNat_natCast] at ht
    rw [effectsOf, ht, effects_kept hc, effectsOf, List.eraseIdx_map]
    intro t hmem
    exact hs.tasks_allocated t (List.mem_of_mem_eraseIdx hmem)

theorem getEffects_addEffectAt (hs : Shape s) {j t : ℕ} (hj : j ≤ s.pipe.effectTasks.length)
    (ht : t < s.heap.nextTask) :
    getEffects (step s (.addEffectAt j t)) =
      ((effectsOf s).insertIdx j (s.heap.task t).effect).filter visible := by
  obtain ⟨m, hm, hc, htasks⟩ := addEffectAt_change hs.length (Int.natCast_nonneg j) t
  have hstep : step s (.addEffectAt j t) = m := congrArg Prod.snd hm
  rw [Int.toNat_natCast, min_eq_left hj] at htasks
  rw [hstep, getEffects_eq, effectsOf, htasks, effects_kept hc, effectsOf, List.map_insertIdx]
  intro x hx
  rcases List.eq_or_mem_of_mem_insertIdx hx with rfl | hx
  · exact ht
  · exact hs.tasks_allocated x hx

end Steps

/-- Removing and inserting at a position of the list that `getEffects` returns does to that list
what it says. -/
def SamePositions (s : State) : Prop :=
  (∀ i : ℕ, i < (getEffects s).length →
    getEffects (step s (.removeEffect i)) = (getEffects s).eraseIdx i) ∧
  ∀ j : ℕ, j ≤ (getEffects s).length → ∀ t < s.heap.nextTask, t ∉ s.pipe.effectTasks →
    (s.heap.task t).effect.cls ≠ .identity →
    getEffects (step s (.addEffectAt j t)) = (getEffects s).insertIdx j (s.heap.task t).effect

theorem shown_le (s : State) : (getEffects s).length ≤ s.pipe.effectTasks.length := by
  have hle := List.length_filter_le visible (effectsOf s)
  rwa [← getEffects_eq, effectsOf, List.length_map] at hle

def stagesHeap : Heap :=
  { sampleHeap with task := fun t => ⟨⟨t, if t = 0 then .identity else .sepia⟩, none, none⟩ }

theorem stages_arguments : Arguments stagesHeap 0 1 [0] := by
  constructor <;> simp [stagesHeap, sampleHeap]

/-- Positions mean the same for the caller and for the pipeline exactly as long as no identity
stage stands before another effect. -/
theorem same_positions_iff {h : Heap} {uq pq : ℕ} {effects : List ℕ} {ops : List Op} {s : State}
    (hr : Reachable h uq pq effects ops s) :
    SamePositions s ↔ VisibleFirst visible (effectsOf s) := by
  have hs := hr.shape
  have hle := shown_le s
  constructor
  · rintro ⟨hremove, -⟩
    apply visibleFirst_of_erase
    intro i hi
    rw [← getEffects_removeEffect hs (hi.trans_le hle)]
    exact hremove i hi
  · intro hv
    constructor
    · intro i hi
      rw [getEffects_removeEffect hs (hi.trans_le hle), hv.filter_eraseIdx hi]
      rfl
    · intro j hj t ht _ hvis
      rw [getEffects_addEffectAt hs (hj.trans hle) ht, hv.filter_insertIdx hj (by simpa [visible])]
      rfl

theorem same_positions_front : SamePositions (after (built stagesHeap 0 1 [0]) [.addEffectAt 0 1]) :=
  (same_positions_iff ⟨stages_arguments, run_after (by decide)⟩).mpr (by decide)

/-- Behind the identity stage it is shown at position 0, and removing position 0 leaves it. -/
theorem hidden_stage_removed :
    ¬ ∀ h uq pq effects ops s, Reachable h uq pq effects ops s → SamePositions s := by
  intro hall
  have hreach : Reachable stagesHeap 0 1 [0] [.addEffect 1]
      (after (built stagesHeap 0 1 [0]) [.addEffect 1]) :=
    ⟨stages_arguments, run_after (by decide)⟩
  have hremove := (hall _ _ _ _ _ _ hreach).1 0 (by decide)
  exact absurd hremove (by decide)

end EffectPositions
