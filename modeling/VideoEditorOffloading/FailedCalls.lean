import VideoEditorOffloading.EffectMirror
import VideoEditorOffloading.EffectPositions

/-! # Effect edits whose call over the network fails

The client has changed its own pipeline before the call is made, and nothing takes the change
back. -/
namespace FailedCalls

open SharedStatePrograms PipelineObjects PipelineOperations PipelineOperationSpecs PipelineRuns
  EffectThreadLine EffectPositions ServerProtocol EffectMirror

/-- What a call can throw: the checked exception of the protocol, or one of a connection that is
not there. -/
inductive RpcException where
  | avroRemote
  | unchecked
  deriving DecidableEq, Repr

inductive Outcome where
  | answered
  | thrown (e : RpcException)
  deriving DecidableEq, Repr

/-- A call that throws has not reached the server. -/
def rpc (x : Link) (m : Message) : Outcome → Except RpcException Unit × Link
  | .answered => (.ok (), { x with server := (call (respond m) x.server).2 })
  | .thrown e => (.error e, x)

def Link.edited (x : Link) (code : Code Unit) : Link :=
  { x with client := { x.client with pipeline := (call code x.client.pipeline).2 } }

/-- `FrameProcessor.addEffect`. Its try block catches every exception. -/
def addEffect (x : Link) (effect : ℕ) (o : Outcome) : Except RpcException Unit × Link :=
  let x' := Link.edited x (PipelineOperations.addEffect effect)
  if x'.client.useCloud && x'.client.cloudClient then
    match cloudCall (x.client.pipeline.heap.task effect).effect.cls with
    | some m =>
      match rpc x' m o with
      | (.error _, y) => (.ok (), y)
      | (.ok (), y) => (.ok (), y)
    | none => (.ok (), x')
  else (.ok (), x')

/-- `FrameProcessor.clearEffects`. Its try block catches `AvroRemoteException` only. -/
def clearEffects (x : Link) (o : Outcome) : Except RpcException Unit × Link :=
  let x' := Link.edited x PipelineOperations.clearEffects
  if x'.client.useCloud && x'.client.cloudClient then
    match rpc x' CloudClient.clearEffects o with
    | (.error .avroRemote, y) => (.ok (), y)
    | r => r
  else (.ok (), x')

inductive EffectCall where
  | addEffect (effect : ℕ)
  | clearEffects
  deriving DecidableEq, Repr

def EffectCall.perform (x : Link) : EffectCall → Outcome → Except RpcException Unit × Link
  | .addEffect effect, o => FailedCalls.addEffect x effect o
  | .clearEffects, o => FailedCalls.clearEffects x o

/-- The task exists, and the method makes a call over the network. The identity effect is not
sent. -/
def EffectCall.Sends (x : Link) : EffectCall → Prop
  | .addEffect effect => effect < x.client.pipeline.heap.nextTask ∧
      (cloudCall (x.client.pipeline.heap.task effect).effect.cls).isSome
  | .clearEffects => True

section Answered

variable (x : Link) (cls : EffectClass)

def Link.newTask : Link :=
  { x with client := { x.client with pipeline :=
    ⟨x.client.pipeline.heap.newEffect.newTask ⟨x.client.pipeline.heap.nextEffect, cls⟩,
      x.client.pipeline.pipe⟩ } }

theorem addEffect_answered :
    FailedCalls.addEffect (Link.newTask x cls) x.client.pipeline.heap.nextTask .answered =
      (.ok (), EffectMirror.addEffect x cls) := by
  have hcls : ((Link.newTask x cls).client.pipeline.heap.task
      x.client.pipeline.heap.nextTask).effect.cls = cls := by simp [Link.newTask]
  have hlocal : call (PipelineOperations.addEffect x.client.pipeline.heap.nextTask)
      (Link.newTask x cls).client.pipeline = call (addNewEffect cls) x.client.pipeline := by
    simp [addNewEffect, ref, PipelineObjects.exec, Link.newTask]
  unfold FailedCalls.addEffect EffectMirror.addEffect
  simp only [hcls, Link.edited, hlocal]
  cases hm : cloudCall cls <;> cases hu : x.client.useCloud <;> cases hc : x.client.cloudClient <;>
    simp [Link.newTask, rpc, EffectMirror.Link.send, hu, hc]

theorem clearEffects_answered :
    FailedCalls.clearEffects x .answered = (.ok (), EffectMirror.clearEffects x) := by
  cases hu : x.client.useCloud <;> cases hc : x.client.cloudClient <;>
    simp [FailedCalls.clearEffects, EffectMirror.clearEffects, EffectMirror.Link.send,
      Link.edited, rpc, hu, hc]

end Answered

section Failures

variable {x : Link} {e : RpcException}

theorem sends_visible {cls : EffectClass} : (cloudCall cls).isSome ↔ cls ≠ .identity := by
  cases cls <;> simp [cloudCall]

theorem getEffects_addEffect {s : State} (hs : Shape s) {t : ℕ} (ht : t < s.heap.nextTask) :
    effectsOf (call (PipelineOperations.addEffect t) s).2 =
      effectsOf s ++ [(s.heap.task t).effect] := by
  obtain ⟨m, hm, hc, htasks⟩ := addEffect_change hs.length t
  rw [hm, effectsOf, restarted_pipe, htasks, effects_kept hc, List.map_append]
  · rfl
  · intro x hx
    rcases List.mem_append.mp hx with hx | hx
    · exact hs.tasks_allocated x hx
    · rw [List.mem_singleton.mp hx]
      exact ht

theorem shown_addEffect {s : State} (hs : Shape s) {t : ℕ} (ht : t < s.heap.nextTask)
    (hcls : (s.heap.task t).effect.cls ≠ .identity) :
    shownClasses (call (PipelineOperations.addEffect t) s).2 =
      shownClasses s ++ [(s.heap.task t).effect.cls] := by
  rw [shownClasses, getEffects_eq, getEffects_addEffect hs ht, List.filter_append]
  simp [visible, hcls, shownClasses, getEffects_eq]

theorem shown_clearEffects (s : State) :
    shownClasses (call PipelineOperations.clearEffects s).2 = [] := by
  obtain ⟨h, uq, pq, r, ths, ts⟩ := s
  rw [call_clearEffects, shownClasses, getEffects_eq, effectsOf, restarted_pipe,
    (restarted_heap _).1]
  simp [visible]

theorem addEffect_thrown {effect : ℕ} (hu : x.client.useCloud = true)
    (hc : x.client.cloudClient = true)
    (hm : (cloudCall (x.client.pipeline.heap.task effect).effect.cls).isSome) :
    FailedCalls.addEffect x effect (.thrown e) =
      (.ok (), Link.edited x (PipelineOperations.addEffect effect)) := by
  obtain ⟨m, hm⟩ := Option.isSome_iff_exists.mp hm
  simp [FailedCalls.addEffect, Link.edited, rpc, hu, hc, hm]

theorem clearEffects_thrown (hu : x.client.useCloud = true) (hc : x.client.cloudClient = true) :
    FailedCalls.clearEffects x (.thrown e) =
      (if e = .avroRemote then .ok () else .error e,
        Link.edited x PipelineOperations.clearEffects) := by
  cases e <;> simp [FailedCalls.clearEffects, Link.edited, rpc, hu, hc]

/-- After a failed call client and server still agree only if there was nothing to clear. -/
theorem failed_call_agrees_iff (hs : Shape x.client.pipeline) (hu : x.client.useCloud = true)
    (hc : x.client.cloudClient = true)
    (hagree : shownClasses x.client.pipeline = shownClasses x.server) {c : EffectCall}
    (hsends : c.Sends x) :
    shownClasses (c.perform x (.thrown e)).2.client.pipeline =
        shownClasses (c.perform x (.thrown e)).2.server ↔
      c = .clearEffects ∧ shownClasses x.client.pipeline = [] := by
  cases c with
  | addEffect effect =>
    obtain ⟨hlt, hm⟩ := hsends
    rw [EffectCall.perform, addEffect_thrown hu hc hm]
    simp only [Link.edited, shown_addEffect hs hlt (sends_visible.mp hm), ← hagree]
    simp
  | clearEffects =>
    rw [EffectCall.perform, clearEffects_thrown hu hc]
    simp only [Link.edited, shown_clearEffects, ← hagree]
    simp [eq_comm]

def newLink : Link :=
  Link.newTask ⟨⟨newPipeline, true, true⟩, (newServer : Server ℕ ℕ).world.state⟩ .sepia

theorem newLink_shape : Shape newLink.client.pipeline := (holds_newTask new_holds _).shape

theorem failed_clear_agrees :
    shownClasses (EffectCall.clearEffects.perform newLink (.thrown .unchecked)).2.client.pipeline =
      shownClasses (EffectCall.clearEffects.perform newLink (.thrown .unchecked)).2.server := by
  have hsends : EffectCall.clearEffects.Sends newLink := trivial
  exact (failed_call_agrees_iff newLink_shape rfl rfl rfl hsends).mpr ⟨rfl, rfl⟩

theorem failed_add_disagrees :
    ¬ ∀ (x : Link) (c : EffectCall) (e : RpcException), Shape x.client.pipeline →
      x.client.useCloud = true → x.client.cloudClient = true →
      shownClasses x.client.pipeline = shownClasses x.server → c.Sends x →
      shownClasses (c.perform x (.thrown e)).2.client.pipeline =
        shownClasses (c.perform x (.thrown e)).2.server := by
  intro hall
  have hsends : (EffectCall.addEffect 1).Sends newLink := by
    constructor <;> decide
  have hagree := hall newLink (.addEffect 1) .avroRemote newLink_shape rfl rfl rfl hsends
  rw [EffectCall.perform, addEffect_thrown rfl rfl hsends.2] at hagree
  exact absurd hagree (by decide)

end Failures

end FailedCalls
