import VideoEditorOffloading.SharedStatePrograms

/-! # The objects behind a Pipeline

Java references are numbers handed out by counters, fields of task and thread objects live in
a heap. The fields of the `Pipeline` itself are kept apart: effect threads never read them. -/
namespace PipelineObjects

open SharedStatePrograms

/-- The concrete subclasses of `Effect`. -/
inductive EffectClass where
  | blur
  | colorSaturation
  | drawing
  | edgeDetection
  | gradientMagnitude
  | grayscale
  | horizontalFlip
  | houghCircle
  | houghLine
  | identity
  | motionHistory
  | negative
  | seamCarve
  | sepia
  | verticalFlip
  | xray
  deriving DecidableEq, Repr

structure Effect where
  ref : ℕ
  cls : EffectClass
  deriving DecidableEq, Repr

/-- A `LocalEffectTask`. Both queues are null until somebody sets them. -/
structure EffectTask where
  effect : Effect
  inputQueue : Option ℕ := none
  outputQueue : Option ℕ := none
  deriving DecidableEq, Repr

/-- What the pipeline code can bring about for a thread. Interrupting a thread that has not
been started has no effect, so `interrupted` means interrupted after its start. -/
inductive ThreadState where
  | new
  | started
  | interrupted
  deriving DecidableEq, Repr

structure JavaThread where
  task : ℕ
  state : ThreadState
  deriving DecidableEq, Repr

def JavaThread.start (thread : JavaThread) : JavaThread :=
  if thread.state = .new then { thread with state := .started } else thread

def JavaThread.interrupt (thread : JavaThread) : JavaThread :=
  if thread.state = .started then { thread with state := .interrupted } else thread

@[simp] theorem JavaThread.start_task (thread : JavaThread) : thread.start.task = thread.task := by
  unfold JavaThread.start
  split <;> rfl

@[simp] theorem JavaThread.interrupt_task (thread : JavaThread) :
    thread.interrupt.task = thread.task := by
  unfold JavaThread.interrupt
  split <;> rfl

structure Heap where
  task : ℕ → EffectTask
  thread : ℕ → JavaThread
  nextEffect : ℕ
  nextTask : ℕ
  nextThread : ℕ
  nextQueue : ℕ

structure Pipeline where
  unprocessedFrameQueue : ℕ
  processedFrameQueue : ℕ
  running : Bool
  effectThreads : List ℕ
  effectTasks : List ℕ
  deriving DecidableEq, Repr

structure State where
  heap : Heap
  pipe : Pipeline

namespace ArrayList

/-- `ArrayList.get`, `remove` and `add(index, _)`; `none` stands for IndexOutOfBoundsException. -/
def get (l : List ℕ) (index : ℤ) : Option ℕ :=
  if index < 0 then none else l[index.toNat]?

def remove (l : List ℕ) (index : ℤ) : Option (ℕ × List ℕ) :=
  (get l index).map fun x => (x, l.eraseIdx index.toNat)

def add (l : List ℕ) (index : ℤ) (x : ℕ) : Option (List ℕ) :=
  if index < 0 ∨ (l.length : ℤ) < index then none else some (l.insertIdx index.toNat x)

end ArrayList

/-- One statement of the Java code that changes something. -/
inductive Instr where
  | newEffect (cls : EffectClass)
  | newTask (effect : Effect)
  | newQueue (capacity : ℕ)
  | newThread (task : ℕ)
  | setInputQueue (task : ℕ) (queue : Option ℕ)
  | setOutputQueue (task : ℕ) (queue : Option ℕ)
  | startThread (thread : ℕ)
  | interruptThread (thread : ℕ)
  | tasksAppend (task : ℕ)
  | tasksAdd (index : ℤ) (task : ℕ)
  | tasksRemove (index : ℤ)
  | tasksClear
  | threadsAppend (thread : ℕ)
  | threadsAdd (index : ℤ) (thread : ℕ)
  | threadsRemove (index : ℤ)
  | threadsClear
  | setRunning (running : Bool)
  deriving DecidableEq, Repr

inductive JavaException where
  | indexOutOfBounds
  | illegalThreadState
  deriving DecidableEq, Repr

inductive Reply where
  | unit
  | ref (id : ℕ)
  | thrown (e : JavaException)
  deriving DecidableEq, Repr

@[simps -fullyApplied]
def Heap.setInput (h : Heap) (t : ℕ) (queue : Option ℕ) : Heap :=
  { h with task := Function.update h.task t { h.task t with inputQueue := queue } }

@[simps -fullyApplied]
def Heap.setOutput (h : Heap) (t : ℕ) (queue : Option ℕ) : Heap :=
  { h with task := Function.update h.task t { h.task t with outputQueue := queue } }

@[simps -fullyApplied]
def Heap.newTask (h : Heap) (e : Effect) : Heap :=
  { h with
    task := Function.update h.task h.nextTask ⟨e, none, none⟩
    nextTask := h.nextTask + 1 }

@[simps -fullyApplied]
def Heap.newEffect (h : Heap) : Heap := { h with nextEffect := h.nextEffect + 1 }

@[simps -fullyApplied]
def Heap.newQueue (h : Heap) : Heap := { h with nextQueue := h.nextQueue + 1 }

@[simps -fullyApplied]
def Heap.newThread (h : Heap) (t : ℕ) : Heap :=
  { h with
    thread := Function.update h.thread h.nextThread ⟨t, .new⟩
    nextThread := h.nextThread + 1 }

@[simps -fullyApplied]
def Heap.start (h : Heap) (th : ℕ) : Heap :=
  { h with thread := Function.update h.thread th (h.thread th).start }

@[simps -fullyApplied]
def Heap.interrupt (h : Heap) (th : ℕ) : Heap :=
  { h with thread := Function.update h.thread th (h.thread th).interrupt }

def State.setTasks (s : State) (l : List ℕ) : State :=
  { s with pipe := { s.pipe with effectTasks := l } }

def State.setThreads (s : State) (l : List ℕ) : State :=
  { s with pipe := { s.pipe with effectThreads := l } }

def exec : Instr → State → Reply × State
  | .newEffect _, s => (.ref s.heap.nextEffect, { s with heap := s.heap.newEffect })
  | .newTask e, s => (.ref s.heap.nextTask, { s with heap := s.heap.newTask e })
  | .newQueue _, s => (.ref s.heap.nextQueue, { s with heap := s.heap.newQueue })
  | .newThread t, s => (.ref s.heap.nextThread, { s with heap := s.heap.newThread t })
  | .setInputQueue t q, s => (.unit, { s with heap := s.heap.setInput t q })
  | .setOutputQueue t q, s => (.unit, { s with heap := s.heap.setOutput t q })
  | .startThread th, s =>
    if (s.heap.thread th).state = .new then
      (.unit, { s with heap := s.heap.start th })
    else (.thrown .illegalThreadState, s)
  | .interruptThread th, s => (.unit, { s with heap := s.heap.interrupt th })
  | .tasksAppend t, s => (.unit, s.setTasks (s.pipe.effectTasks ++ [t]))
  | .tasksAdd i t, s =>
    match ArrayList.add s.pipe.effectTasks i t with
    | some l => (.unit, s.setTasks l)
    | none => (.thrown .indexOutOfBounds, s)
  | .tasksRemove i, s =>
    match ArrayList.remove s.pipe.effectTasks i with
    | some (t, l) => (.ref t, s.setTasks l)
    | none => (.thrown .indexOutOfBounds, s)
  | .tasksClear, s => (.unit, s.setTasks [])
  | .threadsAppend th, s => (.unit, s.setThreads (s.pipe.effectThreads ++ [th]))
  | .threadsAdd i th, s =>
    match ArrayList.add s.pipe.effectThreads i th with
    | some l => (.unit, s.setThreads l)
    | none => (.thrown .indexOutOfBounds, s)
  | .threadsRemove i, s =>
    match ArrayList.remove s.pipe.effectThreads i with
    | some (th, l) => (.ref th, s.setThreads l)
    | none => (.thrown .indexOutOfBounds, s)
  | .threadsClear, s => (.unit, s.setThreads [])
  | .setRunning b, s => (.unit, { s with pipe := { s.pipe with running := b } })

abbrev Code := Program State Instr Reply JavaException

def void (i : Instr) : Code Unit :=
  .act i fun
    | .thrown e => .fail e
    | _ => .done ()

/-- An expression that evaluates to a reference. -/
def ref (i : Instr) : Code ℕ :=
  .act i fun
    | .ref n => .done n
    | .thrown e => .fail e
    | .unit => .done 0

/-- An expression that only reads. -/
def field {α : Type} (f : State → α) : Code α := .read fun s => .done (f s)

def effectTasksGet (index : ℤ) : Code ℕ :=
  .read fun s =>
    match ArrayList.get s.pipe.effectTasks index with
    | some t => .done t
    | none => .fail .indexOutOfBounds

/-- A call that nothing interleaves with. -/
abbrev call {α : Type} (p : Code α) (s : State) : Except JavaException α × State :=
  p.run id exec s

end PipelineObjects
