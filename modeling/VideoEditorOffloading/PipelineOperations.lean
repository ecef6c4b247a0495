import VideoEditorOffloading.PipelineObjects

/-! # The methods of Pipeline

Each method is the sequence of its statements, so that it can also be run step by step between
the steps of the effect threads. -/
namespace PipelineOperations

open SharedStatePrograms PipelineObjects

def startIfNew (thread : ℕ) : Code Unit := do
  let state ← field fun s => (s.heap.thread thread).state
  if state = .new then
    void (.startThread thread)

def start : Code Unit := do
  let effectThreads ← field (·.pipe.effectThreads)
  effectThreads.forM startIfNew
  void (.setRunning true)

def stop : Code Unit := do
  let effectThreads ← field (·.pipe.effectThreads)
  effectThreads.forM fun thread => void (.interruptThread thread)
  void (.setRunning false)

def createThread (effectTask : ℕ) : Code Unit := do
  let thread ← ref (.newThread effectTask)
  void (.threadsAppend thread)

def createThreads : Code Unit := do
  let wasRunning ← field (·.pipe.running)
  stop
  void .threadsClear
  let effectTasks ← field (·.pipe.effectTasks)
  effectTasks.forM createThread
  if wasRunning then
    start

/-- The end of every edit: `if (running) start();`. -/
def startIfRunning : Code Unit := do
  if ← field (·.pipe.running) then
    start

/-- The loop of the constructor over all effects but the last, and the last effect after it. -/
def constructorLoop (processedFrameQueue : ℕ) : ℕ → List ℕ → Code Unit
  | _, [] => pure ()
  | queue, [effect] => do
    void (.setInputQueue effect (some queue))
    void (.setOutputQueue effect (some processedFrameQueue))
    void (.tasksAppend effect)
  | queue, effect :: effects => do
    void (.setInputQueue effect (some queue))
    let queue ← ref (.newQueue 2)
    void (.setOutputQueue effect (some queue))
    void (.tasksAppend effect)
    constructorLoop processedFrameQueue queue effects

/-- The fields of a Pipeline before the constructor looks at `effects`. -/
def blank (unprocessedFrameQueue processedFrameQueue : ℕ) : Pipeline :=
  ⟨unprocessedFrameQueue, processedFrameQueue, false, [], []⟩

def constructor (effects : List ℕ) : Code Unit := do
  let unprocessedFrameQueue ← field (·.pipe.unprocessedFrameQueue)
  let processedFrameQueue ← field (·.pipe.processedFrameQueue)
  if effects ≠ [] then
    constructorLoop processedFrameQueue unprocessedFrameQueue effects
    createThreads

def addEffect (effect : ℕ) : Code Unit := do
  let processedFrameQueue ← field (·.pipe.processedFrameQueue)
  void (.setOutputQueue effect (some processedFrameQueue))
  let effectTasks ← field (·.pipe.effectTasks)
  if effectTasks ≠ [] then
    let size ← field (·.pipe.effectThreads.length)
    let oldEffectThread ← ref (.threadsRemove (size - 1))
    void (.interruptThread oldEffectThread)
    let size ← field (·.pipe.effectTasks.length)
    let oldEffectTask ← effectTasksGet (size - 1)
    let queue ← ref (.newQueue 2)
    void (.setOutputQueue oldEffectTask (some queue))
    let thread ← ref (.newThread oldEffectTask)
    void (.threadsAppend thread)
    void (.setInputQueue effect (some queue))
  else
    let unprocessedFrameQueue ← field (·.pipe.unprocessedFrameQueue)
    void (.setInputQueue effect (some unprocessedFrameQueue))
  void (.tasksAppend effect)
  let thread ← ref (.newThread effect)
  void (.threadsAppend thread)
  startIfRunning

/-- `addEffect(int index, EffectTask effect)`. The threads taken out in the last branch are
not interrupted. -/
def addEffectAt (index : ℤ) (effect : ℕ) : Code Unit := do
  let size ← field (·.pipe.effectTasks.length)
  if index ≥ size then
    addEffect effect
  else if index = 0 then
    let nextEffectTask ← effectTasksGet index
    let inputQueue ← field fun s => (s.heap.task nextEffectTask).inputQueue
    void (.setInputQueue effect inputQueue)
    let queue ← ref (.newQueue 2)
    void (.setOutputQueue effect (some queue))
    void (.setInputQueue nextEffectTask (some queue))
    void (.tasksAdd index effect)
    let effectThread ← ref (.newThread effect)
    void (.threadsAdd index effectThread)
    let nextEffectThread ← ref (.threadsRemove (index + 1))
    void (.interruptThread nextEffectThread)
    let nextEffectThread ← ref (.newThread nextEffectTask)
    void (.threadsAdd (index + 1) nextEffectThread)
  else
    let nextEffectTask ← effectTasksGet index
    let previousEffectTask ← effectTasksGet (index - 1)
    let outputQueue ← field fun s => (s.heap.task previousEffectTask).outputQueue
    void (.setInputQueue effect outputQueue)
    let queue ← ref (.newQueue 2)
    void (.setOutputQueue effect (some queue))
    void (.setInputQueue nextEffectTask (some queue))
    void (.tasksAdd index effect)
    let _ ← ref (.threadsRemove (index - 1))
    let _ ← ref (.threadsRemove (index - 1))
    let effectThread ← ref (.newThread effect)
    let previousEffectThread ← ref (.newThread previousEffectTask)
    let nextEffectThread ← ref (.newThread nextEffectTask)
    void (.threadsAdd (index - 1) previousEffectThread)
    void (.threadsAdd index effectThread)
    void (.threadsAdd (index + 1) nextEffectThread)
  startIfRunning

def clearEffects : Code Unit := do
  void .tasksClear
  let identityEffect ← ref (.newEffect .identity)
  let effectTask ← ref (.newTask ⟨identityEffect, .identity⟩)
  let unprocessedFrameQueue ← field (·.pipe.unprocessedFrameQueue)
  void (.setInputQueue effectTask (some unprocessedFrameQueue))
  let processedFrameQueue ← field (·.pipe.processedFrameQueue)
  void (.setOutputQueue effectTask (some processedFrameQueue))
  void (.tasksAppend effectTask)
  createThreads

def removeEffect (index : ℤ) : Code Unit := do
  let size ← field (·.pipe.effectTasks.length)
  if index < size ∧ index ≥ 0 then
    let effectThread ← ref (.threadsRemove index)
    let effectTask ← ref (.tasksRemove index)
    void (.interruptThread effectThread)
    let size ← field (·.pipe.effectTasks.length)
    if index < size then
      let nextEffectThread ← ref (.threadsRemove index)
      let nextEffectTask ← effectTasksGet index
      let inputQueue ← field fun s => (s.heap.task effectTask).inputQueue
      void (.setInputQueue nextEffectTask inputQueue)
      void (.interruptThread nextEffectThread)
      let nextEffectThread ← ref (.newThread nextEffectTask)
      void (.threadsAdd index nextEffectThread)
    else if size = 0 then
      clearEffects
    else
      let previousEffectThread ← ref (.threadsRemove (index - 1))
      let previousEffectTask ← effectTasksGet (index - 1)
      let outputQueue ← field fun s => (s.heap.task effectTask).outputQueue
      void (.setOutputQueue previousEffectTask outputQueue)
      void (.interruptThread previousEffectThread)
      let previousEffectThread ← ref (.newThread previousEffectTask)
      void (.threadsAdd (index - 1) previousEffectThread)
    startIfRunning

def moveEffect (startIndex endIndex : ℤ) : Code Unit := do
  let effect ← effectTasksGet startIndex
  removeEffect startIndex
  addEffectAt endIndex effect

def getEffects (s : State) : List Effect :=
  (s.pipe.effectTasks.map fun et => (s.heap.task et).effect).filter fun e => e.cls ≠ .identity

end PipelineOperations
