import Holbuild.Library.Machine
import Holbuild.ParallelBuild.Eviction
import Mathlib.Data.Finset.Insert
import Mathlib.Data.Finset.Erase
import Mathlib.Data.Finset.Card
import Mathlib.Data.Finset.Sort
import Mathlib.Logic.Function.Basic

/-!
# The parallel scheduler

Workers share a ready list, the number of unfinished dependencies of each node, running and focus
counts, the owner and the queue of checkpoint maintenance, and two flags that stop the build. Each
step of a worker is one section under the lock, up to a wait on the condition variable or to the
unlock, or one thing done outside it: a build, or one removal of an eviction. Waiting releases the lock
and blocks until a section signals; every signal is a broadcast.
-/

set_option autoImplicit false
set_option relaxedAutoImplicit false

namespace Holbuild.ParallelBuild

open Library

/-- The selected nodes of a plan by position, with the positions of the nodes each depends on: each
once, and before the node. -/
structure NodeGraph where
  count : ℕ
  deps : ℕ → List ℕ
  nodup : ∀ id, (deps id).Nodup
  lt : ∀ id, ∀ dep ∈ deps id, dep < id

/-- What the scheduler finds when it starts: the nodes, those with a retained failed prefix, whether
some node may create checkpoints, and the base of each node's checkpoint family. -/
structure Setup where
  graph : NodeGraph
  failedPrefix : ℕ → Bool
  checkpointsPossible : Bool
  base : ℕ → Text

/-! ### Registering the nodes -/

/-- The ready nodes, how many of them have a failed prefix, and how many dependencies of each node
have not finished. -/
structure ReadyState where
  ready : List ℕ
  priorityReady : ℤ
  remaining : ℕ → ℤ

/-- The nodes to build first, and how many of them are left. -/
structure Focus where
  marked : Finset ℕ
  remaining : ℤ

namespace Setup

variable (b : Setup)

def addReady (r : ReadyState) (id : ℕ) : ReadyState :=
  { r with
    priorityReady := if b.failedPrefix id then r.priorityReady + 1 else r.priorityReady
    ready := id :: r.ready }

/-- Counts the dependencies of a node and enters it with each of them. -/
def registerNode (state : ReadyState × (ℕ → List ℕ)) (id : ℕ) : ReadyState × (ℕ → List ℕ) :=
  let deps := b.graph.deps id
  let counted := { state.1 with remaining := Function.update state.1.remaining id deps.length }
  (if deps.isEmpty then b.addReady counted id else counted,
    deps.foldl (fun dependents dep ↦ Function.update dependents dep (id :: dependents dep)) state.2)

def registerNodes : ReadyState × (ℕ → List ℕ) :=
  (List.range b.graph.count).foldl b.registerNode (⟨[], 0, fun _ ↦ 0⟩, fun _ ↦ [])

def dependents : ℕ → List ℕ := b.registerNodes.2

/-- Marks a node and what it depends on, in a depth of recursion that the number of nodes bounds. -/
def markPriorityFocus : ℕ → Focus → ℕ → Focus
  | 0, focus, _ => focus
  | depth + 1, focus, id =>
    if id ∈ focus.marked then focus
    else (b.graph.deps id).foldl (markPriorityFocus depth)
      ⟨insert id focus.marked, focus.remaining + 1⟩

def markPriorityRoot (state : Bool × Focus) (id : ℕ) : Bool × Focus :=
  if b.failedPrefix id then (true, b.markPriorityFocus b.graph.count state.2 id) else state

/-- Whether some node has a failed prefix, and the focus on these nodes. -/
def markPriorityRoots : Bool × Focus :=
  (List.range b.graph.count).foldl b.markPriorityRoot (false, ⟨∅, 0⟩)

def priorityFocus : Finset ℕ := b.markPriorityRoots.2.marked

end Setup

/-! ### The shared state -/

/-- What happened so far, oldest first: the nodes started, finished with success and finished at all,
and those that queued for maintenance and became its owner. No section reads it. -/
structure History where
  started : List ℕ
  succeeded : List ℕ
  ended : List ℕ
  queued : List ℕ
  granted : List ℕ

/-- What the lock protects. -/
structure Shared where
  readyState : ReadyState
  running : ℤ
  priorityRunning : ℤ
  completed : ℤ
  active : ℤ
  focusRemaining : ℤ
  priorityMode : Bool
  activeIds : Finset ℕ
  owner : Option ℕ
  queue : List ℕ
  stopped : Bool
  failure : Option Text
  history : History

def Setup.initial (b : Setup) (jobs : ℕ) : Shared where
  readyState := b.registerNodes.1
  running := 0
  priorityRunning := 0
  completed := 0
  active := jobs
  focusRemaining := b.markPriorityRoots.2.remaining
  priorityMode := b.markPriorityRoots.1
  activeIds := ∅
  owner := none
  queue := []
  stopped := false
  failure := none
  history := ⟨[], [], [], [], []⟩

/-! ### Choosing work -/

/-- The first ready node of a kind, and the others in their order. -/
def popMatchingReady (matching : ℕ → Bool) (before : List ℕ) : List ℕ → Option (ℕ × List ℕ)
  | [] => none
  | id :: suffix =>
    if matching id then some (id, before.reverse ++ suffix)
    else popMatchingReady matching (id :: before) suffix

/-- What a worker that looks for work does next. -/
inductive NextWork
  | leave
  | wait
  | start (id : ℕ)
deriving DecidableEq, Repr

/-- Enters a node taken from the ready list as running. -/
def startNode (s : Shared) (id : ℕ) (priority : Bool) : Shared :=
  { s with
    running := s.running + 1
    activeIds := insert id s.activeIds
    priorityRunning := if priority then s.priorityRunning + 1 else s.priorityRunning
    history := { s.history with started := s.history.started ++ [id] } }

namespace Setup

variable (b : Setup)

/-- Takes a node from the ready list, with its priority: a focused node while any is left. -/
def popReady (s : Shared) : Option (ℕ × Bool) × Shared :=
  let r := s.readyState
  match r.ready with
  | [] => (none, s)
  | id :: rest =>
    if s.priorityMode && 0 < s.focusRemaining then
      match popMatchingReady (fun id ↦ id ∈ b.priorityFocus) [] (id :: rest) with
      | some (focusId, others) =>
        let priorityReady := if b.failedPrefix focusId then r.priorityReady - 1 else r.priorityReady
        (some (focusId, b.failedPrefix focusId),
          { s with readyState := { r with ready := others, priorityReady := priorityReady } })
      | none => (none, s)
    else
      let s := { s with priorityMode := false }
      if 0 < r.priorityReady then
        match popMatchingReady b.failedPrefix [] (id :: rest) with
        | some (priorityId, others) =>
          (some (priorityId, true),
            { s with readyState := { r with ready := others, priorityReady := r.priorityReady - 1 } })
        | none =>
          if 0 < s.priorityRunning then (none, s)
          else (some (id, false), { s with readyState := { r with ready := rest } })
      else if 0 < s.priorityRunning then (none, s)
      else (some (id, false), { s with readyState := { r with ready := rest } })

def nextWorkLocked (s : Shared) : NextWork × Shared :=
  if s.failure.isSome then (.leave, s)
  else if s.stopped then (.leave, s)
  else if s.owner.isSome then (.wait, s)
  else
    match b.popReady s with
    | (some (id, priority), s) => (.start id, startNode s id priority)
    | (none, s) =>
      if s.completed = b.graph.count ∧ s.running = 0 then (.leave, s) else (.wait, s)

/-! ### Finishing a node -/

def releaseDependent (r : ReadyState) (childId : ℕ) : ReadyState :=
  let remaining := r.remaining childId - 1
  let r := { r with remaining := Function.update r.remaining childId remaining }
  if remaining = 0 then b.addReady r childId else r

/-- What every way to finish a node begins with: it no longer runs, is active or in focus. -/
def closeNode (s : Shared) (id : ℕ) : Shared :=
  { s with
    running := s.running - 1
    activeIds := s.activeIds.erase id
    focusRemaining := if id ∈ b.priorityFocus then s.focusRemaining - 1 else s.focusRemaining
    priorityRunning := if b.failedPrefix id then s.priorityRunning - 1 else s.priorityRunning
    history := { s.history with ended := s.history.ended ++ [id] } }

def finishSuccessTransitionLocked (s : Shared) (id : ℕ) : Shared :=
  let s := b.closeNode s id
  let s := { s with
    completed := s.completed + 1
    history := { s.history with succeeded := s.history.succeeded ++ [id] } }
  if s.stopped then s
  else { s with readyState := (b.dependents id).foldl b.releaseDependent s.readyState }

def finishInspectedLocked (s : Shared) (id : ℕ) : Shared :=
  let s := b.closeNode s id
  { s with completed := s.completed + 1, stopped := true }

def finishFailureLocked (s : Shared) (id : ℕ) (message : Text) : Shared :=
  let s := b.closeNode s id
  if s.stopped then s
  else match s.failure with
    | some _ => s
    | none => { s with failure := some message }

end Setup

/-! ### Checkpoint maintenance -/

/-- Makes a node the owner of checkpoint maintenance, or queues it behind the owner. -/
def enqueueCheckpointMaintenanceLocked (s : Shared) (id : ℕ) : Shared :=
  let queued := s.history.queued ++ [id]
  match s.owner with
  | none =>
    { s with
      owner := some id
      history := { s.history with queued := queued, granted := s.history.granted ++ [id] } }
  | some _ =>
    { s with queue := s.queue ++ [id], history := { s.history with queued := queued } }

/-- Hands maintenance to the next node of the queue. -/
def advanceCheckpointMaintenanceLocked (s : Shared) : Shared :=
  match s.queue with
  | [] => { s with owner := none }
  | next :: rest =>
    { s with
      owner := some next
      queue := rest
      history := { s.history with granted := s.history.granted ++ [next] } }

/-- The families of nodes that are active. -/
def Setup.protectedBasesForIds (b : Setup) (s : Shared) : List Text :=
  ((s.activeIds.sort (· ≤ ·)).map b.base).dedup

/-! ### Workers -/

/-- Where a worker is: what it does next, with the node it holds. -/
inductive Worker
  | idle
  | waitingWork
  | building (id : ℕ)
  | succeeding (id : ℕ)
  | waitingSuccess (id : ℕ)
  | requesting (id : ℕ)
  | waitingTurn (id : ℕ)
  | turning (id : ℕ)
  | maintaining (id : ℕ) (protectedBases : List Text)
  | evicting (id : ℕ) (protectedBases pending : List Text)
  | finishing (id : ℕ)
  | inspecting (id : ℕ)
  | raised (id : ℕ) (message : Text)
  | cancelling (id : ℕ)
  | failing (id : ℕ) (message : Text)
  | exiting
  | exited
deriving DecidableEq, Repr

/-- Where a broadcast leaves a worker. -/
def Worker.woken : Worker → Worker
  | .waitingWork => .idle
  | .waitingSuccess id => .succeeding id
  | .waitingTurn id => .turning id
  | worker => worker

/-- How the build of a node ends. -/
inductive Outcome
  | succeeded (mayCreateCheckpoints : Bool)
  | inspected
  | raised (message : Text)
deriving DecidableEq, Repr

/-- What a maintenance pass finds: the index, the budget, and the families that resist removal. -/
structure Pass where
  index : CheckpointIndex
  maxBytes : ℤ
  resists : Text → Bool

/-- What the world outside the scheduler contributes to a step: the outcome of a build, what a pass
finds, and whether a pass breaks off, which it does without raising anything. -/
structure Input where
  outcome : Outcome
  pass : Pass
  breaksOff : Bool

structure Event (jobs : ℕ) where
  worker : Fin jobs
  input : Input

structure State (jobs : ℕ) where
  shared : Shared
  workers : Fin jobs → Worker

namespace State

variable {jobs : ℕ}

/-- A worker's step that changes nothing shared. -/
def goto (s : State jobs) (w : Fin jobs) (worker : Worker) : State jobs :=
  { s with workers := Function.update s.workers w worker }

/-- A worker's section that signals nobody. -/
def unlock (s : State jobs) (w : Fin jobs) (shared : Shared) (worker : Worker) : State jobs :=
  ⟨shared, Function.update s.workers w worker⟩

/-- A worker's section that ends with a broadcast. -/
def signal (s : State jobs) (w : Fin jobs) (shared : Shared) (worker : Worker) : State jobs :=
  ⟨shared, Function.update (fun v ↦ (s.workers v).woken) w worker⟩

end State

namespace Setup

variable (b : Setup) {jobs : ℕ}

/-- The turn of a node in the queue: the owner looks which families are in use. -/
def waitForTurn (s : State jobs) (w : Fin jobs) (shared : Shared) (id : ℕ) : State jobs :=
  match shared.owner with
  | some owner =>
    if owner = id then s.unlock w shared (.maintaining id (b.protectedBasesForIds shared))
    else s.unlock w shared (.waitingTurn id)
  | none => s.unlock w shared (.raised id "checkpoint maintenance owner disappeared".toList)

def finishCheckpointMaintenance (s : State jobs) (w : Fin jobs) (id : ℕ) : State jobs :=
  let shared := b.finishSuccessTransitionLocked s.shared id
  match shared.owner with
  | some owner =>
    if owner = id then s.signal w (advanceCheckpointMaintenanceLocked shared) .idle
    else s.unlock w shared (.raised id "checkpoint maintenance owner mismatch".toList)
  | none =>
    s.unlock w shared (.raised id "checkpoint maintenance finished without an owner".toList)

/-- One step of a worker; none while it waits and after it exited. -/
def step (s : State jobs) (event : Event jobs) : Option (State jobs) :=
  let w := event.worker
  match s.workers w with
  | .idle =>
    match b.nextWorkLocked s.shared with
    | (.leave, shared) => some (s.unlock w shared .exiting)
    | (.wait, shared) => some (s.unlock w shared .waitingWork)
    | (.start id, shared) => some (s.unlock w shared (.building id))
  | .building id =>
    match event.input.outcome with
    | .succeeded mayCreateCheckpoints =>
      some (s.goto w (if b.checkpointsPossible && mayCreateCheckpoints then .requesting id
        else .succeeding id))
    | .inspected => some (s.goto w (.inspecting id))
    | .raised message => some (s.goto w (.raised id message))
  | .succeeding id =>
    match s.shared.owner with
    | none => some (s.signal w (b.finishSuccessTransitionLocked s.shared id) .idle)
    | some _ => some (s.goto w (.waitingSuccess id))
  | .requesting id => some (b.waitForTurn s w (enqueueCheckpointMaintenanceLocked s.shared id) id)
  | .turning id => some (b.waitForTurn s w s.shared id)
  | .maintaining id protectedBases =>
    let pass := event.input.pass
    let eviction :=
      (evictFromIndexExcluding pass.resists pass.index pass.maxBytes protectedBases).2
    some (s.goto w (.evicting id protectedBases eviction.attempted))
  | .evicting id protectedBases pending =>
    match pending with
    | [] => some (s.goto w (.finishing id))
    | _ :: rest =>
      some (s.goto w (if event.input.breaksOff then .finishing id
        else .evicting id protectedBases rest))
  | .finishing id => some (b.finishCheckpointMaintenance s w id)
  | .inspecting id => some (s.signal w (b.finishInspectedLocked s.shared id) .idle)
  | .raised id message =>
    some (s.goto w (if s.shared.stopped then .cancelling id else .failing id message))
  | .cancelling id => some (s.signal w (b.closeNode s.shared id) .exiting)
  | .failing id message => some (s.signal w (b.finishFailureLocked s.shared id message) .exiting)
  | .exiting => some (s.signal w { s.shared with active := s.shared.active - 1 } .exited)
  | .waitingWork => none
  | .waitingSuccess _ => none
  | .waitingTurn _ => none
  | .exited => none

def machine (jobs : ℕ) : Machine (State jobs) (Event jobs) where
  initial := ⟨b.initial jobs, fun _ ↦ .idle⟩
  step := b.step

end Setup

end Holbuild.ParallelBuild
