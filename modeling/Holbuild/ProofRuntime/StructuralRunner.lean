import Holbuild.Library.Raising
import Holbuild.Library.Literals
import Holbuild.ProofRuntime.PlanPaths

/-!
# The structural runner

`proof_runtime.sml`. The runner goes through a plan and runs its leaves. Selections, cases, alternatives
and iterations focus on goals, run their steps and put the goals back in order; a failure in an
alternative, a trial or an iteration restores the state from before it. A resumed run skips to the leaf
after which it goes on, replaying the choices on the way.

Scope. What HOL and the goals do is a parameter (`Prover`). What is printed about a failure and the
checkpoint saved after a timeout are left out, and so are trace lines.
-/

set_option autoImplicit false
set_option relaxedAutoImplicit false

namespace Holbuild.ProofRuntime

open Library

/-! ### What a run keeps -/

/-- What is raised when a step fails. -/
inductive Raised
  | tacticTimeout
  | tacticInterrupted
  | failed (message : Text)
deriving DecidableEq, Repr

/-- An open iteration or case: where it is, which one, how many are left, and the numbers of goals that
those before it left. -/
inductive StructuralFrame
  | eachFrame (path : ProofPath) (iter remaining : ℕ) (prior : List ℕ)
  | caseFrame (path : ProofPath) (n : ℕ) (remaining : ℤ) (prior : List ℕ)
deriving DecidableEq, Repr

inductive DynamicEvent
  | choiceEvent (path : ProofPath) (n : ℕ)
  | tryEvent (path : ProofPath) (taken : Bool)
  | repeatIterEvent (path : ProofPath) (n : ℕ)
  | repeatStopEvent (path : ProofPath) (n : ℕ)
deriving DecidableEq, Repr

structure LeafSnapshot where
  count : ℕ
  prefixEnd : ℕ
  path : ProofPath
  focus : List ℕ
  frames : List StructuralFrame
  events : List DynamicEvent
  sigText : Text × Text
  prefixSignature : Option Text
  historyCount : ℕ

/-- What `runtime_state_snapshot` keeps. The goals have the history, the tail counts of the focused
branches, the recorded groups and the number of steps. -/
structure RuntimeState (G : Type) where
  goals : G
  currentPath : ProofPath
  successfulPath : ProofPath
  currentFrames : List StructuralFrame
  successfulFrames : List StructuralFrame
  resumeFrames : List StructuralFrame
  successfulBranchTailCounts : List ℕ
  successfulStepCount : ℕ
  successfulPrefixEnd : ℕ
  successfulLeafSnapshots : List LeafSnapshot
  dynamicEvents : List DynamicEvent
  resumeEvents : List DynamicEvent

/-- A leaf that was run, with the display index it was run with. -/
structure LeafRun where
  path : ProofPath
  displayIndex : ℕ
  leaf : Step

/-- The references that a run changes, and the leaves it has run, the last first. -/
structure Runtime (G : Type) where
  state : RuntimeState G
  resumeReached : Bool
  suppressExpectedFailureDiagnostics : Bool
  failedStepSpan : Option Span
  failedPlanPosition : Option (ℕ × Text × Text)
  leafRuns : List LeafRun

/-- What HOL and its goals do, and the settings of a run. -/
structure Prover (G : Type) where
  step (suppressed : Bool) (proofStep : Step) : Raising G Raised Unit
  focusedGoalCount (label : Text) : Raising G Raised ℕ
  pushSelectFocus (label : Text) (selector : Selector) : Raising G Raised ℕ
  popBranchTailCount (label : Text) : Raising G Raised Unit
  closeFocus (label : Text) (mode : SelectMode) : Raising G Raised Unit
  reorderFocusedFrontAfter (label : Text) (frontCount : ℕ) (middleCount : ℤ) : Raising G Raised Unit
  restoreFocusedGroupOrder (label : Text) (lengths : List ℕ) : Raising G Raised Unit
  branchTailCounts (goals : G) : List ℕ
  historyStepCount (goals : G) : ℕ
  repeatIterationLimit : Except Raised ℕ
  prefixSignature (path : ProofPath) : Option Text

/-- A computation of the runner. -/
abbrev Run (G α : Type) := Raising (Runtime G) Raised α

section Runner

open Raising hiding pure bind

variable {G α : Type}

def fail (message : Text) : Run G α := raise (.failed message)

def onState (change : RuntimeState G → RuntimeState G) : Run G Unit :=
  modify fun r ↦ { r with state := change r.state }

/-- What happens to the goals. -/
def onGoals (action : Raising G Raised α) : Run G α := fun r ↦
  ((action r.state.goals).1, { r with state := { r.state with goals := (action r.state.goals).2 } })

/-! ### Texts of events -/

def pathComponentText : PathComponent → Text
  | .pathStep n => "step:".toList ++ decimal n
  | .pathEach n => "each:".toList ++ decimal n
  | .pathSelect => "select".toList
  | .pathCase n => "case:".toList ++ decimal n
  | .pathAlternative n => "alternative:".toList ++ decimal n
  | .pathTry => "try".toList
  | .pathRepeat n => "repeat:".toList ++ decimal n

def pathText (path : ProofPath) : Text := concatWith ['/'] (path.map pathComponentText)

def dynamicEventText : DynamicEvent → Text
  | .choiceEvent path n => "choice\t".toList ++ pathText path ++ '\t' :: decimal n
  | .tryEvent path taken => "try\t".toList ++ pathText path ++ '\t' :: if taken then ['1'] else ['0']
  | .repeatIterEvent path n => "repeat-iter\t".toList ++ pathText path ++ '\t' :: decimal n
  | .repeatStopEvent path n => "repeat-stop\t".toList ++ pathText path ++ '\t' :: decimal n

/-! ### Snapshots and positions -/

def restoreRuntimeState (saved : RuntimeState G) : Run G Unit := onState fun _ ↦ saved

/-- Runs an alternative, a trial or an iteration, whose failure is expected. -/
def withExpectedFailuresSuppressed (f : Run G Unit) : Run G Unit := do
  let old ← get
  modify fun r ↦ { r with suppressExpectedFailureDiagnostics := true }
  let result ← attempt f
  modify fun r ↦
    { r with suppressExpectedFailureDiagnostics := old.suppressExpectedFailureDiagnostics }
  match result with
  | .ok () => pure ()
  | .error e => raise e

def raiseBodyTimeout (saved : RuntimeState G) (e : Raised) : Run G α := do
  let r ← get
  if r.suppressExpectedFailureDiagnostics then raise e
  else do
    restoreRuntimeState saved
    raise e

/-- The position of what is being run. After a failure it stays. -/
def withPlanPosition (displayIndex : ℕ) (kind label : Text) (span : Span) (f : Run G α) : Run G α := do
  let old ← get
  modify fun r ↦
    { r with failedStepSpan := some span, failedPlanPosition := some (displayIndex, kind, label) }
  let value ← f
  modify fun r ↦
    { r with failedStepSpan := old.failedStepSpan, failedPlanPosition := old.failedPlanPosition }
  pure value

variable (prover : Prover G) (resumeAfterPath : Option ProofPath)

def runMaybeTracedStep (path : ProofPath) (displayIndex : ℕ) (proofStep : Step) : Run G Unit :=
  withPlanPosition displayIndex (stepKind proofStep) (stepLabel proofStep) proofStep.span do
    let r ← get
    modify fun r ↦ { r with leafRuns := ⟨path, displayIndex, proofStep⟩ :: r.leafRuns }
    onGoals (prover.step r.suppressExpectedFailureDiagnostics proofStep)

/-! ### Resuming -/

def targetInPath (path : ProofPath) : Bool :=
  match resumeAfterPath with
  | none => false
  | some target => pathHasPrefix path target

def beforeResumeLeaf (path : ProofPath) : Bool :=
  match resumeAfterPath with
  | none => false
  | some target => decide (path = target)

def resumeChildAfter (path : ProofPath) : Option ProofPath :=
  match resumeAfterPath with
  | some target => if pathHasPrefix path target then some (target.drop path.length) else none
  | none => none

def emitEvent (event : DynamicEvent) : Run G Unit :=
  onState fun s ↦ { s with dynamicEvents := event :: s.dynamicEvents }

def requireReplayEvent (expected : DynamicEvent) : Run G Unit := do
  let r ← get
  match r.state.resumeEvents with
  | event :: rest =>
    if event = expected then onState fun s ↦ { s with resumeEvents := rest }
    else
      fail ("proof-ir dynamic replay mismatch: expected ".toList ++ dynamicEventText expected ++
        ", found ".toList ++ dynamicEventText event)
  | [] => fail ("proof-ir dynamic replay mismatch: missing ".toList ++ dynamicEventText expected)

def eventPath : DynamicEvent → ProofPath
  | .choiceEvent path _ | .tryEvent path _ | .repeatIterEvent path _ | .repeatStopEvent path _ => path

def replayEventIsResumeAncestor (event : DynamicEvent) : Bool :=
  match resumeAfterPath with
  | some target => pathHasPrefix (eventPath event) target
  | none => false

def recordOrReplayEvent (event : DynamicEvent) : Run G Unit := do
  let r ← get
  match r.state.resumeEvents with
  | expected :: _ =>
    if expected = event then requireReplayEvent event
    else if r.resumeReached then do
      onState fun s ↦ { s with resumeEvents := [] }
      emitEvent event
    else requireReplayEvent event
  | [] => if r.resumeReached then emitEvent event else requireReplayEvent event

def finishResumeBoundary : Run G Unit :=
  modify fun r ↦
    { r with
      resumeReached := true
      state := { r.state with
        resumeEvents := r.state.resumeEvents.filter (replayEventIsResumeAncestor resumeAfterPath) } }

def pushStructuralFrame (frame : StructuralFrame) : Run G Unit :=
  onState fun s ↦ { s with currentFrames := frame :: s.currentFrames }

def popStructuralFrame (expected : StructuralFrame) (label : Text) : Run G Unit := do
  let r ← get
  match r.state.currentFrames with
  | frame :: rest =>
    if frame = expected then onState fun s ↦ { s with currentFrames := rest }
    else fail ("proof-ir structural frame mismatch while closing ".toList ++ label)
  | [] => fail ("proof-ir structural frame underflow while closing ".toList ++ label)

def recordSuccessfulLeaf (path : ProofPath) (proofStep : Step) : Run G Unit :=
  onState fun s ↦
    let count := s.successfulStepCount + 1
    let focus := prover.branchTailCounts s.goals
    { s with
      successfulStepCount := count
      successfulPrefixEnd := proofStep.span.2
      successfulPath := path
      successfulFrames := s.currentFrames
      successfulBranchTailCounts := focus
      successfulLeafSnapshots :=
        ⟨count, proofStep.span.2, path, focus, s.currentFrames, s.dynamicEvents.reverse,
          (stepKind proofStep, stepProgram proofStep), prover.prefixSignature path,
          prover.historyStepCount s.goals⟩ :: s.successfulLeafSnapshots }

/-! ### One step -/

/-- The step is entered, unless the leaf to resume after lies behind it. -/
def skipOrEnterStructural (d : ℕ) (path : ProofPath) (proofStep : Step) (enter : Run G ℕ) :
    Run G ℕ := do
  let r ← get
  if r.resumeReached then enter
  else if targetInPath resumeAfterPath path then enter
  else pure (d + displayLineCount proofStep)

def runLeaf (d : ℕ) (path : ProofPath) (proofStep : Step) : Run G ℕ := do
  let r ← get
  if r.resumeReached then do
    onState fun s ↦ { s with currentPath := path }
    let result ← attempt (runMaybeTracedStep prover path d proofStep)
    onState fun s ↦ { s with currentPath := r.state.currentPath }
    match result with
    | .error e => raise e
    | .ok () => do
      recordSuccessfulLeaf prover path proofStep
      pure (d + displayLineCount proofStep)
  else if beforeResumeLeaf resumeAfterPath path then do
    finishResumeBoundary resumeAfterPath
    pure (d + displayLineCount proofStep)
  else pure (d + displayLineCount proofStep)

def runSelect (d : ℕ) (path : ProofPath) (proofStep : Step) (selector : Selector) (mode : SelectMode)
    (body : Run G Unit) : Run G ℕ :=
  skipOrEnterStructural resumeAfterPath d path proofStep do
    let label := stepLabel proofStep
    let closeDisplay := d + displayLineCount proofStep - 1
    let r ← get
    -- the checkpoint that is resumed already has the focus
    let selectedCount ← ite (r.resumeReached = true)
      (onGoals (prover.pushSelectFocus label selector)) (pure 1)
    let result ← attempt (if selectedCount = 0 then pure () else body)
    match result with
    | .error e => do
      let _ ← attempt (onGoals (prover.popBranchTailCount label))
      raise e
    | .ok () => do
      let closing : Text × Span :=
        match mode with
        | .selectSolve => (">- solved".toList, proofStep.span)
        | .selectKeep => ("end".toList, (proofStep.span.2, proofStep.span.2))
      withPlanPosition closeDisplay "end".toList closing.1 closing.2
        (onGoals (prover.closeFocus label mode))
      pure (d + displayLineCount proofStep)

/-- Opens the frame of an iteration or a case and focuses on its goal. A checkpoint that is resumed in the
frame already has both. -/
def enterFrame (frame : StructuralFrame) (resumeFrame : Option StructuralFrame) (label : Text) :
    Run G Unit := do
  let r ← get
  if !r.resumeReached && decide (resumeFrame = some frame) then pure ()
  else do
    pushStructuralFrame frame
    let _ ← onGoals (prover.pushSelectFocus label .selectFirst)
    pure ()

/-- Runs one iteration or case in its frame, and returns the number of goals it left. -/
def runFramed (frame : StructuralFrame) (resumeFrame : Option StructuralFrame) (label : Text)
    (remaining : ℤ) (body : Run G Unit) : Run G ℕ := do
  enterFrame prover frame resumeFrame label
  let result ← attempt body
  match result with
  | .error e => do
    popStructuralFrame frame label
    let _ ← attempt (onGoals (prover.popBranchTailCount label))
    raise e
  | .ok () => do
    let generated ← onGoals (prover.focusedGoalCount label)
    popStructuralFrame frame label
    onGoals (prover.closeFocus label .selectKeep)
    onGoals (prover.reorderFocusedFrontAfter label generated (remaining - 1))
    pure generated

def isEachFrameOf (path : ProofPath) : StructuralFrame → Bool
  | .eachFrame p _ _ _ => decide (p = path)
  | .caseFrame .. => false

def isCaseFrameOf (path : ProofPath) : StructuralFrame → Bool
  | .caseFrame p _ _ _ => decide (p = path)
  | .eachFrame .. => false

/-- The iterations over the focused goals. -/
def eachLoop (runOneEach : ℕ → ℕ → List ℕ → Run G ℕ) : ℕ → ℕ → List ℕ → Run G (List ℕ)
  | _, 0, acc => pure acc.reverse
  | iter, remaining + 1, acc => do
    let generated ← runOneEach iter (remaining + 1) acc.reverse
    eachLoop runOneEach (iter + 1) remaining (generated :: acc)

/-- The iterations that are left, from the frame of the checkpoint that is resumed on. -/
def eachGroups (path : ProofPath) (count : ℕ) (resumeFrame : Option StructuralFrame)
    (body : ℕ → Run G Unit) : Run G (List ℕ) :=
  let runOneEach (iter remaining : ℕ) (prior : List ℕ) : Run G ℕ :=
    runFramed prover (.eachFrame path iter remaining prior) resumeFrame "each".toList remaining
      (body iter)
  match resumeFrame with
  | some (.eachFrame _ iter remaining prior) => eachLoop runOneEach iter remaining prior.reverse
  | _ => eachLoop runOneEach 0 count []

def runEach (d : ℕ) (path : ProofPath) (proofStep : Step) (body : ℕ → Run G Unit) : Run G ℕ :=
  skipOrEnterStructural resumeAfterPath d path proofStep do
    let count ← onGoals (prover.focusedGoalCount "each".toList)
    let r ← get
    let resumeFrame :=
      if r.resumeReached then none else r.state.resumeFrames.find? (isEachFrameOf path)
    let lengths ← eachGroups prover path count resumeFrame body
    onGoals (prover.restoreFocusedGroupOrder "each".toList lengths)
    pure (d + displayLineCount proofStep)

/-- A case or an alternative: its number of entries, and how it is run from an entry and a path on. -/
structure Branch (G : Type) where
  lines : ℕ
  run (d : ℕ) (path : ProofPath) : Run G Unit

def dropCases : ℕ → List α → List α
  | _, [] => []
  | n, x :: rest => if n = 1 then x :: rest else dropCases (n - 1) rest

/-- The entry of the header of a case or an alternative. -/
def branchLineIndex (target : ℕ) : ℕ → ℕ → List (Branch G) → ℕ
  | _, j, [] => j
  | n, j, branch :: rest =>
    if n = target then j else branchLineIndex target (n + 1) (j + 1 + branch.lines) rest

def casesLoop (runOneCase : ℕ → ℕ → ℤ → List ℕ → Branch G → Run G ℕ) :
    ℕ → ℤ → ℕ → List (Branch G) → List ℕ → Run G (List ℕ)
  | _, _, _, [], acc => pure acc.reverse
  | n, remaining, caseLine, branch :: rest, acc => do
    let generated ← runOneCase (caseLine + 1) n remaining acc.reverse branch
    casesLoop runOneCase (n + 1) (remaining - 1) (caseLine + 1 + branch.lines) rest (generated :: acc)

def requireCaseCount (caseCount count : ℕ) (resumeFrame : Option StructuralFrame) : Run G Unit :=
  if resumeFrame.isSome || decide (caseCount = count) then pure ()
  else
    fail ("case count mismatch: ".toList ++ decimal caseCount ++ " cases for ".toList ++
      decimal count ++ " focused goals".toList)

/-- The cases that are left, from the frame of the checkpoint that is resumed on. -/
def casesGroups (d : ℕ) (path : ProofPath) (cases : List (Branch G)) (count : ℕ)
    (resumeFrame : Option StructuralFrame) : Run G (List ℕ) :=
  let runOneCase (bodyDisplay n : ℕ) (remaining : ℤ) (prior : List ℕ) (branch : Branch G) : Run G ℕ :=
    runFramed prover (.caseFrame path n remaining prior) resumeFrame ("case ".toList ++ decimal n)
      remaining (branch.run bodyDisplay (path ++ [.pathCase n]))
  match resumeFrame with
  | some (.caseFrame _ n remaining prior) =>
    casesLoop runOneCase n remaining (branchLineIndex n 1 (d + 1) cases) (dropCases n cases)
      prior.reverse
  | _ => casesLoop runOneCase 1 count (d + 1) cases []

def runCases (d : ℕ) (path : ProofPath) (proofStep : Step) (cases : List (Branch G)) : Run G ℕ :=
  skipOrEnterStructural resumeAfterPath d path proofStep do
    let count ← onGoals (prover.focusedGoalCount "cases".toList)
    let r ← get
    let resumeFrame :=
      if r.resumeReached then none else r.state.resumeFrames.find? (isCaseFrameOf path)
    requireCaseCount cases.length count resumeFrame
    let lengths ← casesGroups prover d path cases count resumeFrame
    onGoals (prover.restoreFocusedGroupOrder "cases".toList lengths)
    pure (d + displayLineCount proofStep)

/-- Tries alternatives until one does not fail. -/
def attemptFrom (path : ProofPath) (label : Text) :
    ℕ → ℕ → List (Branch G) → Option Raised → Run G Unit
  | _, _, [], last =>
    match last with
    | some e => raise e
    | none => fail ("choice has no alternatives: ".toList ++ label)
  | n, altLine, branch :: rest, _ => do
    let r ← get
    let result ← attempt
      (withExpectedFailuresSuppressed (branch.run (altLine + 1) (path ++ [.pathAlternative n])))
    match result with
    | .ok () => recordOrReplayEvent (.choiceEvent path n)
    | .error .tacticTimeout => raiseBodyTimeout r.state .tacticTimeout
    | .error .tacticInterrupted => raiseBodyTimeout r.state .tacticInterrupted
    | .error (.failed message) => do
      restoreRuntimeState r.state
      attemptFrom path label (n + 1) (altLine + 1 + branch.lines) rest (some (.failed message))

def chooseAlternative (d : ℕ) (path : ProofPath) (label : Text) (alternatives : List (Branch G)) :
    Run G Unit := do
  let r ← get
  if r.resumeReached then attemptFrom path label 1 (d + 1) alternatives none
  else
    match resumeChildAfter resumeAfterPath path with
    | some (.pathAlternative n :: _) =>
      match nthFromOne n alternatives with
      | some branch => do
        branch.run (branchLineIndex n 1 (d + 1) alternatives + 1) (path ++ [.pathAlternative n])
        recordOrReplayEvent (.choiceEvent path n)
      | none => fail "failed-prefix choice alternative is not present in current proof-ir plan".toList
    | _ => attemptFrom path label 1 (d + 1) alternatives none

def runChoice (d : ℕ) (path : ProofPath) (proofStep : Step) (label : Text)
    (alternatives : List (Branch G)) : Run G ℕ :=
  skipOrEnterStructural resumeAfterPath d path proofStep do
    chooseAlternative resumeAfterPath d path label alternatives
    pure (d + displayLineCount proofStep)

def tryBody (path : ProofPath) (body : Run G Unit) : Run G Unit := do
  let r ← get
  let entering :=
    match resumeChildAfter resumeAfterPath path with
    | some (.pathTry :: _) => true
    | _ => false
  if !r.resumeReached && entering then do
    body
    recordOrReplayEvent (.tryEvent path true)
  else do
    let result ← attempt (withExpectedFailuresSuppressed body)
    match result with
    | .ok () => recordOrReplayEvent (.tryEvent path true)
    | .error .tacticTimeout => raiseBodyTimeout r.state .tacticTimeout
    | .error .tacticInterrupted => raiseBodyTimeout r.state .tacticInterrupted
    | .error (.failed _) => do
      restoreRuntimeState r.state
      recordOrReplayEvent (.tryEvent path false)

def runTry (d : ℕ) (path : ProofPath) (proofStep : Step) (body : Run G Unit) : Run G ℕ :=
  skipOrEnterStructural resumeAfterPath d path proofStep do
    tryBody resumeAfterPath path body
    pure (d + displayLineCount proofStep)

def guardFailure (d limit : ℕ) (proofStep : Step) : Run G Unit :=
  withPlanPosition d "repeat".toList (stepLabel proofStep) proofStep.span
    (fail ("proof-ir repeat exceeded ".toList ++ decimal limit ++
      " successful iterations; possible nonterminating rpt".toList))

/-- The iterations until one fails, as many as are left below the limit. -/
def repeatLoop (path : ProofPath) (guard : Run G Unit) (body : ℕ → Run G Unit) : ℕ → ℕ → Run G Unit
  | 0, _ => guard
  | left + 1, iter => do
    let r ← get
    let result ← attempt (withExpectedFailuresSuppressed (body iter))
    match result with
    | .error .tacticTimeout => raiseBodyTimeout r.state .tacticTimeout
    | .error .tacticInterrupted => raiseBodyTimeout r.state .tacticInterrupted
    | .error (.failed _) => do
      restoreRuntimeState r.state
      recordOrReplayEvent (.repeatStopEvent path iter)
    | .ok () => do
      recordOrReplayEvent (.repeatIterEvent path iter)
      repeatLoop path guard body left (iter + 1)

def repeatIterationLimit : Run G ℕ :=
  match prover.repeatIterationLimit with
  | .ok limit => pure limit
  | .error e => raise e

def repeatBody (path : ProofPath) (limit : ℕ) (guard : Run G Unit) (body : ℕ → Run G Unit) :
    Run G Unit := do
  let r ← get
  if r.resumeReached then repeatLoop path guard body limit 0
  else
    match resumeChildAfter resumeAfterPath path with
    | some (.pathRepeat iter :: _) =>
      if limit ≤ iter then guard
      else do
        body iter
        recordOrReplayEvent (.repeatIterEvent path iter)
        repeatLoop path guard body (limit - (iter + 1)) (iter + 1)
    | _ => repeatLoop path guard body limit 0

def runRepeat (d : ℕ) (path : ProofPath) (proofStep : Step) (body : ℕ → Run G Unit) : Run G ℕ :=
  skipOrEnterStructural resumeAfterPath d path proofStep do
    let limit ← repeatIterationLimit prover
    repeatBody resumeAfterPath path limit (guardFailure d limit proofStep) body
    pure (d + displayLineCount proofStep)

/-! ### The runner -/

mutual

def runList (d : ℕ) (path : ProofPath) (i : ℕ) : List Step → Run G Unit
  | [] => pure ()
  | proofStep :: rest => do
    let next ← runOne d (path ++ [.pathStep i]) proofStep
    runList next path (i + 1) rest

def runOne (d : ℕ) (path : ProofPath) : Step → Run G ℕ
  | .stepTactic span label program =>
    let proofStep := Step.stepTactic span label program
    withPlanPosition d (stepKind proofStep) (stepLabel proofStep) span
      (runLeaf prover resumeAfterPath d path proofStep)
  | .stepList span label program =>
    let proofStep := Step.stepList span label program
    withPlanPosition d (stepKind proofStep) (stepLabel proofStep) span
      (runLeaf prover resumeAfterPath d path proofStep)
  | .stepSelect span selector mode body =>
    let proofStep := Step.stepSelect span selector mode body
    withPlanPosition d (stepKind proofStep) (stepLabel proofStep) span
      (runSelect prover resumeAfterPath d path proofStep selector mode
        (runList (d + 1) (path ++ [.pathSelect]) 0 body))
  | .stepEach span body =>
    let proofStep := Step.stepEach span body
    withPlanPosition d (stepKind proofStep) (stepLabel proofStep) span
      (runEach prover resumeAfterPath d path proofStep fun iter ↦
        runList (d + 1) (path ++ [.pathEach iter]) 0 body)
  | .stepCases span cases =>
    let proofStep := Step.stepCases span cases
    withPlanPosition d (stepKind proofStep) (stepLabel proofStep) span
      (runCases prover resumeAfterPath d path proofStep (branches cases))
  | .stepChoice span label alternatives =>
    let proofStep := Step.stepChoice span label alternatives
    withPlanPosition d (stepKind proofStep) (stepLabel proofStep) span
      (runChoice resumeAfterPath d path proofStep label (branches alternatives))
  | .stepTry span body =>
    let proofStep := Step.stepTry span body
    withPlanPosition d (stepKind proofStep) (stepLabel proofStep) span
      (runTry resumeAfterPath d path proofStep (runList (d + 1) (path ++ [.pathTry]) 0 body))
  | .stepRepeat span body =>
    let proofStep := Step.stepRepeat span body
    withPlanPosition d (stepKind proofStep) (stepLabel proofStep) span
      (runRepeat prover resumeAfterPath d path proofStep fun iter ↦
        runList (d + 1) (path ++ [.pathRepeat iter]) 0 body)

def branches : List (List Step) → List (Branch G)
  | [] => []
  | body :: rest =>
    ⟨displayLineCountList body, fun d path ↦ runList d path 0 body⟩ :: branches rest

end

/-- Runs a plan, from its start or from after a leaf. -/
def runStructuralStepsWithResume (displayIndex : ℕ) (steps : List Step) : Run G Unit := do
  modify fun r ↦ { r with resumeReached := resumeAfterPath.isNone }
  runList prover resumeAfterPath displayIndex [] 0 steps
  let r ← get
  match resumeAfterPath with
  | some _ =>
    if r.resumeReached then pure ()
    else fail "failed-prefix proof path is not present in current proof-ir plan".toList
  | none => pure ()

def runStructuralSteps (displayIndex : ℕ) (steps : List Step) : Run G Unit :=
  runStructuralStepsWithResume prover none displayIndex steps

def runStepsFromPath (path : ProofPath) (displayIndex : ℕ) (steps : List Step) : Run G Unit :=
  runStructuralStepsWithResume prover (some path) displayIndex steps

end Runner

end Holbuild.ProofRuntime
