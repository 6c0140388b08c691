import Holbuild.ProofRuntime.StructuralRunner

/-!
# The numbering of a run

Whatever the goals do, the runner is where a traversal of the plan is: a step returns the entry after it
(`returns_runOne`), and the cases and alternatives that a resumed run goes on with have the entries that
are computed for them (`branchesKeep_dropCases`). Each leaf is therefore run with the number of its entry
(`leafRuns_numbered`).

The plan that is printed, its length, the index of a path and the positions that leaves are run with agree
(`numbering_agrees`). The numbers are those of entries: a label of several lines shifts the lines after it
(`wrapped_label_takes_two_lines`).
-/

set_option autoImplicit false
set_option relaxedAutoImplicit false

namespace Holbuild.ProofRuntime

open Library

section Runner

open Raising hiding pure bind

variable {G α : Type} (prover : Prover G) (resumeAfterPath : Option ProofPath)

/-! ### What the runner leaves of the leaves that were run -/

/-- Every leaf that was run is as stated. -/
def EachRun (P : LeafRun → Prop) (r : Runtime G) : Prop := ∀ run ∈ r.leafRuns, P run

variable {P : LeafRun → Prop} {d i n j limit count : ℕ} {path : ProofPath} {proofStep : Step}
  {body : Run G Unit} {iterations : ℕ → Run G Unit} {label : Text} {enter : Run G ℕ}
  {component : ℕ → PathComponent} {cases : List (Branch G)} {branch : Branch G}
  {resumeFrame : Option StructuralFrame}

theorem keeps_onState {change : RuntimeState G → RuntimeState G} : Keeps (EachRun P) (onState change) :=
  fun _ h ↦ h

theorem keeps_onGoals {action : Raising G Raised α} : Keeps (EachRun P) (onGoals action) := fun _ h ↦ h

theorem keeps_fail {message : Text} : Keeps (EachRun P) (fail message : Run G α) := keeps_raise

theorem keeps_restoreRuntimeState {saved : RuntimeState G} :
    Keeps (EachRun P) (restoreRuntimeState saved) :=
  keeps_onState

theorem keeps_withExpectedFailuresSuppressed (h : Keeps (EachRun P) body) :
    Keeps (EachRun P) (withExpectedFailuresSuppressed body) := by
  refine keeps_bind keeps_get fun old ↦ keeps_bind (keeps_modify fun _ hr ↦ hr) fun _ ↦
    keeps_bind (keeps_attempt h) fun result ↦ keeps_bind (keeps_modify fun _ hr ↦ hr) fun _ ↦ ?_
  cases result with
  | ok => exact keeps_pure
  | error e => exact keeps_raise

theorem keeps_raiseBodyTimeout {saved : RuntimeState G} {e : Raised} :
    Keeps (EachRun P) (raiseBodyTimeout saved e : Run G α) :=
  keeps_bind keeps_get fun _ ↦ keeps_ite keeps_raise
    (keeps_bind keeps_restoreRuntimeState fun _ ↦ keeps_raise)

theorem keeps_withPlanPosition {kind : Text} {span : Span} {f : Run G α} (h : Keeps (EachRun P) f) :
    Keeps (EachRun P) (withPlanPosition d kind label span f) :=
  keeps_bind keeps_get fun _ ↦ keeps_bind (keeps_modify fun _ hr ↦ hr) fun _ ↦ keeps_bind h fun _ ↦
    keeps_bind (keeps_modify fun _ hr ↦ hr) fun _ ↦ keeps_pure

theorem returns_withPlanPosition {V : α → Prop} {kind : Text} {span : Span} {f : Run G α}
    (h : Returns V f) : Returns V (withPlanPosition d kind label span f) := by
  intro r a hend
  apply h { r with failedStepSpan := some span, failedPlanPosition := some (d, kind, label) } a
  change (Raising.bind f _ _).1 = .ok a at hend
  unfold Raising.bind at hend
  split at hend
  case h_1 b r' hvalue =>
    rw [hvalue]
    exact hend
  case h_2 e r' hvalue => cases hend

theorem keeps_requireReplayEvent {event : DynamicEvent} :
    Keeps (EachRun P) (requireReplayEvent event : Run G Unit) := by
  refine keeps_bind keeps_get fun r ↦ ?_
  cases r.state.resumeEvents with
  | nil => exact keeps_fail
  | cons first rest => exact keeps_ite keeps_onState keeps_fail

theorem keeps_recordOrReplayEvent {event : DynamicEvent} :
    Keeps (EachRun P) (recordOrReplayEvent event : Run G Unit) := by
  refine keeps_bind keeps_get fun r ↦ ?_
  cases r.state.resumeEvents with
  | nil => exact keeps_ite keeps_onState keeps_requireReplayEvent
  | cons first rest =>
    exact keeps_ite keeps_requireReplayEvent
      (keeps_ite (keeps_bind keeps_onState fun _ ↦ keeps_onState) keeps_requireReplayEvent)

theorem keeps_popStructuralFrame {frame : StructuralFrame} :
    Keeps (EachRun P) (popStructuralFrame frame label : Run G Unit) := by
  refine keeps_bind keeps_get fun r ↦ ?_
  cases r.state.currentFrames with
  | nil => exact keeps_fail
  | cons first rest => exact keeps_ite keeps_onState keeps_fail

theorem keeps_skipOrEnterStructural (h : Keeps (EachRun P) enter) :
    Keeps (EachRun P) (skipOrEnterStructural resumeAfterPath d path proofStep enter) :=
  keeps_bind keeps_get fun _ ↦ keeps_ite h (keeps_ite h keeps_pure)

theorem keeps_runMaybeTracedStep (h : P ⟨path, d, proofStep⟩) :
    Keeps (EachRun P) (runMaybeTracedStep prover path d proofStep) :=
  keeps_withPlanPosition (keeps_bind keeps_get fun _ ↦
    keeps_bind (keeps_modify fun _ hr ↦ List.forall_mem_cons.mpr ⟨h, hr⟩) fun _ ↦ keeps_onGoals)

/-- A leaf is run with the index and the path it is given. -/
theorem keeps_runLeaf (h : P ⟨path, d, proofStep⟩) :
    Keeps (EachRun P) (runLeaf prover resumeAfterPath d path proofStep) := by
  refine keeps_bind keeps_get fun r ↦ keeps_ite ?_ (keeps_ite ?_ keeps_pure)
  · refine keeps_bind keeps_onState fun _ ↦ keeps_bind
      (keeps_attempt (keeps_runMaybeTracedStep prover h)) fun result ↦ keeps_bind keeps_onState fun _ ↦ ?_
    cases result with
    | error e => exact keeps_raise
    | ok => exact keeps_bind keeps_onState fun _ ↦ keeps_pure
  · exact keeps_bind (keeps_modify fun _ hr ↦ hr) fun _ ↦ keeps_pure

theorem keeps_runSelect {selector : Selector} {mode : SelectMode} (h : Keeps (EachRun P) body) :
    Keeps (EachRun P) (runSelect prover resumeAfterPath d path proofStep selector mode body) := by
  refine keeps_skipOrEnterStructural resumeAfterPath (keeps_bind keeps_get fun r ↦
    keeps_bind (keeps_ite keeps_onGoals keeps_pure) fun selected ↦
      keeps_bind (keeps_attempt (keeps_ite keeps_pure h)) fun result ↦ ?_)
  cases result with
  | error e => exact keeps_bind (keeps_attempt keeps_onGoals) fun _ ↦ keeps_raise
  | ok => exact keeps_bind (keeps_withPlanPosition keeps_onGoals) fun _ ↦ keeps_pure

theorem keeps_runFramed {frame : StructuralFrame} {remaining : ℤ} (h : Keeps (EachRun P) body) :
    Keeps (EachRun P) (runFramed prover frame resumeFrame label remaining body) := by
  have henter : Keeps (EachRun P) (enterFrame prover frame resumeFrame label) :=
    keeps_bind keeps_get fun _ ↦ keeps_ite keeps_pure
      (keeps_bind keeps_onState fun _ ↦ keeps_bind keeps_onGoals fun _ ↦ keeps_pure)
  refine keeps_bind henter fun _ ↦ keeps_bind (keeps_attempt h) fun result ↦ ?_
  cases result with
  | error e =>
    exact keeps_bind keeps_popStructuralFrame fun _ ↦
      keeps_bind (keeps_attempt keeps_onGoals) fun _ ↦ keeps_raise
  | ok =>
    exact keeps_bind keeps_onGoals fun _ ↦ keeps_bind keeps_popStructuralFrame fun _ ↦
      keeps_bind keeps_onGoals fun _ ↦ keeps_bind keeps_onGoals fun _ ↦ keeps_pure

theorem keeps_eachLoop {runOneEach : ℕ → ℕ → List ℕ → Run G ℕ}
    (h : ∀ iter remaining prior, Keeps (EachRun P) (runOneEach iter remaining prior)) (remaining : ℕ)
    (iter : ℕ) (acc : List ℕ) : Keeps (EachRun P) (eachLoop runOneEach iter remaining acc) := by
  induction remaining generalizing iter acc with
  | zero => exact keeps_pure
  | succ remaining ih => exact keeps_bind (h _ _ _) fun _ ↦ ih _ _

theorem keeps_runEach (h : ∀ iter, Keeps (EachRun P) (iterations iter)) :
    Keeps (EachRun P) (runEach prover resumeAfterPath d path proofStep iterations) := by
  have hgroups : ∀ count resumeFrame,
      Keeps (EachRun P) (eachGroups prover path count resumeFrame iterations) := by
    intro count resumeFrame
    unfold eachGroups
    split
    · exact keeps_eachLoop (fun iter _ _ ↦ keeps_runFramed prover (h iter)) _ _ _
    · exact keeps_eachLoop (fun iter _ _ ↦ keeps_runFramed prover (h iter)) _ _ _
  exact keeps_skipOrEnterStructural resumeAfterPath (keeps_bind keeps_onGoals fun _ ↦
    keeps_bind keeps_get fun _ ↦ keeps_bind (hgroups _ _) fun _ ↦
      keeps_bind keeps_onGoals fun _ ↦ keeps_pure)

/-! ### Cases and alternatives -/

/-- From a number and the entry of its header on, the branches may be run. -/
def BranchesKeep (P : LeafRun → Prop) (path : ProofPath) (component : ℕ → PathComponent) :
    ℕ → ℕ → List (Branch G) → Prop
  | _, _, [] => True
  | n, j, branch :: rest =>
    Keeps (EachRun P) (branch.run (j + 1) (path ++ [component n])) ∧
      BranchesKeep P path component (n + 1) (j + 1 + branch.lines) rest

/-- The branch that a resumed run goes on with has the entry that is computed for it. -/
theorem branchesKeep_dropCases (h : BranchesKeep P path component n j cases) (target : ℕ) :
    BranchesKeep P path component target (branchLineIndex target n j cases)
      (dropCases (target + 1 - n) cases) := by
  induction cases generalizing n j with
  | nil => exact trivial
  | cons branch rest ih =>
    rw [branchLineIndex, dropCases]
    by_cases htarget : n = target
    · rw [if_pos htarget, if_pos (by omega), ← htarget]
      exact h
    · rw [if_neg htarget, if_neg (by omega), Nat.sub_sub]
      exact ih h.2

theorem keeps_nthFromOne (h : BranchesKeep P path component n j cases) {k : ℕ}
    (hbranch : cases[k]? = some branch) :
    Keeps (EachRun P) (branch.run (branchLineIndex (n + k) n j cases + 1) (path ++ [component (n + k)])) := by
  induction cases generalizing n j k with
  | nil => exact absurd hbranch.symm (Option.some_ne_none branch)
  | cons first rest ih =>
    rw [branchLineIndex]
    cases k with
    | zero =>
      rw [if_pos (Nat.add_zero n).symm, ← Option.some.inj hbranch]
      exact h.1
    | succ k =>
      rw [if_neg (by omega), show n + (k + 1) = n + 1 + k by omega]
      exact ih h.2 hbranch

theorem keeps_casesLoop {runOneCase : ℕ → ℕ → ℤ → List ℕ → Branch G → Run G ℕ}
    (hone : ∀ d n remaining prior branch, Keeps (EachRun P) (branch.run d (path ++ [component n])) →
      Keeps (EachRun P) (runOneCase d n remaining prior branch))
    (remaining : ℤ) (acc : List ℕ) (h : BranchesKeep P path component n j cases) :
    Keeps (EachRun P) (casesLoop runOneCase n remaining j cases acc) := by
  induction cases generalizing n j remaining acc with
  | nil => exact keeps_pure
  | cons branch rest ih => exact keeps_bind (hone _ _ _ _ _ h.1) fun _ ↦ ih _ _ h.2

theorem keeps_runCases (h : BranchesKeep P path .pathCase 1 (d + 1) cases) :
    Keeps (EachRun P) (runCases prover resumeAfterPath d path proofStep cases) := by
  have hcount : ∀ caseCount count resumeFrame,
      Keeps (EachRun P) (requireCaseCount caseCount count resumeFrame : Run G Unit) :=
    fun _ _ _ ↦ keeps_ite keeps_pure keeps_fail
  have hgroups : ∀ count resumeFrame,
      Keeps (EachRun P) (casesGroups prover d path cases count resumeFrame) := by
    intro count resumeFrame
    unfold casesGroups
    split
    case h_1 p n remaining prior =>
      have hrest := branchesKeep_dropCases h n
      rw [Nat.add_sub_cancel] at hrest
      exact keeps_casesLoop (fun _ _ _ _ _ hbranch ↦ keeps_runFramed prover hbranch) _ _ hrest
    case h_2 => exact keeps_casesLoop (fun _ _ _ _ _ hbranch ↦ keeps_runFramed prover hbranch) _ _ h
  exact keeps_skipOrEnterStructural resumeAfterPath (keeps_bind keeps_onGoals fun _ ↦
    keeps_bind keeps_get fun _ ↦ keeps_bind (hcount _ _ _) fun _ ↦ keeps_bind (hgroups _ _) fun _ ↦
      keeps_bind keeps_onGoals fun _ ↦ keeps_pure)

theorem keeps_attemptFrom (last : Option Raised)
    (h : BranchesKeep P path .pathAlternative n j cases) :
    Keeps (EachRun P) (attemptFrom path label n j cases last) := by
  induction cases generalizing n j last with
  | nil =>
    cases last with
    | none => exact keeps_fail
    | some e => exact keeps_raise
  | cons branch rest ih =>
    refine keeps_bind keeps_get fun r ↦ keeps_bind
      (keeps_attempt (keeps_withExpectedFailuresSuppressed h.1)) fun result ↦ ?_
    match result with
    | .ok () => exact keeps_recordOrReplayEvent
    | .error .tacticTimeout => exact keeps_raiseBodyTimeout
    | .error .tacticInterrupted => exact keeps_raiseBodyTimeout
    | .error (.failed message) => exact keeps_bind keeps_restoreRuntimeState fun _ ↦ ih _ h.2

theorem keeps_runChoice (h : BranchesKeep P path .pathAlternative 1 (d + 1) cases) :
    Keeps (EachRun P) (runChoice resumeAfterPath d path proofStep label cases) := by
  refine keeps_skipOrEnterStructural resumeAfterPath (keeps_bind (keeps_bind keeps_get fun r ↦
    keeps_ite (keeps_attemptFrom none h) ?_) fun _ ↦ keeps_pure)
  split
  case h_1 n rest hchild =>
    split
    case h_1 branch hbranch =>
      unfold nthFromOne at hbranch
      split at hbranch
      case isTrue => exact absurd hbranch.symm (Option.some_ne_none branch)
      case isFalse hzero =>
        have hrun := keeps_nthFromOne h hbranch
        rw [show 1 + (n - 1) = n by omega] at hrun
        exact keeps_bind hrun fun _ ↦ keeps_recordOrReplayEvent
    case h_2 => exact keeps_fail
  case h_2 => exact keeps_attemptFrom none h

/-! ### Trials and repetitions -/

theorem keeps_runTry (h : Keeps (EachRun P) body) :
    Keeps (EachRun P) (runTry resumeAfterPath d path proofStep body) := by
  refine keeps_skipOrEnterStructural resumeAfterPath (keeps_bind (keeps_bind keeps_get fun r ↦
    keeps_ite (keeps_bind h fun _ ↦ keeps_recordOrReplayEvent) (keeps_bind
      (keeps_attempt (keeps_withExpectedFailuresSuppressed h)) fun result ↦ ?_)) fun _ ↦ keeps_pure)
  match result with
  | .ok () => exact keeps_recordOrReplayEvent
  | .error .tacticTimeout => exact keeps_raiseBodyTimeout
  | .error .tacticInterrupted => exact keeps_raiseBodyTimeout
  | .error (.failed message) =>
    exact keeps_bind keeps_restoreRuntimeState fun _ ↦ keeps_recordOrReplayEvent

theorem keeps_repeatLoop {guard : Run G Unit} (hguard : Keeps (EachRun P) guard)
    (h : ∀ iter, Keeps (EachRun P) (iterations iter)) (left iter : ℕ) :
    Keeps (EachRun P) (repeatLoop path guard iterations left iter) := by
  induction left generalizing iter with
  | zero => exact hguard
  | succ left ih =>
    refine keeps_bind keeps_get fun r ↦ keeps_bind
      (keeps_attempt (keeps_withExpectedFailuresSuppressed (h iter))) fun result ↦ ?_
    match result with
    | .ok () => exact keeps_bind keeps_recordOrReplayEvent fun _ ↦ ih (iter + 1)
    | .error .tacticTimeout => exact keeps_raiseBodyTimeout
    | .error .tacticInterrupted => exact keeps_raiseBodyTimeout
    | .error (.failed message) =>
      exact keeps_bind keeps_restoreRuntimeState fun _ ↦ keeps_recordOrReplayEvent

theorem keeps_runRepeat (h : ∀ iter, Keeps (EachRun P) (iterations iter)) :
    Keeps (EachRun P) (runRepeat prover resumeAfterPath d path proofStep iterations) := by
  have hlimit : Keeps (EachRun P) (repeatIterationLimit prover) := by
    unfold repeatIterationLimit
    cases prover.repeatIterationLimit with
    | ok => exact keeps_pure
    | error => exact keeps_raise
  have hguard : ∀ limit, Keeps (EachRun P) (guardFailure d limit proofStep : Run G Unit) :=
    fun _ ↦ keeps_withPlanPosition keeps_fail
  refine keeps_skipOrEnterStructural resumeAfterPath (keeps_bind hlimit fun limit ↦
    keeps_bind (keeps_bind keeps_get fun r ↦ keeps_ite (keeps_repeatLoop (hguard _) h _ _) ?_)
      fun _ ↦ keeps_pure)
  split
  · exact keeps_ite (hguard _) (keeps_bind (h _) fun _ ↦
      keeps_bind keeps_recordOrReplayEvent fun _ ↦ keeps_repeatLoop (hguard _) h _ _)
  · exact keeps_repeatLoop (hguard _) h _ _

/-! ### The entry after a step -/

/-- Returns the entry after the step. -/
def ReturnsNext (d : ℕ) (proofStep : Step) (x : Run G ℕ) : Prop :=
  Returns (fun next ↦ next = d + displayLineCount proofStep) x

theorem returns_skipOrEnterStructural (h : ReturnsNext d proofStep enter) :
    ReturnsNext d proofStep (skipOrEnterStructural resumeAfterPath d path proofStep enter) :=
  returns_bind fun _ ↦ returns_ite h (returns_ite h (returns_pure rfl))

theorem returns_runLeaf :
    ReturnsNext d proofStep (runLeaf prover resumeAfterPath d path proofStep) := by
  refine returns_bind fun r ↦ returns_ite ?_ (returns_ite ?_ (returns_pure rfl))
  · refine returns_bind fun _ ↦ returns_bind fun result ↦ returns_bind fun _ ↦ ?_
    cases result with
    | error e => exact returns_raise
    | ok => exact returns_bind fun _ ↦ returns_pure rfl
  · exact returns_bind fun _ ↦ returns_pure rfl

theorem returns_runSelect {selector : Selector} {mode : SelectMode} :
    ReturnsNext d proofStep
      (runSelect prover resumeAfterPath d path proofStep selector mode body) := by
  refine returns_skipOrEnterStructural resumeAfterPath
    (returns_bind fun _ ↦ returns_bind fun _ ↦ returns_bind fun result ↦ ?_)
  cases result with
  | error e => exact returns_bind fun _ ↦ returns_raise
  | ok => exact returns_bind fun _ ↦ returns_pure rfl

/-- A step returns the entry after it, whatever happens in it. -/
theorem returns_runOne : ReturnsNext d proofStep (runOne prover resumeAfterPath d path proofStep) := by
  cases proofStep with
  | stepTactic span label program =>
    rw [runOne]
    exact returns_withPlanPosition (returns_runLeaf prover resumeAfterPath)
  | stepList span label program =>
    rw [runOne]
    exact returns_withPlanPosition (returns_runLeaf prover resumeAfterPath)
  | stepSelect span selector mode body =>
    rw [runOne]
    exact returns_withPlanPosition (returns_runSelect prover resumeAfterPath)
  | stepEach span body =>
    rw [runOne]
    exact returns_withPlanPosition (returns_skipOrEnterStructural resumeAfterPath
      (returns_bind fun _ ↦ returns_bind fun _ ↦ returns_bind fun _ ↦ returns_bind fun _ ↦
        returns_pure rfl))
  | stepCases span cases =>
    rw [runOne]
    exact returns_withPlanPosition (returns_skipOrEnterStructural resumeAfterPath
      (returns_bind fun _ ↦ returns_bind fun _ ↦ returns_bind fun _ ↦ returns_bind fun _ ↦
        returns_bind fun _ ↦ returns_pure rfl))
  | stepChoice span label alternatives =>
    rw [runOne]
    exact returns_withPlanPosition (returns_skipOrEnterStructural resumeAfterPath
      (returns_bind fun _ ↦ returns_pure rfl))
  | stepTry span body =>
    rw [runOne]
    exact returns_withPlanPosition (returns_skipOrEnterStructural resumeAfterPath
      (returns_bind fun _ ↦ returns_pure rfl))
  | stepRepeat span body =>
    rw [runOne]
    exact returns_withPlanPosition (returns_skipOrEnterStructural resumeAfterPath
      (returns_bind fun _ ↦ returns_bind fun _ ↦ returns_pure rfl))

/-! ### The numbering -/

/-- A leaf of the plan was run with the number of its entry. -/
def Numbered (plan : List Step) (run : LeafRun) : Prop :=
  ∃ depth, Node plan run.path run.displayIndex depth run.leaf

section

variable {plan : List Step}

mutual

/-- From where a traversal of the plan is, the runner runs leaves with the numbers of their entries. -/
theorem keeps_runList (hnumbered : ∀ run, Numbered plan run → P run) (d : ℕ) (path : ProofPath)
    (i depth : ℕ) (steps : List Step) (h : Remaining plan path i d depth steps) :
    Keeps (EachRun P) (runList prover resumeAfterPath d path i steps) := by
  cases steps with
  | nil =>
    rw [runList]
    exact keeps_pure
  | cons proofStep rest =>
    rw [runList]
    refine keeps_bind_of_returns (keeps_runOne hnumbered d path i depth proofStep rest h)
      (returns_runOne prover resumeAfterPath) fun next hnext ↦ ?_
    subst hnext
    exact keeps_runList hnumbered _ path (i + 1) depth rest h.next

theorem keeps_runOne (hnumbered : ∀ run, Numbered plan run → P run) (d : ℕ) (path : ProofPath)
    (i depth : ℕ) (proofStep : Step) (rest : List Step)
    (h : Remaining plan path i d depth (proofStep :: rest)) :
    Keeps (EachRun P) (runOne prover resumeAfterPath d (path ++ [.pathStep i]) proofStep) := by
  have hleaf : P ⟨path ++ [.pathStep i], d, proofStep⟩ :=
    hnumbered _ ⟨depth, path, i, rest, rfl, h⟩
  cases proofStep with
  | stepTactic span label program =>
    rw [runOne]
    exact keeps_withPlanPosition (keeps_runLeaf prover resumeAfterPath hleaf)
  | stepList span label program =>
    rw [runOne]
    exact keeps_withPlanPosition (keeps_runLeaf prover resumeAfterPath hleaf)
  | stepSelect span selector mode body =>
    rw [runOne]
    exact keeps_withPlanPosition (keeps_runSelect prover resumeAfterPath
      (keeps_runList hnumbered _ _ 0 _ body (h.body (.select span selector mode body))))
  | stepEach span body =>
    rw [runOne]
    exact keeps_withPlanPosition (keeps_runEach prover resumeAfterPath fun iter ↦
      keeps_runList hnumbered _ _ 0 _ body (h.body (.each span body iter)))
  | stepCases span cases =>
    rw [runOne]
    exact keeps_withPlanPosition (keeps_runCases prover resumeAfterPath
      (branchesKeep_branches hnumbered d path i depth _ rest h .pathCase [] cases (.cases span cases)))
  | stepChoice span label alternatives =>
    rw [runOne]
    exact keeps_withPlanPosition (keeps_runChoice resumeAfterPath
      (branchesKeep_branches hnumbered d path i depth _ rest h .pathAlternative [] alternatives
        (.choice span label alternatives)))
  | stepTry span body =>
    rw [runOne]
    exact keeps_withPlanPosition (keeps_runTry resumeAfterPath
      (keeps_runList hnumbered _ _ 0 _ body (h.body (.tries span body))))
  | stepRepeat span body =>
    rw [runOne]
    exact keeps_withPlanPosition (keeps_runRepeat prover resumeAfterPath fun iter ↦
      keeps_runList hnumbered _ _ 0 _ body (h.body (.repeats span body iter)))

theorem branchesKeep_branches (hnumbered : ∀ run, Numbered plan run → P run) (d : ℕ)
    (path : ProofPath) (i depth : ℕ) (proofStep : Step) (rest : List Step)
    (h : Remaining plan path i d depth (proofStep :: rest)) (component : ℕ → PathComponent)
    (before : List (List Step)) (bodies : List (List Step))
    (hbranches : BranchesOf proofStep component (before ++ bodies)) :
    BranchesKeep P (path ++ [.pathStep i]) component (before.length + 1)
      (d + 1 + branchesLineCount before) (branches prover resumeAfterPath bodies) := by
  cases bodies with
  | nil =>
    rw [branches]
    exact trivial
  | cons body bodies =>
    rw [branches]
    refine ⟨keeps_runList hnumbered _ _ 0 _ body (h.branch hbranches), ?_⟩
    have hrest := branchesKeep_branches hnumbered d path i depth proofStep rest h component
      (before ++ [body]) bodies (by rw [List.append_assoc]; exact hbranches)
    have hentry : d + 1 + branchesLineCount (before ++ [body]) =
        d + 1 + branchesLineCount before + 1 + displayLineCountList body := by
      rw [branchesLineCount_concat]
      omega
    rw [List.length_append, hentry] at hrest
    exact hrest

end

end

/-- The runner, fresh or resumed from any path, runs each leaf with the number of its entry. -/
theorem leafRuns_numbered (plan : List Step) (start : Runtime G) (run : LeafRun)
    (hrun : run ∈ (runStructuralStepsWithResume prover resumeAfterPath 0 plan start).2.leafRuns) :
    run ∈ start.leafRuns ∨ Numbered plan run := by
  have hkeeps : Keeps (EachRun fun run ↦ run ∈ start.leafRuns ∨ Numbered plan run)
      (runStructuralStepsWithResume prover resumeAfterPath 0 plan) := by
    refine keeps_bind (keeps_modify fun _ hr ↦ hr) fun _ ↦
      keeps_bind (keeps_runList prover resumeAfterPath (fun _ hnumbered ↦ Or.inr hnumbered) 0 [] 0 0
        plan .start) fun _ ↦ keeps_bind keeps_get fun r ↦ ?_
    cases resumeAfterPath with
    | none => exact keeps_pure
    | some target => exact keeps_ite keeps_pure keeps_fail
  exact hkeeps start (fun run hrun ↦ Or.inl hrun) run hrun

/-- The numbering of a plan agrees everywhere. The printed text has one entry for each number, as many as
are counted; the step at a path has the entry that the search for the path finds; an entry is one line
where no step says more; and the runner, fresh or resumed from any path, runs each leaf with the number
that the search finds. -/
theorem numbering_agrees (plan : List Step) (start : Runtime G) :
    (∃ entries : List Text, formatPlanLines plan = entries.flatten ∧
      entries.length = displayStepCount plan ∧
      (∀ path proofStep, stepAtPath plan path = some proofStep →
        ∃ d depth, pathDisplayIndex plan path = some d ∧
          entries[d]? = some (line d depth (headText proofStep))) ∧
      ((∀ path proofStep, stepAtPath plan path = some proofStep → '\n' ∉ headText proofStep) →
        ∀ entry ∈ entries, OneLine entry)) ∧
    ∀ run ∈ (runStructuralStepsWithResume prover resumeAfterPath 0 plan start).2.leafRuns,
      run ∈ start.leafRuns ∨ (stepAtPath plan run.path = some run.leaf ∧
        pathDisplayIndex plan run.path = some run.displayIndex) := by
  constructor
  · refine ⟨planEntries plan, rfl, length_planEntries plan, ?_, oneLine_planEntries⟩
    intro path proofStep hstep
    obtain ⟨d, depth, hnode⟩ := node_of_stepAtPath hstep
    exact ⟨d, depth, pathDisplayIndex_eq hnode, planEntries_getElem? hnode⟩
  · intro run hrun
    apply (leafRuns_numbered prover resumeAfterPath plan start run hrun).imp_right
    rintro ⟨depth, hnode⟩
    exact ⟨stepAtPath_eq hnode, pathDisplayIndex_eq hnode⟩

/-- A plan whose first label is two lines of source text. -/
def wrapped : List Step :=
  [.stepTactic (0, 9) "rw[a,\n b]".toList "rw[a,\n b]".toList,
    .stepTactic (12, 18) "simp[]".toList "simp[]".toList]

/-- The second step has number one and line two of the printed text, which has more lines than are
counted. -/
theorem wrapped_label_takes_two_lines :
    displayStepCount wrapped = 2 ∧ (formatPlanLines wrapped).count '\n' = 3 ∧
      pathDisplayIndex wrapped [.pathStep 1] = some 1 ∧
      ((formatPlanLines wrapped).splitOn '\n')[1]? = some " b]".toList ∧
      ((formatPlanLines wrapped).splitOn '\n')[2]? = some "  01 step simp[]".toList := by
  decide

end Runner

end Holbuild.ProofRuntime
