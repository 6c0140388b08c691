import Holbuild.Library.Lines
import Holbuild.Library.Texts

/-!
# Proof plans and their numbering

`proof_ir_types.sml` and `proof_runtime.sml`. A plan is a tree of steps. `formatPlanLines` prints it as
numbered entries, `displayLineCount` counts the entries of a step, and `pathDisplayIndex` looks for the
number of the step at a path.

`Remaining` says where a traversal of a plan is: along which path, at which step, entry and depth, and
which steps are left there. What is left is printed at its entry (`planEntries_of_remaining`), and there
are as many entries as are counted (`length_planEntries`).
-/

set_option autoImplicit false
set_option relaxedAutoImplicit false

namespace Holbuild.ProofRuntime

open Library

/-! ### Plans -/

/-- Which of the focused goals a step goes on with. -/
inductive Selector
  | selectFirst
  | selectMatchingFirst (patterns : Text)
  | selectMatchingAll (patterns : Text)
deriving DecidableEq, Repr

/-- Whether the selected goals have to be solved. -/
inductive SelectMode
  | selectSolve | selectKeep
deriving DecidableEq, Repr

inductive PathComponent
  | pathStep (n : ℕ)
  | pathEach (n : ℕ)
  | pathSelect
  | pathCase (n : ℕ)
  | pathAlternative (n : ℕ)
  | pathTry
  | pathRepeat (n : ℕ)
deriving DecidableEq, Repr

/-- The way from a plan to one of its steps, in one of its iterations. -/
abbrev ProofPath := List PathComponent

/-- Where a step starts and ends in the source text. -/
abbrev Span := ℕ × ℕ

inductive Step
  | stepTactic (span : Span) (label program : Text)
  | stepList (span : Span) (label program : Text)
  | stepEach (span : Span) (body : List Step)
  | stepSelect (span : Span) (selector : Selector) (mode : SelectMode) (body : List Step)
  | stepCases (span : Span) (cases : List (List Step))
  | stepChoice (span : Span) (label : Text) (alternatives : List (List Step))
  | stepRepeat (span : Span) (body : List Step)
  | stepTry (span : Span) (body : List Step)

def Step.span : Step → Span
  | .stepTactic span _ _ | .stepList span _ _ | .stepEach span _ | .stepSelect span _ _ _
  | .stepCases span _ | .stepChoice span _ _ | .stepRepeat span _ | .stepTry span _ => span

def selectorText : Selector → Text
  | .selectFirst => "first".toList
  | .selectMatchingFirst patterns => "matching-first ".toList ++ patterns
  | .selectMatchingAll patterns => "matching-all ".toList ++ patterns

def modeText : SelectMode → Text
  | .selectSolve => "solve".toList
  | .selectKeep => "keep".toList

def selectText (selector : Selector) (mode : SelectMode) : Text :=
  "select ".toList ++ selectorText selector ++ " ".toList ++ modeText mode

def stepLabel : Step → Text
  | .stepTactic _ label _ | .stepList _ label _ | .stepChoice _ label _ => label
  | .stepEach .. => "each".toList
  | .stepSelect _ selector mode _ => selectText selector mode
  | .stepCases .. => "cases".toList
  | .stepRepeat .. => "repeat".toList
  | .stepTry .. => "try".toList

def stepProgram : Step → Text
  | .stepTactic _ _ program | .stepList _ _ program => program
  | _ => []

def stepKind : Step → Text
  | .stepTactic .. => "step".toList
  | .stepList .. => "list-step".toList
  | .stepEach .. => "each".toList
  | .stepSelect .. => "select".toList
  | .stepCases .. => "cases".toList
  | .stepChoice .. => "choice".toList
  | .stepRepeat .. => "repeat".toList
  | .stepTry .. => "try".toList

/-! ### Counting -/

mutual

/-- The number of entries that a step is printed as. -/
def displayLineCount : Step → ℕ
  | .stepTactic .. | .stepList .. => 1
  | .stepEach _ body | .stepSelect _ _ _ body | .stepRepeat _ body | .stepTry _ body =>
    2 + displayLineCountList body
  | .stepCases _ bodies | .stepChoice _ _ bodies => 2 + bodies.length + bodiesLineCount bodies

def displayLineCountList : List Step → ℕ
  | [] => 0
  | step :: rest => displayLineCount step + displayLineCountList rest

/-- The number of entries of branches, without their headers. -/
def bodiesLineCount : List (List Step) → ℕ
  | [] => 0
  | body :: rest => displayLineCountList body + bodiesLineCount rest

end

def displayStepCount (plan : List Step) : ℕ := displayLineCountList plan

/-! ### Printing -/

def formatIndex (i : ℕ) : Text :=
  if i < 10 then '0' :: decimal i else decimal i

def indent (n : ℕ) : Text := (List.replicate n "  ".toList).flatten

/-- An entry of a printed plan. -/
def line (i depth : ℕ) (text : Text) : Text :=
  "  ".toList ++ formatIndex i ++ " ".toList ++ indent depth ++ text ++ "\n".toList

/-- What the first entry of a step says. -/
def headText : Step → Text
  | .stepTactic _ label _ => "step ".toList ++ label
  | .stepList _ label _ => "list-step ".toList ++ label
  | .stepEach .. => "each".toList
  | .stepSelect _ selector mode _ => selectText selector mode
  | .stepCases .. => "cases".toList
  | .stepChoice _ label _ => "choice ".toList ++ label
  | .stepRepeat .. => "repeat".toList
  | .stepTry .. => "try".toList

/-- The entries of a step with a body, from those of the body. -/
def blockLines (i depth : ℕ) (head : Text) (inner : ℕ × List Text) : ℕ × List Text :=
  (inner.1 + 1, line i depth head :: inner.2 ++ [line inner.1 depth "end".toList])

mutual

/-- The entries of steps from a number on, with the number after them. -/
def stepsLines (i depth : ℕ) : List Step → ℕ × List Text
  | [] => (i, [])
  | step :: rest =>
    let first := stepLines i depth step
    let others := stepsLines first.1 depth rest
    (others.1, first.2 ++ others.2)

def stepLines (i depth : ℕ) : Step → ℕ × List Text
  | .stepTactic span label program =>
    (i + 1, [line i depth (headText (.stepTactic span label program))])
  | .stepList span label program =>
    (i + 1, [line i depth (headText (.stepList span label program))])
  | .stepEach span body =>
    blockLines i depth (headText (.stepEach span body)) (stepsLines (i + 1) (depth + 1) body)
  | .stepSelect span selector mode body =>
    blockLines i depth (headText (.stepSelect span selector mode body))
      (stepsLines (i + 1) (depth + 1) body)
  | .stepCases span cases =>
    blockLines i depth (headText (.stepCases span cases))
      (branchLines "case ".toList depth 1 (i + 1) cases)
  | .stepChoice span label alternatives =>
    blockLines i depth (headText (.stepChoice span label alternatives))
      (branchLines "alternative ".toList depth 1 (i + 1) alternatives)
  | .stepRepeat span body =>
    blockLines i depth (headText (.stepRepeat span body)) (stepsLines (i + 1) (depth + 1) body)
  | .stepTry span body =>
    blockLines i depth (headText (.stepTry span body)) (stepsLines (i + 1) (depth + 1) body)

/-- The entries of cases or alternatives. -/
def branchLines (name : Text) (depth n j : ℕ) : List (List Step) → ℕ × List Text
  | [] => (j, [])
  | body :: rest =>
    let inner := stepsLines (j + 1) (depth + 2) body
    let others := branchLines name depth (n + 1) inner.1 rest
    (others.1, line j (depth + 1) (name ++ decimal n) :: inner.2 ++ others.2)

end

/-- The entries of a printed plan. -/
def planEntries (plan : List Step) : List Text := (stepsLines 0 0 plan).2

def formatPlanLines (plan : List Step) : Text := (planEntries plan).flatten

/-! ### Paths -/

def pathHasPrefix (first path : ProofPath) : Bool := first.isPrefixOf path

/-- The path below a step that is run again and again, when the target goes through one of its
iterations. -/
def iterationPath (iteration : PathComponent → Bool) (path target : ProofPath) : Option ProofPath :=
  if pathHasPrefix path target then
    match target.drop path.length with
    | component :: _ => if iteration component then some (path ++ [component]) else none
    | [] => none
  else none

def isPathEach : PathComponent → Bool
  | .pathEach _ => true
  | _ => false

def isPathRepeat : PathComponent → Bool
  | .pathRepeat _ => true
  | _ => false

namespace pathDisplayIndex

mutual

/-- Goes through steps from a display index on. It raises the index at which it finds the target. -/
def runList (target : ProofPath) (d : ℕ) (path : ProofPath) (i : ℕ) : List Step → Except ℕ ℕ
  | [] => .ok d
  | proofStep :: rest => do
    let next ← runOne target d (path ++ [.pathStep i]) proofStep
    runList target next path (i + 1) rest

def runOne (target : ProofPath) (d : ℕ) (path : ProofPath) : Step → Except ℕ ℕ
  | .stepTactic span label program =>
    if path = target then .error d
    else .ok (d + displayLineCount (.stepTactic span label program))
  | .stepList span label program =>
    if path = target then .error d
    else .ok (d + displayLineCount (.stepList span label program))
  | .stepSelect span selector mode body =>
    if path = target then .error d
    else do
      let _ ← runList target (d + 1) (path ++ [.pathSelect]) 0 body
      .ok (d + displayLineCount (.stepSelect span selector mode body))
  | .stepEach span body =>
    if path = target then .error d
    else
      match iterationPath isPathEach path target with
      | some p =>
        if pathHasPrefix p target then do
          let _ ← runList target (d + 1) p 0 body
          .ok (d + displayLineCount (.stepEach span body))
        else .ok (d + displayLineCount (.stepEach span body))
      | none => .ok (d + displayLineCount (.stepEach span body))
  | .stepCases span cases =>
    if path = target then .error d
    else do
      let _ ← runBodies target .pathCase path 1 (d + 1) cases
      .ok (d + displayLineCount (.stepCases span cases))
  | .stepChoice span label alternatives =>
    if path = target then .error d
    else do
      let _ ← runBodies target .pathAlternative path 1 (d + 1) alternatives
      .ok (d + displayLineCount (.stepChoice span label alternatives))
  | .stepRepeat span body =>
    if path = target then .error d
    else
      match iterationPath isPathRepeat path target with
      | some p =>
        if pathHasPrefix p target then do
          let _ ← runList target (d + 1) p 0 body
          .ok (d + displayLineCount (.stepRepeat span body))
        else .ok (d + displayLineCount (.stepRepeat span body))
      | none => .ok (d + displayLineCount (.stepRepeat span body))
  | .stepTry span body =>
    if path = target then .error d
    else do
      let _ ← runList target (d + 1) (path ++ [.pathTry]) 0 body
      .ok (d + displayLineCount (.stepTry span body))

/-- The loop over cases or alternatives. -/
def runBodies (target : ProofPath) (component : ℕ → PathComponent) (path : ProofPath) (n j : ℕ) :
    List (List Step) → Except ℕ Unit
  | [] => .ok ()
  | body :: rest => do
    let next ← runList target (j + 1) (path ++ [component n]) 0 body
    runBodies target component path (n + 1) next rest

end

end pathDisplayIndex

def pathDisplayIndex (plan : List Step) (target : ProofPath) : Option ℕ :=
  match pathDisplayIndex.runList target 0 [] 0 plan with
  | .error d => some d
  | .ok _ => none

/-- The element that a count starting from one points to. -/
def nthFromOne {α : Type} (n : ℕ) (xs : List α) : Option α := if n = 0 then none else xs[n - 1]?

mutual

def findSteps : ProofPath → List Step → Option Step
  | [.pathStep i], steps => steps[i]?
  | .pathStep i :: next :: rest, steps =>
    match steps[i]? with
    | some step => findInStep (next :: rest) step
    | none => none
  | _, _ => none

def findInStep : ProofPath → Step → Option Step
  | .pathSelect :: more, .stepSelect _ _ _ body => findSteps more body
  | .pathEach _ :: more, .stepEach _ body => findSteps more body
  | .pathCase n :: more, .stepCases _ cases =>
    match nthFromOne n cases with
    | some body => findSteps more body
    | none => none
  | .pathAlternative n :: more, .stepChoice _ _ alternatives =>
    match nthFromOne n alternatives with
    | some body => findSteps more body
    | none => none
  | .pathTry :: more, .stepTry _ body => findSteps more body
  | .pathRepeat _ :: more, .stepRepeat _ body => findSteps more body
  | _, _ => none

end

/-- The step at a path of a plan. -/
def stepAtPath (plan : List Step) (target : ProofPath) : Option Step := findSteps target plan

/-! ### Where a traversal is -/

/-- A step with one body, and the component that leads to it. -/
inductive BodyOf : Step → PathComponent → List Step → Prop
  | each (span : Span) (body : List Step) (n : ℕ) : BodyOf (.stepEach span body) (.pathEach n) body
  | select (span : Span) (selector : Selector) (mode : SelectMode) (body : List Step) :
    BodyOf (.stepSelect span selector mode body) .pathSelect body
  | repeats (span : Span) (body : List Step) (n : ℕ) :
    BodyOf (.stepRepeat span body) (.pathRepeat n) body
  | tries (span : Span) (body : List Step) : BodyOf (.stepTry span body) .pathTry body

/-- A step with branches, and the components that lead to them. -/
inductive BranchesOf : Step → (ℕ → PathComponent) → List (List Step) → Prop
  | cases (span : Span) (cases : List (List Step)) : BranchesOf (.stepCases span cases) .pathCase cases
  | choice (span : Span) (label : Text) (alternatives : List (List Step)) :
    BranchesOf (.stepChoice span label alternatives) .pathAlternative alternatives

/-- The entries of branches, with their headers. -/
def branchesLineCount (bodies : List (List Step)) : ℕ := bodies.length + bodiesLineCount bodies

/-- At a step number along a path, at an entry and a depth, these steps of the plan are left. -/
inductive Remaining (plan : List Step) : ProofPath → ℕ → ℕ → ℕ → List Step → Prop
  | start : Remaining plan [] 0 0 0 plan
  | next {path : ProofPath} {i d depth : ℕ} {step : Step} {rest : List Step}
    (h : Remaining plan path i d depth (step :: rest)) :
    Remaining plan path (i + 1) (d + displayLineCount step) depth rest
  | body {path : ProofPath} {i d depth : ℕ} {step : Step} {rest body : List Step}
    {component : PathComponent} (h : Remaining plan path i d depth (step :: rest))
    (hbody : BodyOf step component body) :
    Remaining plan (path ++ [.pathStep i] ++ [component]) 0 (d + 1) (depth + 1) body
  | branch {path : ProofPath} {i d depth : ℕ} {step : Step} {rest inner : List Step}
    {component : ℕ → PathComponent} {before after : List (List Step)}
    (h : Remaining plan path i d depth (step :: rest))
    (hbranches : BranchesOf step component (before ++ inner :: after)) :
    Remaining plan (path ++ [.pathStep i] ++ [component (before.length + 1)]) 0
      (d + 1 + branchesLineCount before + 1) (depth + 2) inner

/-- A step of the plan, with its path, its entry and its depth. -/
def Node (plan : List Step) (path : ProofPath) (d depth : ℕ) (step : Step) : Prop :=
  ∃ above i rest, path = above ++ [.pathStep i] ∧ Remaining plan above i d depth (step :: rest)

section

variable {plan steps rest body : List Step} {bodies before after : List (List Step)}
  {path target : ProofPath} {i j n d depth : ℕ} {step : Step} {component : PathComponent}
  {components : ℕ → PathComponent} {name : Text}

theorem displayLineCount_of_bodyOf (h : BodyOf step component body) :
    displayLineCount step = 2 + displayLineCountList body := by
  cases h <;> rw [displayLineCount]

theorem displayLineCount_of_branchesOf (h : BranchesOf step components bodies) :
    displayLineCount step = 2 + branchesLineCount bodies := by
  cases h <;> rw [displayLineCount, branchesLineCount, Nat.add_assoc]

theorem branchesLineCount_nil : branchesLineCount [] = 0 := rfl

theorem branchesLineCount_cons :
    branchesLineCount (body :: bodies) =
      1 + displayLineCountList body + branchesLineCount bodies := by
  rw [branchesLineCount, bodiesLineCount, List.length_cons, branchesLineCount]
  omega

/-! ### The printed entries -/

theorem stepLines_of_bodyOf (h : BodyOf step component body) :
    stepLines i depth step =
      blockLines i depth (headText step) (stepsLines (i + 1) (depth + 1) body) := by
  cases h <;> rw [stepLines]

theorem stepLines_of_branchesOf (h : BranchesOf step components bodies) :
    ∃ name, stepLines i depth step =
      blockLines i depth (headText step) (branchLines name depth 1 (i + 1) bodies) := by
  cases h with
  | cases span cases => exact ⟨_, by rw [stepLines]⟩
  | choice span label alternatives => exact ⟨_, by rw [stepLines]⟩

/-- Entries that end at the number that their count says. -/
def Counted (i count : ℕ) (lines : ℕ × List Text) : Prop :=
  lines.1 = i + count ∧ lines.2.length = count

theorem counted_blockLines {head : Text} {count : ℕ} {inner : ℕ × List Text}
    (h : Counted (i + 1) count inner) : Counted i (2 + count) (blockLines i depth head inner) := by
  obtain ⟨hnext, hlength⟩ := h
  constructor
  · show inner.1 + 1 = i + (2 + count)
    omega
  · show (line i depth head :: inner.2 ++ [line inner.1 depth "end".toList]).length = 2 + count
    rw [List.length_append, List.length_cons, hlength, List.length_singleton]
    omega

mutual

/-- The printer and the counter agree. -/
theorem counted_stepsLines (i depth : ℕ) (steps : List Step) :
    Counted i (displayLineCountList steps) (stepsLines i depth steps) := by
  cases steps with
  | nil =>
    rw [stepsLines, displayLineCountList]
    exact ⟨rfl, rfl⟩
  | cons step rest =>
    obtain ⟨hfirst, hfirstLength⟩ := counted_stepLines i depth step
    obtain ⟨hothers, hothersLength⟩ := counted_stepsLines (stepLines i depth step).1 depth rest
    rw [stepsLines, displayLineCountList]
    constructor
    · rw [hothers, hfirst, Nat.add_assoc]
    · rw [List.length_append, hfirstLength, hothersLength]

theorem counted_stepLines (i depth : ℕ) (step : Step) :
    Counted i (displayLineCount step) (stepLines i depth step) := by
  cases step with
  | stepTactic span label program =>
    rw [stepLines, displayLineCount]
    exact ⟨rfl, rfl⟩
  | stepList span label program =>
    rw [stepLines, displayLineCount]
    exact ⟨rfl, rfl⟩
  | stepEach span body =>
    rw [stepLines, displayLineCount]
    exact counted_blockLines (counted_stepsLines (i + 1) (depth + 1) body)
  | stepSelect span selector mode body =>
    rw [stepLines, displayLineCount]
    exact counted_blockLines (counted_stepsLines (i + 1) (depth + 1) body)
  | stepCases span cases =>
    rw [stepLines, displayLineCount_of_branchesOf (.cases span cases)]
    exact counted_blockLines (counted_branchLines _ depth 1 (i + 1) cases)
  | stepChoice span label alternatives =>
    rw [stepLines, displayLineCount_of_branchesOf (.choice span label alternatives)]
    exact counted_blockLines (counted_branchLines _ depth 1 (i + 1) alternatives)
  | stepRepeat span body =>
    rw [stepLines, displayLineCount]
    exact counted_blockLines (counted_stepsLines (i + 1) (depth + 1) body)
  | stepTry span body =>
    rw [stepLines, displayLineCount]
    exact counted_blockLines (counted_stepsLines (i + 1) (depth + 1) body)

theorem counted_branchLines (name : Text) (depth n j : ℕ) (bodies : List (List Step)) :
    Counted j (branchesLineCount bodies) (branchLines name depth n j bodies) := by
  cases bodies with
  | nil =>
    rw [branchLines, branchesLineCount_nil]
    exact ⟨rfl, rfl⟩
  | cons body bodies =>
    obtain ⟨hinner, hinnerLength⟩ := counted_stepsLines (j + 1) (depth + 2) body
    obtain ⟨hothers, hothersLength⟩ := counted_branchLines name depth (n + 1)
      (stepsLines (j + 1) (depth + 2) body).1 bodies
    rw [branchLines, branchesLineCount_cons]
    constructor
    · rw [hothers, hinner]
      omega
    · rw [List.length_append, List.length_cons, hinnerLength, hothersLength]
      omega

end

theorem length_planEntries (plan : List Step) :
    (planEntries plan).length = displayStepCount plan :=
  (counted_stepsLines 0 0 plan).2

/-- The entries of a branch are among those of the branches, after those before it. -/
theorem branchLines_append (name : Text) (n j : ℕ) {inner : List Step} :
    ∃ first last, (branchLines name depth n j (before ++ inner :: after)).2 =
        first ++ (stepsLines (j + branchesLineCount before + 1) (depth + 2) inner).2 ++ last ∧
      first.length = branchesLineCount before + 1 := by
  induction before generalizing n j with
  | nil =>
    refine ⟨[line j (depth + 1) (name ++ decimal n)],
      (branchLines name depth (n + 1) (stepsLines (j + 1) (depth + 2) inner).1 after).2, ?_, rfl⟩
    rw [List.nil_append, branchLines]
    rfl
  | cons body before ih =>
    obtain ⟨hinner, hlength⟩ := counted_stepsLines (j + 1) (depth + 2) body
    obtain ⟨first, last, hlines, hfirst⟩ := ih (n + 1) (stepsLines (j + 1) (depth + 2) body).1
    refine ⟨line j (depth + 1) (name ++ decimal n) ::
      (stepsLines (j + 1) (depth + 2) body).2 ++ first, last, ?_, ?_⟩
    · have hstart : (stepsLines (j + 1) (depth + 2) body).1 + branchesLineCount before + 1 =
          j + branchesLineCount (body :: before) + 1 := by
        rw [hinner, branchesLineCount_cons]
        omega
      rw [hstart] at hlines
      rw [List.cons_append, branchLines]
      show _ :: _ ++ (branchLines name depth (n + 1) (stepsLines (j + 1) (depth + 2) body).1
        (before ++ inner :: after)).2 = _
      rw [hlines]
      simp only [List.append_assoc, List.cons_append]
    · rw [List.length_append, List.length_cons, hlength, hfirst, branchesLineCount_cons]
      omega

/-- The steps that are left are printed at their entry. -/
theorem planEntries_of_remaining (h : Remaining plan path i d depth steps) :
    ∃ first last, planEntries plan = first ++ (stepsLines d depth steps).2 ++ last ∧
      first.length = d := by
  induction h with
  | start => exact ⟨[], [], (List.append_nil _).symm, rfl⟩
  | @next path i d depth step rest h ih =>
    obtain ⟨first, last, hentries, hfirst⟩ := ih
    obtain ⟨hstep, hlength⟩ := counted_stepLines d depth step
    refine ⟨first ++ (stepLines d depth step).2, last, ?_, ?_⟩
    · rw [hentries, stepsLines, ← hstep]
      simp only [List.append_assoc]
    · rw [List.length_append, hfirst, hlength]
  | @body path i d depth step rest body component h hbody ih =>
    obtain ⟨first, last, hentries, hfirst⟩ := ih
    refine ⟨first ++ [line d depth (headText step)],
      line (stepsLines (d + 1) (depth + 1) body).1 depth "end".toList ::
        (stepsLines (stepLines d depth step).1 depth rest).2 ++ last, ?_, ?_⟩
    · rw [hentries, stepsLines, stepLines_of_bodyOf hbody]
      simp only [blockLines, List.append_assoc, List.cons_append, List.nil_append]
    · rw [List.length_append, hfirst, List.length_singleton]
  | @branch path i d depth step rest inner components before after h hbranches ih =>
    obtain ⟨first, last, hentries, hfirst⟩ := ih
    obtain ⟨name, hlines⟩ := @stepLines_of_branchesOf _ d depth _ _ hbranches
    obtain ⟨front, back, hbranch, hfront⟩ :=
      @branchLines_append before after depth name 1 (d + 1) inner
    refine ⟨first ++ line d depth (headText step) :: front,
      back ++ line (branchLines name depth 1 (d + 1) (before ++ inner :: after)).1 depth "end".toList ::
        (stepsLines (stepLines d depth step).1 depth rest).2 ++ last, ?_, ?_⟩
    · rw [hentries, stepsLines, hlines]
      simp only [blockLines, hbranch, List.append_assoc, List.cons_append, List.nil_append]
    · rw [List.length_append, List.length_cons, hfirst, hfront]
      omega

/-- The printed entry of a step is at the step's number, and says so. -/
theorem planEntries_getElem? (h : Node plan path d depth step) :
    (planEntries plan)[d]? = some (line d depth (headText step)) := by
  obtain ⟨above, i, rest, -, hremaining⟩ := h
  obtain ⟨first, last, hentries, hfirst⟩ := planEntries_of_remaining hremaining
  have hhead : ∃ others, (stepLines d depth step).2 = line d depth (headText step) :: others := by
    cases step <;> exact ⟨_, by rw [stepLines] <;> rfl⟩
  obtain ⟨others, hothers⟩ := hhead
  rw [hentries, stepsLines, List.append_assoc, List.getElem?_append_right hfirst.le, hfirst,
    Nat.sub_self, hothers]
  rfl

end

end Holbuild.ProofRuntime
