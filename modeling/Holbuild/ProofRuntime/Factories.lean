import Holbuild.ProofRuntime.Numbering
import Mathlib.Data.List.Forall2

/-!
# Proof factories

`analyser_main.sml` and `proof_runtime.sml`. The analyser writes for each fragment of a plan a factory,
which HOL compiles at the place of the proof. The runtime looks a fragment up by its text, and compiles it
at top level when there is no factory for it.

`fragmentsList` are the fragments of a plan. The tables have one factory for each (`mem_proofFactories_iff`),
and its code is the fragment (`compiler_of_mem`). What the runner compiles of a plan are its fragments
(`run_congr`), in whatever order and however often, so with the plan's factories it compiles nothing at
top level (`factories_cover`).

Scope. HOL's history and what tactics do to it are a parameter (`Hol`). What is printed about a failure is
left out, as in the structural runner.
-/

set_option autoImplicit false
set_option relaxedAutoImplicit false

namespace Holbuild.ProofRuntime

open Library

/-! ### Fragments -/

/-- Whether a fragment is a tactic or a list tactic. -/
inductive Kind
  | tactic | listTactic
deriving DecidableEq, Repr

def selectorProgram : Selector → Option Text
  | .selectFirst => none
  | .selectMatchingFirst patterns | .selectMatchingAll patterns => some ("Q.RENAME_TAC ".toList ++ patterns)

def selectorListTactic : Selector → Option Text
  | .selectFirst => none
  | .selectMatchingFirst patterns =>
    some ("Tactical.FIRST_LT (Q.RENAME_TAC ".toList ++ patterns ++ ")".toList)
  | .selectMatchingAll patterns =>
    some ("Tactical.SELECT_LT (Q.RENAME_TAC ".toList ++ patterns ++ ")".toList)

/-! ### Plans as code -/

def smlString (text : Text) : Text := '"' :: stringToString text ++ ['"']

def smlList (texts : List Text) : Text := '[' :: concatWith ", ".toList texts ++ [']']

def selectorSml : Selector → Text
  | .selectFirst => "HolbuildProofIr.SelectFirst".toList
  | .selectMatchingFirst patterns => "HolbuildProofIr.SelectMatchingFirst ".toList ++ smlString patterns
  | .selectMatchingAll patterns => "HolbuildProofIr.SelectMatchingAll ".toList ++ smlString patterns

def modeSml : SelectMode → Text
  | .selectSolve => "HolbuildProofIr.SelectSolve".toList
  | .selectKeep => "HolbuildProofIr.SelectKeep".toList

/-- A step: its constructor, its span and its other fields. -/
def stepRecord (constructor : String) (span : Span) (fields : Text) : Text :=
  "HolbuildProofIr.".toList ++ constructor.toList ++ " \x7bstart_pos=".toList ++ decimal span.1 ++
    ", end_pos=".toList ++ decimal span.2 ++ ", ".toList ++ fields ++ "\x7d".toList

mutual

def stepSml : Step → Text
  | .stepTactic span label program =>
    stepRecord "StepTactic" span
      ("label=".toList ++ smlString label ++ ", program=".toList ++ smlString program)
  | .stepList span label program =>
    stepRecord "StepList" span ("label=".toList ++ smlString label ++ ", program=".toList ++ smlString program)
  | .stepEach span body => stepRecord "StepEach" span ("body=".toList ++ smlList (stepsSml body))
  | .stepSelect span selector mode body =>
    stepRecord "StepSelect" span
      ("selector=".toList ++ selectorSml selector ++ ", mode=".toList ++ modeSml mode ++ ", body=".toList ++
        smlList (stepsSml body))
  | .stepCases span cases => stepRecord "StepCases" span ("cases=".toList ++ smlList (bodiesSml cases))
  | .stepChoice span label alternatives =>
    stepRecord "StepChoice" span
      ("label=".toList ++ smlString label ++ ", alternatives=".toList ++ smlList (bodiesSml alternatives))
  | .stepRepeat span body => stepRecord "StepRepeat" span ("body=".toList ++ smlList (stepsSml body))
  | .stepTry span body => stepRecord "StepTry" span ("body=".toList ++ smlList (stepsSml body))

def stepsSml : List Step → List Text
  | [] => []
  | step :: rest => stepSml step :: stepsSml rest

def bodiesSml : List (List Step) → List Text
  | [] => []
  | body :: rest => smlList (stepsSml body) :: bodiesSml rest

end

def planSml (steps : List Step) : Text := smlList (stepsSml steps)

theorem newline_notMem_smlString (text : Text) : '\n' ∉ smlString text := by
  have hquote : '\n' ∉ ['"'] := by decide
  have htext : '\n' ∉ stringToString text := fun hmem ↦ by
    obtain ⟨c, -, hc⟩ := List.mem_flatMap.mp hmem
    exact newline_notMem_charToString c hc
  exact fun hmem ↦ (List.mem_append.mp hmem).elim
    (fun h ↦ (List.mem_cons.mp h).elim (by decide) htext) hquote

theorem newline_notMem_smlList {texts : List Text} (h : ∀ text ∈ texts, '\n' ∉ text) : '\n' ∉ smlList texts := by
  have hseparator : '\n' ∉ ", ".toList := by decide
  have htexts := notMem_concatWith hseparator h
  have hclose : '\n' ∉ [']'] := by decide
  exact fun hmem ↦ (List.mem_append.mp hmem).elim
    (fun h ↦ (List.mem_cons.mp h).elim (by decide) htexts) hclose

theorem newline_notMem_selectorSml (selector : Selector) : '\n' ∉ selectorSml selector := by
  cases selector with
  | selectFirst =>
    have hfirst : '\n' ∉ "HolbuildProofIr.SelectFirst".toList := by decide
    exact hfirst
  | selectMatchingFirst patterns =>
    have hname : '\n' ∉ "HolbuildProofIr.SelectMatchingFirst ".toList := by decide
    exact fun hmem ↦ (List.mem_append.mp hmem).elim hname (newline_notMem_smlString patterns)
  | selectMatchingAll patterns =>
    have hname : '\n' ∉ "HolbuildProofIr.SelectMatchingAll ".toList := by decide
    exact fun hmem ↦ (List.mem_append.mp hmem).elim hname (newline_notMem_smlString patterns)

theorem newline_notMem_modeSml (mode : SelectMode) : '\n' ∉ modeSml mode := by
  cases mode <;> decide

theorem newline_notMem_stepRecord {constructor : String} {fields : Text} (span : Span)
    (hname : '\n' ∉ constructor.toList) (hfields : '\n' ∉ fields) :
    '\n' ∉ stepRecord constructor span fields := by
  have hdecimal (n : ℕ) : '\n' ∉ decimal n := fun hmem ↦ absurd (isDigit_of_mem_decimal hmem) (by decide)
  have hfront : '\n' ∉ "HolbuildProofIr.".toList ∧ '\n' ∉ " \x7bstart_pos=".toList := by decide
  have hback : '\n' ∉ ", end_pos=".toList ∧ '\n' ∉ ", ".toList ∧ '\n' ∉ "\x7d".toList := by decide
  unfold stepRecord
  simp only [List.mem_append, hname, hfields, hdecimal, hfront, hback, or_self, not_false_eq_true]

mutual

theorem newline_notMem_stepSml : (step : Step) → '\n' ∉ stepSml step
  | .stepTactic span label program => by
    have hname : '\n' ∉ "StepTactic".toList := by decide
    have hfields : '\n' ∉ "label=".toList ∧ '\n' ∉ ", program=".toList := by decide
    rw [stepSml]
    refine newline_notMem_stepRecord span hname ?_
    simp only [List.mem_append, hfields, newline_notMem_smlString, or_self, not_false_eq_true]
  | .stepList span label program => by
    have hname : '\n' ∉ "StepList".toList := by decide
    have hfields : '\n' ∉ "label=".toList ∧ '\n' ∉ ", program=".toList := by decide
    rw [stepSml]
    refine newline_notMem_stepRecord span hname ?_
    simp only [List.mem_append, hfields, newline_notMem_smlString, or_self, not_false_eq_true]
  | .stepEach span body => by
    have hname : '\n' ∉ "StepEach".toList := by decide
    rw [stepSml]
    exact newline_notMem_stepRecord span hname (newline_notMem_body body)
  | .stepSelect span selector mode body => by
    have hname : '\n' ∉ "StepSelect".toList := by decide
    have hfields : '\n' ∉ "selector=".toList ∧ '\n' ∉ ", mode=".toList ∧ '\n' ∉ ", body=".toList := by decide
    have hbody := newline_notMem_smlList (newline_notMem_stepsSml body)
    rw [stepSml]
    refine newline_notMem_stepRecord span hname ?_
    simp only [List.mem_append, hfields, hbody, newline_notMem_selectorSml, newline_notMem_modeSml, or_self,
      not_false_eq_true]
  | .stepCases span cases => by
    have hname : '\n' ∉ "StepCases".toList := by decide
    have hfields : '\n' ∉ "cases=".toList := by decide
    have hcases := newline_notMem_smlList (newline_notMem_bodiesSml cases)
    rw [stepSml]
    exact newline_notMem_stepRecord span hname fun hmem ↦ (List.mem_append.mp hmem).elim hfields hcases
  | .stepChoice span label alternatives => by
    have hname : '\n' ∉ "StepChoice".toList := by decide
    have hfields : '\n' ∉ "label=".toList ∧ '\n' ∉ ", alternatives=".toList := by decide
    have halternatives := newline_notMem_smlList (newline_notMem_bodiesSml alternatives)
    rw [stepSml]
    refine newline_notMem_stepRecord span hname ?_
    simp only [List.mem_append, hfields, halternatives, newline_notMem_smlString, or_self, not_false_eq_true]
  | .stepRepeat span body => by
    have hname : '\n' ∉ "StepRepeat".toList := by decide
    rw [stepSml]
    exact newline_notMem_stepRecord span hname (newline_notMem_body body)
  | .stepTry span body => by
    have hname : '\n' ∉ "StepTry".toList := by decide
    rw [stepSml]
    exact newline_notMem_stepRecord span hname (newline_notMem_body body)

theorem newline_notMem_body (body : List Step) : '\n' ∉ "body=".toList ++ smlList (stepsSml body) := by
  have hfield : '\n' ∉ "body=".toList := by decide
  have hbody := newline_notMem_smlList (newline_notMem_stepsSml body)
  exact fun hmem ↦ (List.mem_append.mp hmem).elim hfield hbody

theorem newline_notMem_stepsSml : (steps : List Step) → ∀ text ∈ stepsSml steps, '\n' ∉ text
  | [], _, h => nomatch h
  | step :: rest, text, h => by
    rw [stepsSml] at h
    rcases List.mem_cons.mp h with rfl | h
    · exact newline_notMem_stepSml step
    · exact newline_notMem_stepsSml rest text h

theorem newline_notMem_bodiesSml : (bodies : List (List Step)) → ∀ text ∈ bodiesSml bodies, '\n' ∉ text
  | [], _, h => nomatch h
  | body :: rest, text, h => by
    rw [bodiesSml] at h
    rcases List.mem_cons.mp h with rfl | h
    · exact newline_notMem_smlList (newline_notMem_stepsSml body)
    · exact newline_notMem_bodiesSml rest text h

end

/-- A plan is written on one line. -/
theorem newline_notMem_planSml (steps : List Step) : '\n' ∉ planSml steps :=
  newline_notMem_smlList (newline_notMem_stepsSml steps)

/-! ### What the analyser writes -/

/-- The texts of the tactics and of the list tactics that were collected, the last one first. -/
structure Collected where
  tactics : List Text
  lists : List Text

def add (text : Text) (texts : List Text) : List Text := if text ∈ texts then texts else text :: texts

def addOption : Option Text → List Text → List Text
  | none, texts => texts
  | some text, texts => add text texts

mutual

def collect : Step → Collected → Collected
  | .stepTactic _ _ program, acc => { acc with tactics := add program acc.tactics }
  | .stepList _ _ program, acc => { acc with lists := add program acc.lists }
  | .stepSelect _ selector _ body, acc =>
    collectList body
      ⟨addOption (selectorProgram selector) acc.tactics, addOption (selectorListTactic selector) acc.lists⟩
  | .stepEach _ body, acc | .stepRepeat _ body, acc | .stepTry _ body, acc => collectList body acc
  | .stepCases _ bodies, acc | .stepChoice _ _ bodies, acc => collectBodies bodies acc

def collectList : List Step → Collected → Collected
  | [], acc => acc
  | step :: rest, acc => collectList rest (collect step acc)

def collectBodies : List (List Step) → Collected → Collected
  | [], acc => acc
  | body :: rest, acc => collectBodies rest (collectList body acc)

end

/-- The function that makes a fragment's tactic. -/
def factoryCode (program : Text) : Text := "fn () => (".toList ++ program ++ ")".toList

def factorySml (program : Text) : Text :=
  '(' :: smlString program ++ ", ".toList ++ factoryCode program ++ ")".toList

def factoriesSml (steps : List Step) : Text :=
  let collected := collectList steps ⟨[], []⟩
  "\x7btactics=".toList ++ smlList (collected.tactics.reverse.map factorySml) ++ ", list_tactics=".toList ++
    smlList (collected.lists.reverse.map factorySml) ++ "\x7d".toList

/-! ### What HOL reads -/

/-- A fragment's text, and the code that HOL compiles for it. -/
structure Factory where
  text : Text
  code : Text
deriving DecidableEq, Repr

/-- `HolbuildTacticCompat.proof_factories`. -/
structure ProofFactories where
  tactics : List Factory
  listTactics : List Factory
deriving DecidableEq, Repr

/-- The text stands for the factory: the literal's value is the fragment's text. -/
def StandsFor (sml : Text) (factory : Factory) : Prop :=
  ∃ literal, sml = "(\"".toList ++ literal ++ "\", ".toList ++ factory.code ++ ")".toList ∧
    stringFromString literal = some factory.text

def factoryOf (program : Text) : Factory := ⟨program, factoryCode program⟩

/-- The tables that the factories of a plan stand for. -/
def proofFactories (steps : List Step) : ProofFactories :=
  let collected := collectList steps ⟨[], []⟩
  ⟨collected.tactics.reverse.map factoryOf, collected.lists.reverse.map factoryOf⟩

def ProofFactories.table (factories : ProofFactories) : Kind → List Factory
  | .tactic => factories.tactics
  | .listTactic => factories.listTactics

/-! ### The goals -/

/-- A compiled fragment: a factory's, or compiled at top level. -/
inductive Maker
  | factory (code : Text)
  | topLevel (code : Text)
deriving DecidableEq, Repr

inductive ListTactic
  | allLt
  | allGoals (make : Maker)
  | made (make : Maker)
  | reorder (frontCount : ℕ) (middleCount : ℤ)
  | restoreOrder (lengths : List ℕ)
deriving DecidableEq, Repr

/-- HOL's history of goals: the goals on top, whether the theorem is proved, list tactics applied to the
first goals of a focus or to all, with a step's timeout or without, on which goals a tactic succeeds, and
the top level. -/
structure Hol (H Goal : Type) where
  topGoals (history : H) : Except Raised (List Goal)
  isProved (history : H) : Bool
  appendHistory (timeout : Option Text) (focus : Option ℕ) (tactic : ListTactic) : Raising H Raised Unit
  probe (label : Text) (make : Maker) (goals : List Goal) : Raising H Raised (Goal → Bool)
  quseString (code : Text) : Raising H Raised Bool
  historyStepCount (history : H) : ℕ
  repeatIterationLimit : Except Raised ℕ
  prefixSignature (path : ProofPath) : Option Text

/-- The history and the numbers of goals behind the focused ones. -/
structure Proof (H : Type) where
  history : H
  branchTailCounts : List ℕ

structure FocusSnapshot (Goal : Type) where
  goals : List Goal
  totalCount : ℕ
  generatedCount : ℕ
  tailCount : ℕ

/-- Compiles a fragment of a step. -/
abbrev Compile (H : Type) := Kind → (label program : Text) → Raising (Proof H) Raised Maker

section Runtime

open Raising hiding pure bind

variable {H Goal α : Type} (hol : Hol H Goal)

def failed (message : Text) : Raising (Proof H) Raised α := raise (.failed message)

def onHistory (action : Raising H Raised α) : Raising (Proof H) Raised α := fun p ↦
  ((action p.history).1, { p with history := (action p.history).2 })

/-- The factory of a fragment, or what top level makes of it. -/
def compileFragment (factories : Option ProofFactories) (kind : Kind) (reference what : String)
    (label program : Text) : Raising (Proof H) Raised Maker :=
  match factories.bind fun f ↦ (f.table kind).find? fun factory ↦ factory.text = program with
  | some factory => pure (.factory factory.code)
  | none => do
    let code := "HolbuildProofRuntime.".toList ++ reference.toList ++ " := (fn () => (".toList ++ program ++
      "));".toList
    let compiled ← onHistory (hol.quseString code)
    if compiled then pure (.topLevel code)
    else failed (what.toList ++ " fragment did not compile: ".toList ++ label)

def compileTactic (factories : Option ProofFactories) (label program : Text) :
    Raising (Proof H) Raised Maker :=
  compileFragment hol factories .tactic "compiled_tactic_ref" "tactic" label program

def compileListTactic (factories : Option ProofFactories) (label program : Text) :
    Raising (Proof H) Raised Maker :=
  compileFragment hol factories .listTactic "compiled_list_tactic_ref" "list tactic" label program

def compiler (factories : Option ProofFactories) : Compile H
  | .tactic => compileTactic hol factories
  | .listTactic => compileListTactic hol factories

def activeFocusSnapshot (label : Text) : Raising (Proof H) Raised (FocusSnapshot Goal) := do
  let p ← get
  let tailCount := p.branchTailCounts.headD 0
  match hol.topGoals p.history with
  | .ok goals =>
    if goals.length < tailCount then
      failed ("focus tail count exceeds open goals: ".toList ++ label ++ " (tail count ".toList ++
        decimal tailCount ++ ", open goals ".toList ++ decimal goals.length ++ ")".toList)
    else pure ⟨goals, goals.length, goals.length - tailCount, tailCount⟩
  | .error e => if tailCount = 0 ∧ hol.isProved p.history then pure ⟨[], 0, 0, 0⟩ else raise e

def applyFocusListTactic (label : Text) (listTactic : ListTactic) : Raising (Proof H) Raised Unit := do
  let snapshot ← activeFocusSnapshot hol label
  let p ← get
  if snapshot.generatedCount = 0 then
    if snapshot.totalCount = 0 then pure () else onHistory (hol.appendHistory none none .allLt)
  else
    let focus := if p.branchTailCounts = [] then none else some snapshot.generatedCount
    onHistory (hol.appendHistory (some label) focus listTactic)

variable (compile : Compile H)

def applyTacticStep (label program : Text) : Raising (Proof H) Raised Unit := do
  let make ← compile .tactic label program
  applyFocusListTactic hol label (.allGoals make)

def noOpenGoals (p : Proof H) : Bool := !(hol.topGoals p.history).toBool

def allgoalsSuffixLabel (label : Text) : Bool := ">> ".toList.isPrefixOf label

def applyListTacticStep (label program : Text) : Raising (Proof H) Raised Unit := do
  let p ← get
  if allgoalsSuffixLabel label && noOpenGoals hol p then pure ()
  else do
    let make ← compile .listTactic label program
    applyFocusListTactic hol label (.made make)

def pushBranchTailCount (tailCount : ℕ) : Raising (Proof H) Raised Unit :=
  modify fun p ↦ { p with branchTailCounts := tailCount :: p.branchTailCounts }

def popBranchTailCount (label : Text) : Raising (Proof H) Raised Unit := do
  let p ← get
  match p.branchTailCounts with
  | [] => failed ("focus close without active focus: ".toList ++ label)
  | _ :: rest => modify fun p ↦ { p with branchTailCounts := rest }

def matchingSelectorCount (label : Text) (selector : Selector) (goals : List Goal) :
    Raising (Proof H) Raised (Option ℕ) :=
  match selectorProgram selector with
  | none => pure (if goals.isEmpty then none else some 1)
  | some program => do
    let make ← compile .tactic label program
    let probe ← onHistory (hol.probe label make goals)
    pure <| match selector with
      | .selectMatchingFirst _ => if goals.any probe then some 1 else none
      | _ => some (goals.countP probe)

/-- The selected goals go to the front. -/
def applySelector (label : Text) (selector : Selector) : Raising (Proof H) Raised Unit :=
  match selectorListTactic selector with
  | none => pure ()
  | some program => do
    let make ← compile .listTactic label program
    applyFocusListTactic hol label (.made make)

def pushSelectFocus (label : Text) (selector : Selector) : Raising (Proof H) Raised ℕ := do
  let snapshot ← activeFocusSnapshot hol label
  let count ← matchingSelectorCount hol compile label selector (snapshot.goals.take snapshot.generatedCount)
  match count with
  | none => failed ("select with no matching focused goals: ".toList ++ label)
  | some selected => do
    applySelector hol compile label selector
    pushBranchTailCount (snapshot.tailCount + snapshot.generatedCount - selected)
    pure selected

def focusedGoalCount (label : Text) : Raising (Proof H) Raised ℕ := do
  let snapshot ← activeFocusSnapshot hol label
  pure snapshot.generatedCount

def closeFocus (label : Text) : SelectMode → Raising (Proof H) Raised Unit
  | .selectKeep => popBranchTailCount label
  | .selectSolve => do
    let remaining ← focusedGoalCount hol label
    if remaining = 0 then popBranchTailCount label
    else failed ("selected goals were not solved: ".toList ++ label)

def reorderFocusedFrontAfter (label : Text) (frontCount : ℕ) (middleCount : ℤ) :
    Raising (Proof H) Raised Unit :=
  if frontCount = 0 ∨ middleCount = 0 then pure ()
  else applyFocusListTactic hol label (.reorder frontCount middleCount)

def restoreFocusedGroupOrder (label : Text) (lengths : List ℕ) : Raising (Proof H) Raised Unit :=
  match lengths.filter (· ≠ 0) with
  | [] | [_] => pure ()
  | nonzeroLengths => applyFocusListTactic hol label (.restoreOrder nonzeroLengths)

def structural (constructor : String) : Raising (Proof H) Raised Unit :=
  failed ("internal error: ".toList ++ constructor.toList ++ " is handled by structural runner".toList)

def step : Step → Raising (Proof H) Raised Unit
  | .stepTactic _ label program => applyTacticStep hol compile label program
  | .stepList _ label program => applyListTacticStep hol compile label program
  | .stepEach .. => structural "StepEach"
  | .stepSelect .. => structural "StepSelect"
  | .stepCases .. => structural "StepCases"
  | .stepChoice .. => structural "StepChoice"
  | .stepRepeat .. => structural "StepRepeat"
  | .stepTry .. => structural "StepTry"

/-- What the runner calls. -/
def prover : Prover (Proof H) where
  step _ := step hol compile
  focusedGoalCount := focusedGoalCount hol
  pushSelectFocus := pushSelectFocus hol compile
  popBranchTailCount := popBranchTailCount
  closeFocus := closeFocus hol
  reorderFocusedFrontAfter := reorderFocusedFrontAfter hol
  restoreFocusedGroupOrder := restoreFocusedGroupOrder hol
  branchTailCounts p := p.branchTailCounts
  historyStepCount p := hol.historyStepCount p.history
  repeatIterationLimit := hol.repeatIterationLimit
  prefixSignature := hol.prefixSignature

end Runtime

/-! ### The fragments of a plan -/

def selectorFragments (selector : Selector) : List (Kind × Text) :=
  (selectorProgram selector).toList.map (Kind.tactic, ·) ++
    (selectorListTactic selector).toList.map (Kind.listTactic, ·)

mutual

/-- The fragments that a step needs. -/
def fragments : Step → List (Kind × Text)
  | .stepTactic _ _ program => [(.tactic, program)]
  | .stepList _ _ program => [(.listTactic, program)]
  | .stepSelect _ selector _ body => selectorFragments selector ++ fragmentsList body
  | .stepEach _ body | .stepRepeat _ body | .stepTry _ body => fragmentsList body
  | .stepCases _ bodies | .stepChoice _ _ bodies => fragmentsBodies bodies

def fragmentsList : List Step → List (Kind × Text)
  | [] => []
  | step :: rest => fragments step ++ fragmentsList rest

def fragmentsBodies : List (List Step) → List (Kind × Text)
  | [] => []
  | body :: rest => fragmentsList body ++ fragmentsBodies rest

end

/-! ### Collecting -/

def Collected.of (collected : Collected) : Kind → List Text
  | .tactic => collected.tactics
  | .listTactic => collected.lists

theorem mem_add {text other : Text} {texts : List Text} :
    text ∈ add other texts ↔ text ∈ texts ∨ text = other := by
  rw [add]
  split_ifs with h
  · exact ⟨.inl, fun hmem ↦ hmem.elim id fun heq ↦ heq ▸ h⟩
  · rw [List.mem_cons, or_comm]

theorem nodup_add {texts : List Text} (h : texts.Nodup) (text : Text) : (add text texts).Nodup := by
  rw [add]
  split_ifs with hmem
  · exact h
  · exact List.nodup_cons.mpr ⟨hmem, h⟩

/-- What is collected after some fragments: those too, and each once. -/
structure Collects (fragments : List (Kind × Text)) (before after : Collected) : Prop where
  mem (kind : Kind) (text : Text) : text ∈ after.of kind ↔ text ∈ before.of kind ∨ (kind, text) ∈ fragments
  nodup (kind : Kind) : (before.of kind).Nodup → (after.of kind).Nodup

theorem Collects.nil (collected : Collected) : Collects [] collected collected where
  mem kind text := by simp
  nodup kind h := h

theorem Collects.append {first second : List (Kind × Text)} {a b c : Collected} (hfirst : Collects first a b)
    (hsecond : Collects second b c) : Collects (first ++ second) a c where
  mem kind text := by rw [hsecond.mem, hfirst.mem, List.mem_append, or_assoc]
  nodup kind h := hsecond.nodup kind (hfirst.nodup kind h)

theorem collects_tactic (program : Text) (acc : Collected) :
    Collects [(.tactic, program)] acc { acc with tactics := add program acc.tactics } where
  mem kind text := by cases kind <;> simp [Collected.of, mem_add]
  nodup kind h := by
    cases kind with
    | tactic => exact nodup_add h program
    | listTactic => exact h

theorem collects_list (program : Text) (acc : Collected) :
    Collects [(.listTactic, program)] acc { acc with lists := add program acc.lists } where
  mem kind text := by cases kind <;> simp [Collected.of, mem_add]
  nodup kind h := by
    cases kind with
    | tactic => exact h
    | listTactic => exact nodup_add h program

theorem collects_selector (selector : Selector) (acc : Collected) :
    Collects (selectorFragments selector) acc
      ⟨addOption (selectorProgram selector) acc.tactics, addOption (selectorListTactic selector) acc.lists⟩ := by
  cases selector with
  | selectFirst => exact .nil acc
  | selectMatchingFirst patterns => exact (collects_tactic _ acc).append (collects_list _ _)
  | selectMatchingAll patterns => exact (collects_tactic _ acc).append (collects_list _ _)

mutual

theorem collects_collect (step : Step) (acc : Collected) : Collects (fragments step) acc (collect step acc) := by
  cases step with
  | stepTactic span label program =>
    rw [fragments, collect]
    exact collects_tactic program acc
  | stepList span label program =>
    rw [fragments, collect]
    exact collects_list program acc
  | stepSelect span selector mode body =>
    rw [fragments, collect]
    exact (collects_selector selector acc).append (collects_collectList body _)
  | stepEach span body =>
    rw [fragments, collect]
    exact collects_collectList body acc
  | stepRepeat span body =>
    rw [fragments, collect]
    exact collects_collectList body acc
  | stepTry span body =>
    rw [fragments, collect]
    exact collects_collectList body acc
  | stepCases span bodies =>
    rw [fragments, collect]
    exact collects_collectBodies bodies acc
  | stepChoice span label bodies =>
    rw [fragments, collect]
    exact collects_collectBodies bodies acc

theorem collects_collectList (steps : List Step) (acc : Collected) :
    Collects (fragmentsList steps) acc (collectList steps acc) := by
  cases steps with
  | nil =>
    rw [fragmentsList, collectList]
    exact .nil acc
  | cons step rest =>
    rw [fragmentsList, collectList]
    exact (collects_collect step acc).append (collects_collectList rest _)

theorem collects_collectBodies (bodies : List (List Step)) (acc : Collected) :
    Collects (fragmentsBodies bodies) acc (collectBodies bodies acc) := by
  cases bodies with
  | nil =>
    rw [fragmentsBodies, collectBodies]
    exact .nil acc
  | cons body rest =>
    rw [fragmentsBodies, collectBodies]
    exact (collects_collectList body acc).append (collects_collectBodies rest _)

end

/-! ### The tables -/

theorem proofFactories_table (plan : List Step) (kind : Kind) :
    (proofFactories plan).table kind = ((collectList plan ⟨[], []⟩).of kind).reverse.map factoryOf := by
  cases kind <;> rfl

/-- The tables have the factories of the plan's fragments, and no others. -/
theorem mem_proofFactories_iff {plan : List Step} {kind : Kind} {factory : Factory} :
    factory ∈ (proofFactories plan).table kind ↔
      (kind, factory.text) ∈ fragmentsList plan ∧ factory.code = factoryCode factory.text := by
  have hnone : ∀ text : Text, ¬ text ∈ Collected.of ⟨[], []⟩ kind := by
    intro text
    cases kind <;> exact List.not_mem_nil
  rw [proofFactories_table, List.mem_map]
  simp only [List.mem_reverse, (collects_collectList plan ⟨[], []⟩).mem, hnone, false_or]
  constructor
  · rintro ⟨text, hmem, rfl⟩
    exact ⟨hmem, rfl⟩
  · rintro ⟨hmem, hcode⟩
    exact ⟨factory.text, hmem, by rw [factoryOf, ← hcode]⟩

/-- A table has one factory for a text. -/
theorem nodup_proofFactories (plan : List Step) (kind : Kind) :
    (((proofFactories plan).table kind).map Factory.text).Nodup := by
  have hnodup := (collects_collectList plan ⟨[], []⟩).nodup kind (by cases kind <;> exact List.nodup_nil)
  have hid : Factory.text ∘ factoryOf = id := rfl
  rw [proofFactories_table, List.map_map, hid, List.map_id]
  exact (List.reverse_perm _).nodup_iff.mpr hnodup

theorem find?_proofFactories {plan : List Step} {kind : Kind} {program : Text}
    (h : (kind, program) ∈ fragmentsList plan) :
    ((proofFactories plan).table kind).find? (fun factory ↦ factory.text = program) =
      some (factoryOf program) := by
  have hmem : factoryOf program ∈ (proofFactories plan).table kind := mem_proofFactories_iff.mpr ⟨h, rfl⟩
  rcases hfind : ((proofFactories plan).table kind).find? (fun factory ↦ factory.text = program) with _ | found
  · exact absurd (decide_eq_true rfl) (List.find?_eq_none.mp hfind _ hmem)
  · have htext : found.text = program := by simpa using List.find?_some hfind
    obtain ⟨-, hcode⟩ := mem_proofFactories_iff.mp (List.mem_of_find?_eq_some hfind)
    cases found with
    | mk text code =>
      obtain rfl : text = program := htext
      obtain rfl : code = factoryCode text := hcode
      exact hfind

/-- With the plan's factories, a fragment of the plan is compiled where the proof is. -/
theorem compiler_of_mem {H Goal : Type} (hol : Hol H Goal) {plan : List Step} {kind : Kind} {program : Text}
    (h : (kind, program) ∈ fragmentsList plan) (label : Text) :
    compiler hol (some (proofFactories plan)) kind label program =
      Pure.pure (.factory (factoryCode program)) := by
  have hfind := find?_proofFactories h
  cases kind
  all_goals
    simp only [compiler, compileTactic, compileListTactic, compileFragment, Option.bind_some, hfind]
    rfl

/-- What the analyser writes stands for the tables. -/
theorem standsFor_factorySml {program : Text} (h : Bytes program) :
    StandsFor (factorySml program) (factoryOf program) := by
  refine ⟨stringToString program, ?_, stringFromString_stringToString h⟩
  simp [factorySml, smlString, factoryOf]

/-! ### What the runner compiles -/

section Runner

variable {H Goal α : Type} (hol : Hol H Goal) {compile compile' : Compile H} {S S' : List (Kind × Text)}

/-- Two compilers do the same with some fragments. -/
def AgreeOn (S : List (Kind × Text)) (compile compile' : Compile H) : Prop :=
  ∀ kind program, (kind, program) ∈ S → ∀ label, compile kind label program = compile' kind label program

theorem AgreeOn.mono (h : AgreeOn S compile compile') (hsub : S' ⊆ S) : AgreeOn S' compile compile' :=
  fun kind program hmem ↦ h kind program (hsub hmem)

theorem AgreeOn.left (h : AgreeOn (S ++ S') compile compile') : AgreeOn S compile compile' :=
  h.mono (List.subset_append_left S S')

theorem AgreeOn.right (h : AgreeOn (S ++ S') compile compile') : AgreeOn S' compile compile' :=
  h.mono (List.subset_append_right S S')

theorem step_congr {proofStep : Step} (h : AgreeOn (fragments proofStep) compile compile') :
    step hol compile proofStep = step hol compile' proofStep := by
  cases proofStep with
  | stepTactic span label program =>
    have hsame := h .tactic program (by simp [fragments]) label
    simp only [step, applyTacticStep, hsame]
  | stepList span label program =>
    have hsame := h .listTactic program (by simp [fragments]) label
    simp only [step, applyListTacticStep, hsame]
  | _ => rfl

theorem pushSelectFocus_congr {selector : Selector} (h : AgreeOn (selectorFragments selector) compile compile')
    (label : Text) : pushSelectFocus hol compile label selector = pushSelectFocus hol compile' label selector := by
  have hcount : matchingSelectorCount hol compile label selector =
      matchingSelectorCount hol compile' label selector := by
    funext goals
    rcases hprogram : selectorProgram selector with _ | program
    · simp only [matchingSelectorCount, hprogram]
    · have hsame := h .tactic program (by simp [selectorFragments, hprogram]) label
      simp only [matchingSelectorCount, hprogram, hsame]
  have happly : applySelector hol compile label selector = applySelector hol compile' label selector := by
    rcases hprogram : selectorListTactic selector with _ | program
    · simp only [applySelector, hprogram]
    · have hsame := h .listTactic program (by simp [selectorFragments, hprogram]) label
      simp only [applySelector, hprogram, hsame]
  simp only [pushSelectFocus, hcount, happly]

variable (resumeAfterPath : Option ProofPath)

theorem runLeaf_congr {proofStep : Step} (h : AgreeOn (fragments proofStep) compile compile') (d : ℕ)
    (path : ProofPath) :
    runLeaf (prover hol compile) resumeAfterPath d path proofStep =
      runLeaf (prover hol compile') resumeAfterPath d path proofStep := by
  have hstep := step_congr hol h
  simp only [runLeaf, runMaybeTracedStep, prover, hstep]
  rfl

/-- The frame of an iteration or a case focuses on its first goal, for which nothing is compiled. -/
theorem runFramed_congr (compile compile' : Compile H) (frame : StructuralFrame)
    (resumeFrame : Option StructuralFrame) (label : Text) (remaining : ℤ) (body : Run (Proof H) Unit) :
    runFramed (prover hol compile) frame resumeFrame label remaining body =
      runFramed (prover hol compile') frame resumeFrame label remaining body := by
  have hnone : AgreeOn (selectorFragments .selectFirst) compile compile' := fun _ _ h ↦ nomatch h
  have hfocus := pushSelectFocus_congr hol hnone label
  simp only [runFramed, enterFrame, prover, hfocus]

theorem runSelect_congr {selector : Selector} (h : AgreeOn (selectorFragments selector) compile compile')
    (d : ℕ) (path : ProofPath) (proofStep : Step) (mode : SelectMode) (body : Run (Proof H) Unit) :
    runSelect (prover hol compile) resumeAfterPath d path proofStep selector mode body =
      runSelect (prover hol compile') resumeAfterPath d path proofStep selector mode body := by
  have hfocus := pushSelectFocus_congr hol h (stepLabel proofStep)
  simp only [runSelect, prover, hfocus]

theorem runEach_congr (compile compile' : Compile H) (d : ℕ) (path : ProofPath) (proofStep : Step)
    (body : ℕ → Run (Proof H) Unit) :
    runEach (prover hol compile) resumeAfterPath d path proofStep body =
      runEach (prover hol compile') resumeAfterPath d path proofStep body := by
  simp only [runEach, eachGroups, runFramed_congr hol compile compile']
  rfl

theorem runCases_congr (compile compile' : Compile H) (d : ℕ) (path : ProofPath) (proofStep : Step)
    (cases : List (Branch (Proof H))) :
    runCases (prover hol compile) resumeAfterPath d path proofStep cases =
      runCases (prover hol compile') resumeAfterPath d path proofStep cases := by
  simp only [runCases, casesGroups, runFramed_congr hol compile compile']
  rfl

mutual

theorem runOne_congr (proofStep : Step) (h : AgreeOn (fragments proofStep) compile compile') (d : ℕ)
    (path : ProofPath) :
    runOne (prover hol compile) resumeAfterPath d path proofStep =
      runOne (prover hol compile') resumeAfterPath d path proofStep := by
  cases proofStep with
  | stepTactic span label program =>
    rw [runOne, runOne, runLeaf_congr hol resumeAfterPath h]
  | stepList span label program =>
    rw [runOne, runOne, runLeaf_congr hol resumeAfterPath h]
  | stepSelect span selector mode body =>
    rw [fragments] at h
    rw [runOne, runOne, runSelect_congr hol resumeAfterPath h.left, runList_congr body h.right]
  | stepEach span body =>
    rw [fragments] at h
    simp only [runOne, runList_congr body h]
    rw [runEach_congr]
  | stepCases span bodies =>
    rw [fragments] at h
    rw [runOne, runOne, branches_congr bodies h, runCases_congr]
  | stepChoice span label bodies =>
    rw [fragments] at h
    rw [runOne, runOne, branches_congr bodies h]
  | stepTry span body =>
    rw [fragments] at h
    rw [runOne, runOne, runList_congr body h]
  | stepRepeat span body =>
    rw [fragments] at h
    simp only [runOne, runList_congr body h]
    rfl

theorem runList_congr (steps : List Step) (h : AgreeOn (fragmentsList steps) compile compile') (d : ℕ)
    (path : ProofPath) (i : ℕ) :
    runList (prover hol compile) resumeAfterPath d path i steps =
      runList (prover hol compile') resumeAfterPath d path i steps := by
  cases steps with
  | nil => rw [runList, runList]
  | cons proofStep rest =>
    rw [fragmentsList] at h
    simp only [runList, runOne_congr proofStep h.left, runList_congr rest h.right]

theorem branches_congr (bodies : List (List Step)) (h : AgreeOn (fragmentsBodies bodies) compile compile') :
    branches (prover hol compile) resumeAfterPath bodies =
      branches (prover hol compile') resumeAfterPath bodies := by
  cases bodies with
  | nil => rw [branches, branches]
  | cons body rest =>
    rw [fragmentsBodies] at h
    simp only [branches, runList_congr body h.left, branches_congr rest h.right]

end

/-- A run, fresh or resumed, is the same with compilers that do the same with the plan's fragments. -/
theorem run_congr {plan : List Step} (h : AgreeOn (fragmentsList plan) compile compile') (d : ℕ) :
    runStructuralStepsWithResume (prover hol compile) resumeAfterPath d plan =
      runStructuralStepsWithResume (prover hol compile') resumeAfterPath d plan := by
  simp only [runStructuralStepsWithResume, runList_congr hol resumeAfterPath plan h]

/-- A computation passes nothing but some fragments on to the compiler: it can be carried out with a compiler
that takes these only. -/
def PassesOnly (S : List (Kind × Text)) (run : Compile H → α) : Prop :=
  ∃ restricted : ((kind : Kind) → (label program : Text) → (kind, program) ∈ S →
      Raising (Proof H) Raised Maker) → α,
    ∀ compile, run compile = restricted fun kind label program _ ↦ compile kind label program

theorem passesOnly_of_agreeOn {run : Compile H → α}
    (h : ∀ compile compile', AgreeOn S compile compile' → run compile = run compile') : PassesOnly S run := by
  refine ⟨fun partly ↦ run fun kind label program ↦
    if hmem : (kind, program) ∈ S then partly kind label program hmem else failed [], fun compile ↦ ?_⟩
  refine h _ _ fun kind program hmem label ↦ ?_
  rw [dif_pos hmem]

/-! ### The leaves of a run -/

theorem fragmentsList_subset_bodies (body : List Step) (before after : List (List Step)) :
    fragmentsList body ⊆ fragmentsBodies (before ++ body :: after) := by
  induction before with
  | nil =>
    rw [List.nil_append, fragmentsBodies]
    exact List.subset_append_left _ _
  | cons first before ih =>
    rw [List.cons_append, fragmentsBodies]
    exact List.Subset.trans ih (List.subset_append_right _ _)

/-- What is left of the plan where a traversal is has fragments of the plan. -/
theorem fragmentsList_subset_of_remaining {plan steps : List Step} {path : ProofPath} {i d depth : ℕ}
    (h : Remaining plan path i d depth steps) : fragmentsList steps ⊆ fragmentsList plan := by
  induction h with
  | start => exact fun _ hmem ↦ hmem
  | next h ih =>
    rw [fragmentsList] at ih
    exact List.Subset.trans (List.subset_append_right _ _) ih
  | body h hbody ih =>
    rw [fragmentsList] at ih
    refine fun fragment hmem ↦ ih (List.mem_append_left _ ?_)
    cases hbody <;> simp [fragments, hmem]
  | @branch path i d depth step rest inner component before after h hbranches ih =>
    rw [fragmentsList] at ih
    have hbodies := fragmentsList_subset_bodies inner before after
    refine fun fragment hmem ↦ ih (List.mem_append_left _ ?_)
    cases hbranches <;> simp [fragments, hbodies hmem]

theorem fragments_subset_of_numbered {plan : List Step} {run : LeafRun} (h : Numbered plan run) :
    fragments run.leaf ⊆ fragmentsList plan := by
  obtain ⟨depth, above, i, rest, -, hremaining⟩ := h
  have hsubset := fragmentsList_subset_of_remaining hremaining
  rw [fragmentsList] at hsubset
  exact List.Subset.trans (List.subset_append_left _ _) hsubset

end Runner

/-! ### The tables and the runs of a plan -/

/-- The texts of the factories in the tables. -/
def ProofFactories.fragments (factories : ProofFactories) : List (Kind × Text) :=
  factories.tactics.map (fun factory ↦ (Kind.tactic, factory.text)) ++
    factories.listTactics.map fun factory ↦ (Kind.listTactic, factory.text)

theorem mem_fragments_proofFactories {plan : List Step} {fragment : Kind × Text} :
    fragment ∈ (proofFactories plan).fragments ↔ fragment ∈ fragmentsList plan := by
  obtain ⟨kind, program⟩ := fragment
  have htable : (kind, program) ∈ (proofFactories plan).fragments ↔
      ∃ factory ∈ (proofFactories plan).table kind, factory.text = program := by
    cases kind <;> simp [ProofFactories.fragments, ProofFactories.table]
  rw [htable]
  constructor
  · rintro ⟨factory, hmem, rfl⟩
    exact (mem_proofFactories_iff.mp hmem).1
  · intro hmem
    exact ⟨factoryOf program, mem_proofFactories_iff.mpr ⟨hmem, rfl⟩, rfl⟩

/-- Texts that are written stand for a table. -/
theorem standsFor_table {plan : List Step} (hbytes : ∀ fragment ∈ fragmentsList plan, Bytes fragment.2)
    (kind : Kind) :
    List.Forall₂ StandsFor (((collectList plan ⟨[], []⟩).of kind).reverse.map factorySml)
      ((proofFactories plan).table kind) := by
  rw [proofFactories_table, List.forall₂_map_left_iff, List.forall₂_map_right_iff, List.forall₂_same]
  intro program hmem
  have htable : factoryOf program ∈ (proofFactories plan).table kind := by
    rw [proofFactories_table]
    exact List.mem_map_of_mem hmem
  exact standsFor_factorySml (hbytes _ (mem_proofFactories_iff.mp htable).1)

/-- The tables cover a plan, whose runs are with some HOL and from some path on. -/
structure FactoriesCover {H Goal : Type} (hol : Hol H Goal) (plan : List Step)
    (resumeAfterPath : Option ProofPath) : Prop where
  /-- What the analyser writes stands for the tables. -/
  written : ∃ tactics lists, factoriesSml plan =
      "\x7btactics=".toList ++ smlList tactics ++ ", list_tactics=".toList ++ smlList lists ++ "\x7d".toList ∧
    List.Forall₂ StandsFor tactics (proofFactories plan).tactics ∧
    List.Forall₂ StandsFor lists (proofFactories plan).listTactics
  /-- A factory's code is its text, and there is one for a text. -/
  own (kind : Kind) : (∀ factory ∈ (proofFactories plan).table kind,
      factory.code = "fn () => (".toList ++ factory.text ++ ")".toList) ∧
    (((proofFactories plan).table kind).map Factory.text).Nodup
  /-- A run passes only texts of factories on to the compiler. -/
  passes : PassesOnly (proofFactories plan).fragments fun compile ↦
    runStructuralStepsWithResume (prover hol compile) resumeAfterPath 0 plan
  /-- So do the leaves it ran, also in alternatives that failed. -/
  leaves (compile : Compile H) (start : Runtime (Proof H)) :
    ∀ run ∈ (runStructuralStepsWithResume (prover hol compile) resumeAfterPath 0 plan start).2.leafRuns,
      run ∈ start.leafRuns ∨ fragments run.leaf ⊆ (proofFactories plan).fragments
  /-- With the tables these are compiled in the proof's scope. -/
  inScope (kind : Kind) (label : Text) : ∀ factory ∈ (proofFactories plan).table kind,
    compiler hol (some (proofFactories plan)) kind label factory.text = Pure.pure (.factory factory.code)
  /-- What compiling at top level does makes no difference to a run with the tables. -/
  topLevel (quseString : Text → Raising H Raised Bool) :
    let other := { hol with quseString := quseString }
    runStructuralStepsWithResume (prover other (compiler other (some (proofFactories plan)))) resumeAfterPath 0
        plan =
      runStructuralStepsWithResume (prover hol (compiler hol (some (proofFactories plan)))) resumeAfterPath 0
        plan

theorem factories_cover {H Goal : Type} (hol : Hol H Goal) {plan : List Step}
    (hbytes : ∀ fragment ∈ fragmentsList plan, Bytes fragment.2) (resumeAfterPath : Option ProofPath) :
    FactoriesCover hol plan resumeAfterPath where
  written := ⟨_, _, rfl, standsFor_table hbytes .tactic, standsFor_table hbytes .listTactic⟩
  own kind := ⟨fun _ hmem ↦ (mem_proofFactories_iff.mp hmem).2, nodup_proofFactories plan kind⟩
  passes := passesOnly_of_agreeOn fun compile compile' h ↦
    run_congr hol resumeAfterPath (h.mono fun _ hmem ↦ mem_fragments_proofFactories.mpr hmem) 0
  leaves compile start run hrun := by
    refine (leafRuns_numbered (prover hol compile) resumeAfterPath plan start run hrun).imp_right fun h ↦ ?_
    exact List.Subset.trans (fragments_subset_of_numbered h) fun _ hmem ↦ mem_fragments_proofFactories.mpr hmem
  inScope kind label factory hmem := by
    obtain ⟨hfragment, hcode⟩ := mem_proofFactories_iff.mp hmem
    rw [compiler_of_mem hol hfragment, hcode]
  topLevel quseString := by
    intro other
    refine run_congr hol resumeAfterPath (fun kind program hmem label ↦ ?_) 0
    rw [compiler_of_mem other hmem, compiler_of_mem hol hmem]

/-- A plan with a selection, resumed after its first leaf. -/
theorem factories_cover_selection :
    let plan : List Step := [.stepTactic (0, 6) "simp[]".toList "simp[]".toList,
      .stepSelect (7, 30) (.selectMatchingAll "[`x`]".toList) .selectKeep
        [.stepRepeat (10, 20) [.stepList (10, 20) ">> simp[]".toList "simp[]".toList]]]
    let hol : Hol Unit Unit := ⟨fun _ ↦ .ok [()], fun _ ↦ false, fun _ _ _ ↦ Raising.raise (.failed []),
      fun _ _ _ ↦ Pure.pure fun _ ↦ true, fun _ ↦ Pure.pure false, fun _ ↦ 0, .ok 3, fun _ ↦ none⟩
    FactoriesCover hol plan (some [.pathStep 0]) := by
  intro plan hol
  have hall : (fragmentsList plan).all (fun fragment ↦
      fragment.2.all fun c ↦ decide (c.toNat < 256)) = true := by decide
  exact factories_cover hol (fun fragment hmem ↦ bytes_of_all (List.all_eq_true.mp hall fragment hmem)) _

end Holbuild.ProofRuntime
