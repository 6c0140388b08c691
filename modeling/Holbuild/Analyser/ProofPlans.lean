import Holbuild.Analyser.Records

/-!
# Proof plans

The steps of a proof plan, the lines that the analyser writes of them, and the reader, which follows the
nesting of blocks by the lines that may stop it. A plan is read as it was written exactly if none of its
labels, programs and patterns is empty.
-/

set_option autoImplicit false
set_option relaxedAutoImplicit false

namespace Holbuild.Analyser

open Library

/-! ### Steps -/

/-- Which goals a selection takes. -/
inductive Selector
  | selectFirst
  | selectMatchingFirst (patterns : String)
  | selectMatchingAll (patterns : String)

/-- Whether the goals selected must be solved. -/
inductive Mode
  | selectSolve
  | selectKeep

/-- The steps of a proof plan. -/
inductive Step
  | stepTactic (startPos endPos : ℤ) (label program : String)
  | stepList (startPos endPos : ℤ) (label program : String)
  | stepEach (startPos endPos : ℤ) (body : List Step)
  | stepSelect (startPos endPos : ℤ) (selector : Selector) (mode : Mode) (body : List Step)
  | stepCases (startPos endPos : ℤ) (cases : List (List Step))
  | stepChoice (startPos endPos : ℤ) (label : String) (alternatives : List (List Step))
  | stepRepeat (startPos endPos : ℤ) (body : List Step)
  | stepTry (startPos endPos : ℤ) (body : List Step)

/-! ### The lines of a plan -/

def selectorFields : Selector → List String
  | .selectFirst => ["first"]
  | .selectMatchingFirst patterns => ["matching-first", patterns]
  | .selectMatchingAll patterns => ["matching-all", patterns]

def modeField : Mode → String
  | .selectSolve => "solve"
  | .selectKeep => "keep"

/-- The fields of a step's own line. -/
def stepFields : Step → List String
  | .stepTactic startPos endPos label program =>
    ["proof-step", "step", intText startPos, intText endPos, label, program]
  | .stepList startPos endPos label program =>
    ["proof-step", "list-step", intText startPos, intText endPos, label, program]
  | .stepEach startPos endPos _ => ["proof-step", "each", intText startPos, intText endPos]
  | .stepSelect startPos endPos selector mode _ =>
    ["proof-step", "select", intText startPos, intText endPos] ++ selectorFields selector ++ [modeField mode]
  | .stepCases startPos endPos _ => ["proof-step", "cases", intText startPos, intText endPos]
  | .stepChoice startPos endPos label _ =>
    ["proof-step", "choice", intText startPos, intText endPos, label]
  | .stepRepeat startPos endPos _ => ["proof-step", "repeat", intText startPos, intText endPos]
  | .stepTry startPos endPos _ => ["proof-step", "try", intText startPos, intText endPos]

def emitStep (step : Step) : String := join (stepFields step)

def endLine : String := join ["proof-step", "end"]

mutual

/-- The lines of a step and of the steps inside it. -/
def emitOne : Step → List String
  | .stepTactic startPos endPos label program => [emitStep (.stepTactic startPos endPos label program)]
  | .stepList startPos endPos label program => [emitStep (.stepList startPos endPos label program)]
  | .stepEach startPos endPos body =>
    emitStep (.stepEach startPos endPos body) :: emitSteps body ++ [endLine]
  | .stepSelect startPos endPos selector mode body =>
    emitStep (.stepSelect startPos endPos selector mode body) :: emitSteps body ++ [endLine]
  | .stepCases startPos endPos cases =>
    emitStep (.stepCases startPos endPos cases) :: emitBlocks "case" 1 cases ++ [endLine]
  | .stepChoice startPos endPos label alternatives =>
    emitStep (.stepChoice startPos endPos label alternatives) ::
      emitBlocks "alternative" 1 alternatives ++ [endLine]
  | .stepRepeat startPos endPos body =>
    emitStep (.stepRepeat startPos endPos body) :: emitSteps body ++ [endLine]
  | .stepTry startPos endPos body =>
    emitStep (.stepTry startPos endPos body) :: emitSteps body ++ [endLine]

def emitSteps : List Step → List String
  | [] => []
  | step :: rest => emitOne step ++ emitSteps rest

/-- The lines of numbered cases or alternatives. -/
def emitBlocks (name : String) : ℤ → List (List Step) → List String
  | _, [] => []
  | n, body :: rest => join ["proof-step", name, intText n] :: emitSteps body ++ emitBlocks name (n + 1) rest

end

/-! ### Reading a plan -/

def intField (s : String) : Except String ℤ :=
  match intFromString s with
  | some n => .ok n
  | none => .error ("bad proof-ir integer field: " ++ s)

def parseSelector : List String → Except String Selector
  | ["first"] => .ok .selectFirst
  | ["matching-first", patterns] => .ok (.selectMatchingFirst patterns)
  | ["matching-all", patterns] => .ok (.selectMatchingAll patterns)
  | _ => .error "bad proof-ir selector"

def parseMode : String → Except String Mode
  | "solve" => .ok .selectSolve
  | "keep" => .ok .selectKeep
  | s => .error ("bad proof-ir select mode: " ++ s)

/-- The fields of a selector and the text of its mode. -/
def selectFields : List String → Except String (List String × String)
  | [selector, mode] => .ok ([selector], mode)
  | [selector, patterns, mode] => .ok ([selector, patterns], mode)
  | _ => .error "bad proof-ir select response"

/-- The lines that the reader tells apart. -/
inductive Line
  | blockEnd
  | case (n : String)
  | alternative (n : String)
  | step (a b label program : String)
  | listStep (a b label program : String)
  | each (a b : String)
  | select (a b : String) (rest : List String)
  | cases (a b : String)
  | choice (a b label : String)
  | repeated (a b : String)
  | tried (a b : String)
  | bad

/-- The first pattern of the reader that fits the fields of a line. -/
def readLine : List String → Line
  | ["proof-step", "end"] => .blockEnd
  | ["proof-step", "case", n] => .case n
  | ["proof-step", "alternative", n] => .alternative n
  | ["proof-step", "step", a, b, label, program] => .step a b label program
  | ["proof-step", "list-step", a, b, label, program] => .listStep a b label program
  | ["proof-step", "each", a, b] => .each a b
  | "proof-step" :: "select" :: a :: b :: rest => .select a b rest
  | ["proof-step", "cases", a, b] => .cases a b
  | ["proof-step", "choice", a, b, label] => .choice a b label
  | ["proof-step", "repeat", a, b] => .repeated a b
  | ["proof-step", "try", a, b] => .tried a b
  | _ => .bad

/-- What was read, and the lines that are left, of at most `n`. -/
structure Read (α : Type) (n : ℕ) where
  value : α
  rest : List (List String)
  length_le : rest.length ≤ n

/-- The same of more lines. -/
def Read.weaken {α : Type} {m n : ℕ} (out : Read α m) (h : m ≤ n) : Read α n :=
  ⟨out.value, out.rest, out.length_le.trans h⟩

/-- The kinds of numbered blocks: the line before a block, and the step they belong to. -/
inductive BlockKind
  | case
  | alternative

def BlockKind.name : BlockKind → String
  | case => "case"
  | alternative => "alternative"

def BlockKind.stepName : BlockKind → String
  | case => "cases"
  | alternative => "choice"

/-- The number of the block that a line begins. -/
def BlockKind.number : BlockKind → Line → Option String
  | case, .case n => some n
  | alternative, .alternative n => some n
  | _, _ => none

mutual

/-- Reads steps up to a line that stops it. -/
def parseBody (stops : List String) (rest : List (List String)) (acc : List Step) :
    Except String (Read (List Step) rest.length) :=
  match rest with
  | [] =>
    if "end" ∈ stops then .error "unterminated proof-ir block" else .ok ⟨acc.reverse, [], le_refl _⟩
  | fields :: more =>
    match readLine fields with
    | .blockEnd =>
      if "end" ∈ stops then
        if "case" ∈ stops ∨ "alternative" ∈ stops then .ok ⟨acc.reverse, fields :: more, le_refl _⟩
        else .ok ⟨acc.reverse, more, Nat.le_succ _⟩
      else .error "proof-ir end outside block"
    | .case _ =>
      if "case" ∈ stops then .ok ⟨acc.reverse, fields :: more, le_refl _⟩
      else .error "proof-ir case outside cases"
    | .alternative _ =>
      if "alternative" ∈ stops then .ok ⟨acc.reverse, fields :: more, le_refl _⟩
      else .error "proof-ir alternative outside choice"
    | .step a b label program => do
      let startPos ← intField a
      let endPos ← intField b
      let out ← parseBody stops more (.stepTactic startPos endPos label program :: acc)
      .ok (out.weaken (Nat.le_succ _))
    | .listStep a b label program => do
      let startPos ← intField a
      let endPos ← intField b
      let out ← parseBody stops more (.stepList startPos endPos label program :: acc)
      .ok (out.weaken (Nat.le_succ _))
    | .each a b => do
      let ⟨body, rest', h⟩ ← parseBody ["end"] more []
      let startPos ← intField a
      let endPos ← intField b
      let out ← parseBody stops rest' (.stepEach startPos endPos body :: acc)
      .ok (out.weaken (h.trans (Nat.le_succ _)))
    | .select a b restFields => do
      let (selectorTexts, modeText) ← selectFields restFields
      let ⟨body, rest', h⟩ ← parseBody ["end"] more []
      let startPos ← intField a
      let endPos ← intField b
      let selector ← parseSelector selectorTexts
      let mode ← parseMode modeText
      let out ← parseBody stops rest' (.stepSelect startPos endPos selector mode body :: acc)
      .ok (out.weaken (h.trans (Nat.le_succ _)))
    | .cases a b => do
      let ⟨cases, rest', h⟩ ← parseBlocks .case 1 more []
      let startPos ← intField a
      let endPos ← intField b
      let out ← parseBody stops rest' (.stepCases startPos endPos cases :: acc)
      .ok (out.weaken (h.trans (Nat.le_succ _)))
    | .choice a b label => do
      let ⟨alternatives, rest', h⟩ ← parseBlocks .alternative 1 more []
      let startPos ← intField a
      let endPos ← intField b
      let out ← parseBody stops rest' (.stepChoice startPos endPos label alternatives :: acc)
      .ok (out.weaken (h.trans (Nat.le_succ _)))
    | .repeated a b => do
      let ⟨body, rest', h⟩ ← parseBody ["end"] more []
      let startPos ← intField a
      let endPos ← intField b
      let out ← parseBody stops rest' (.stepRepeat startPos endPos body :: acc)
      .ok (out.weaken (h.trans (Nat.le_succ _)))
    | .tried a b => do
      let ⟨body, rest', h⟩ ← parseBody ["end"] more []
      let startPos ← intField a
      let endPos ← intField b
      let out ← parseBody stops rest' (.stepTry startPos endPos body :: acc)
      .ok (out.weaken (h.trans (Nat.le_succ _)))
    | .bad => .error "bad proof-ir step response"
termination_by rest.length
decreasing_by all_goals (rw [List.length_cons]; omega)

/-- Reads the numbered cases or alternatives of a step up to its end. -/
def parseBlocks (kind : BlockKind) (n : ℤ) (rest : List (List String)) (blocks : List (List Step)) :
    Except String (Read (List (List Step)) rest.length) :=
  match rest with
  | [] => .error ("bad proof-ir " ++ kind.stepName ++ " block")
  | fields :: more =>
    match readLine fields with
    | .blockEnd => .ok ⟨blocks.reverse, more, Nat.le_succ _⟩
    | line =>
      match kind.number line with
      | some k => do
        let m ← intField k
        if m ≠ n then .error ("proof-ir " ++ kind.name ++ " ordering error")
        else do
          let ⟨body, rest', h⟩ ← parseBody [kind.name, "end"] more []
          let out ← parseBlocks kind (n + 1) rest' (body :: blocks)
          .ok (out.weaken (h.trans (Nat.le_succ _)))
      | none => .error ("bad proof-ir " ++ kind.stepName ++ " block")
termination_by rest.length
decreasing_by all_goals (rw [List.length_cons]; omega)

end

def parseProofSteps (fieldss : List (List String)) : Except String (List Step) := do
  let ⟨steps, rest, _⟩ ← parseBody [] fieldss []
  match rest with
  | [] => .ok steps
  | _ => .error "unexpected proof-ir parser residue"

/-! ### Reading the lines of one step -/

variable {fields : List String} {stops : List String} {more rest : List (List String)}
  {acc : List Step} {startPos endPos : ℤ} {label program : String} {kind : BlockKind}

/-- What `parseBody` reads, and the lines that are left. -/
def bodyOf (stops : List String) (rest : List (List String)) (acc : List Step) :
    Except String (List Step × List (List String)) :=
  (parseBody stops rest acc).map fun out ↦ (out.value, out.rest)

/-- What `parseBlocks` reads, and the lines that are left. -/
def blocksOf (kind : BlockKind) (n : ℤ) (rest : List (List String)) (blocks : List (List Step)) :
    Except String (List (List Step) × List (List String)) :=
  (parseBlocks kind n rest blocks).map fun out ↦ (out.value, out.rest)

theorem map_weaken {α : Type} {m n : ℕ} (h : m ≤ n) (x : Except String (Read α m)) :
    (x >>= fun out ↦ Except.ok (out.weaken h)).map (fun out ↦ (out.value, out.rest)) =
      x.map fun out ↦ (out.value, out.rest) := by
  cases x with
  | ok out => rfl
  | error e => rfl

theorem ok_bind {α β : Type} (a : α) (f : α → Except String β) : (Except.ok a >>= f) = f a := rfl

theorem intField_intText (n : ℤ) : intField (intText n) = .ok n := by
  rw [intField, intFromString_intText]

/-- At the end of a block its steps are read. -/
theorem bodyOf_blockEnd (h : readLine fields = .blockEnd) :
    bodyOf ["end"] (fields :: more) acc = .ok (acc.reverse, more) := by
  rw [bodyOf, parseBody, h]
  rfl

/-- At the end of a step's blocks the last block is read, and the line is left. -/
theorem bodyOf_lastBlock (h : readLine fields = .blockEnd) :
    bodyOf [kind.name, "end"] (fields :: more) acc = .ok (acc.reverse, fields :: more) := by
  rw [bodyOf, parseBody, h]
  cases kind with
  | case => rfl
  | alternative => rfl

/-- At the next block a block is read, and the line is left. -/
theorem bodyOf_nextBlock {n : String} (h : kind.number (readLine fields) = some n) :
    bodyOf [kind.name, "end"] (fields :: more) acc = .ok (acc.reverse, fields :: more) := by
  rw [bodyOf, parseBody]
  cases kind with
  | case =>
    cases hline : readLine fields with
    | case k => rfl
    | _ =>
      rw [hline] at h
      cases h
  | alternative =>
    cases hline : readLine fields with
    | alternative k => rfl
    | _ =>
      rw [hline] at h
      cases h

theorem bodyOf_bad (h : readLine fields = .bad) :
    bodyOf stops (fields :: more) acc = .error "bad proof-ir step response" := by
  rw [bodyOf, parseBody, h]
  rfl

theorem bodyOf_step (h : readLine fields = .step (intText startPos) (intText endPos) label program) :
    bodyOf stops (fields :: more) acc =
      bodyOf stops more (.stepTactic startPos endPos label program :: acc) := by
  rw [bodyOf, parseBody, h]
  simp only [intField_intText]
  exact map_weaken _ _

theorem bodyOf_listStep
    (h : readLine fields = .listStep (intText startPos) (intText endPos) label program) :
    bodyOf stops (fields :: more) acc =
      bodyOf stops more (.stepList startPos endPos label program :: acc) := by
  rw [bodyOf, parseBody, h]
  simp only [intField_intText]
  exact map_weaken _ _

theorem bodyOf_each (h : readLine fields = .each (intText startPos) (intText endPos)) :
    bodyOf stops (fields :: more) acc = bodyOf ["end"] more [] >>= fun out ↦
      bodyOf stops out.2 (.stepEach startPos endPos out.1 :: acc) := by
  rw [bodyOf, parseBody, h]
  simp only [intField_intText]
  rw [bodyOf]
  cases parseBody ["end"] more [] with
  | ok out => exact map_weaken _ _
  | error e => rfl

theorem bodyOf_repeated (h : readLine fields = .repeated (intText startPos) (intText endPos)) :
    bodyOf stops (fields :: more) acc = bodyOf ["end"] more [] >>= fun out ↦
      bodyOf stops out.2 (.stepRepeat startPos endPos out.1 :: acc) := by
  rw [bodyOf, parseBody, h]
  simp only [intField_intText]
  rw [bodyOf]
  cases parseBody ["end"] more [] with
  | ok out => exact map_weaken _ _
  | error e => rfl

theorem bodyOf_tried (h : readLine fields = .tried (intText startPos) (intText endPos)) :
    bodyOf stops (fields :: more) acc = bodyOf ["end"] more [] >>= fun out ↦
      bodyOf stops out.2 (.stepTry startPos endPos out.1 :: acc) := by
  rw [bodyOf, parseBody, h]
  simp only [intField_intText]
  rw [bodyOf]
  cases parseBody ["end"] more [] with
  | ok out => exact map_weaken _ _
  | error e => rfl

theorem bodyOf_select {selectorTexts restFields : List String} {mode : Mode}
    (h : readLine fields = .select (intText startPos) (intText endPos) restFields)
    (hrest : selectFields restFields = .ok (selectorTexts, modeField mode)) :
    bodyOf stops (fields :: more) acc = bodyOf ["end"] more [] >>= fun out ↦
      parseSelector selectorTexts >>= fun selector ↦
        bodyOf stops out.2 (.stepSelect startPos endPos selector mode out.1 :: acc) := by
  have hmode : parseMode (modeField mode) = .ok mode := by cases mode <;> rfl
  rw [bodyOf, parseBody, h]
  simp only [intField_intText, hrest, ok_bind, hmode]
  rw [bodyOf]
  cases parseBody ["end"] more [] with
  | ok out =>
    cases parseSelector selectorTexts with
    | ok selector => exact map_weaken _ _
    | error e => rfl
  | error e => rfl

theorem bodyOf_cases (h : readLine fields = .cases (intText startPos) (intText endPos)) :
    bodyOf stops (fields :: more) acc = blocksOf .case 1 more [] >>= fun out ↦
      bodyOf stops out.2 (.stepCases startPos endPos out.1 :: acc) := by
  rw [bodyOf, parseBody, h]
  simp only [intField_intText]
  rw [blocksOf]
  cases parseBlocks .case 1 more [] with
  | ok out => exact map_weaken _ _
  | error e => rfl

theorem bodyOf_choice (h : readLine fields = .choice (intText startPos) (intText endPos) label) :
    bodyOf stops (fields :: more) acc = blocksOf .alternative 1 more [] >>= fun out ↦
      bodyOf stops out.2 (.stepChoice startPos endPos label out.1 :: acc) := by
  rw [bodyOf, parseBody, h]
  simp only [intField_intText]
  rw [blocksOf]
  cases parseBlocks .alternative 1 more [] with
  | ok out => exact map_weaken _ _
  | error e => rfl

theorem blocksOf_blockEnd {n : ℤ} {blocks : List (List Step)} (h : readLine fields = .blockEnd) :
    blocksOf kind n (fields :: more) blocks = .ok (blocks.reverse, more) := by
  rw [blocksOf, parseBlocks, h]
  rfl

theorem blocksOf_block {n : ℤ} {blocks : List (List Step)}
    (h : kind.number (readLine fields) = some (intText n)) :
    blocksOf kind n (fields :: more) blocks = bodyOf [kind.name, "end"] more [] >>= fun out ↦
      blocksOf kind (n + 1) out.2 (out.1 :: blocks) := by
  rw [blocksOf, parseBlocks]
  split
  · next hend =>
    rw [hend] at h
    cases kind <;> cases h
  · simp only [h, intField_intText, ok_bind, ne_eq, not_true_eq_false, if_false]
    rw [bodyOf]
    cases parseBody [kind.name, "end"] more [] with
    | ok out => exact map_weaken _ _
    | error e => rfl

/-! ### Reading a whole plan -/

def Selector.patterns : Selector → List String
  | .selectFirst => []
  | .selectMatchingFirst patterns => [patterns]
  | .selectMatchingAll patterns => [patterns]

mutual

/-- The labels, programs and patterns of a step and of the steps inside it. -/
def stepTexts : Step → List String
  | .stepTactic _ _ label program => [label, program]
  | .stepList _ _ label program => [label, program]
  | .stepEach _ _ body => planTexts body
  | .stepSelect _ _ selector _ body => selector.patterns ++ planTexts body
  | .stepCases _ _ cases => blockTexts cases
  | .stepChoice _ _ label alternatives => label :: blockTexts alternatives
  | .stepRepeat _ _ body => planTexts body
  | .stepTry _ _ body => planTexts body

def planTexts : List Step → List String
  | [] => []
  | step :: rest => stepTexts step ++ planTexts rest

def blockTexts : List (List Step) → List String
  | [] => []
  | body :: rest => planTexts body ++ blockTexts rest

end

theorem readLine_endLine : readLine (split endLine) = .blockEnd := by
  rw [endLine, split_join_eq_iff.mpr (by decide)]
  rfl

theorem number_blockLine (n : ℤ) :
    kind.number (readLine (split (join ["proof-step", kind.name, intText n]))) = some (intText n) := by
  cases kind with
  | case =>
    rw [split_join_eq_iff.mpr (by simp [BlockKind.name, intText_ne_empty])]
    rfl
  | alternative =>
    rw [split_join_eq_iff.mpr (by simp [BlockKind.name, intText_ne_empty])]
    rfl

/-- A tactic's line is read as it was written exactly if its texts are not empty. -/
theorem readLine_texts {tag : String} (htag : tag = "step" ∨ tag = "list-step")
    (h : "" ∈ [label, program]) :
    readLine (split (join ["proof-step", tag, intText startPos, intText endPos, label, program])) = .bad := by
  have htag' : tag ≠ "" := by rcases htag with rfl | rfl <;> decide
  have hfields : split (join ["proof-step", tag, intText startPos, intText endPos, label, program]) =
      "proof-step" :: tag :: intText startPos :: intText endPos ::
        [label, program].filter fun field ↦ field ≠ "" := by
    rw [split_join]
    simp [List.filter_cons, intText_ne_empty, htag']
  have hshort : ([label, program].filter fun field ↦ field ≠ "").length < 2 := by
    refine List.length_filter_lt_length_iff_exists.mpr ⟨"", h, by simp⟩
  rw [hfields]
  match hrest : [label, program].filter fun field ↦ field ≠ "", hshort with
  | [], _ => rcases htag with rfl | rfl <;> rfl
  | [_], _ => rcases htag with rfl | rfl <;> rfl

theorem readLine_tactic (h : "" ∉ [label, program]) :
    readLine (split (emitStep (.stepTactic startPos endPos label program))) =
      .step (intText startPos) (intText endPos) label program := by
  rw [emitStep, split_join_eq_iff.mpr (by simpa [stepFields, intText_ne_empty] using h)]
  rfl

theorem readLine_list (h : "" ∉ [label, program]) :
    readLine (split (emitStep (.stepList startPos endPos label program))) =
      .listStep (intText startPos) (intText endPos) label program := by
  rw [emitStep, split_join_eq_iff.mpr (by simpa [stepFields, intText_ne_empty] using h)]
  rfl

theorem readLine_choice {alternatives : List (List Step)} (h : label ≠ "") :
    readLine (split (emitStep (.stepChoice startPos endPos label alternatives))) =
      .choice (intText startPos) (intText endPos) label := by
  rw [emitStep, split_join_eq_iff.mpr (by simp [stepFields, intText_ne_empty, h])]
  rfl

theorem readLine_choice_bad {alternatives : List (List Step)} :
    readLine (split (emitStep (.stepChoice startPos endPos "" alternatives))) = .bad := by
  have hfields : split (emitStep (.stepChoice startPos endPos "" alternatives)) =
      ["proof-step", "choice", intText startPos, intText endPos] := by
    rw [emitStep, stepFields, split_join]
    simp [intText_ne_empty]
  rw [hfields]
  rfl

/-- A selection's line is read; its selector is read as it was written exactly if its patterns are not
empty. -/
theorem readLine_select {selector : Selector} {mode : Mode} {body : List Step} : ∃ restFields texts,
    readLine (split (emitStep (.stepSelect startPos endPos selector mode body))) =
        .select (intText startPos) (intText endPos) restFields ∧
      selectFields restFields = .ok (texts, modeField mode) ∧
      ("" ∉ selector.patterns → parseSelector texts = .ok selector) ∧
      ("" ∈ selector.patterns → ∃ e, parseSelector texts = .error e) := by
  have hmode : modeField mode ≠ "" := by cases mode <;> decide
  have hfields : split (emitStep (.stepSelect startPos endPos selector mode body)) =
      "proof-step" :: "select" :: intText startPos :: intText endPos ::
        ((selectorFields selector).filter (fun field ↦ field ≠ "") ++ [modeField mode]) := by
    rw [emitStep, stepFields, split_join]
    simp [intText_ne_empty, hmode]
  rw [hfields]
  cases selector with
  | selectFirst => exact ⟨_, ["first"], rfl, rfl, fun _ ↦ rfl, fun h ↦ absurd h List.not_mem_nil⟩
  | selectMatchingFirst patterns =>
    by_cases hpatterns : patterns = ""
    · subst hpatterns
      exact ⟨_, ["matching-first"], rfl, rfl, fun h ↦ absurd List.mem_cons_self h, fun _ ↦ ⟨_, rfl⟩⟩
    · have hkept : (selectorFields (.selectMatchingFirst patterns)).filter (fun field ↦ field ≠ "") =
          ["matching-first", patterns] := by simp [selectorFields, hpatterns]
      rw [hkept]
      refine ⟨_, ["matching-first", patterns], rfl, rfl, fun _ ↦ rfl, fun h ↦ ?_⟩
      exact absurd (List.mem_singleton.mp h).symm hpatterns
  | selectMatchingAll patterns =>
    by_cases hpatterns : patterns = ""
    · subst hpatterns
      exact ⟨_, ["matching-all"], rfl, rfl, fun h ↦ absurd List.mem_cons_self h, fun _ ↦ ⟨_, rfl⟩⟩
    · have hkept : (selectorFields (.selectMatchingAll patterns)).filter (fun field ↦ field ≠ "") =
          ["matching-all", patterns] := by simp [selectorFields, hpatterns]
      rw [hkept]
      refine ⟨_, ["matching-all", patterns], rfl, rfl, fun _ ↦ rfl, fun h ↦ ?_⟩
      exact absurd (List.mem_singleton.mp h).symm hpatterns

/-- The lines of the other steps have no texts. -/
theorem readLine_each {body : List Step} :
    readLine (split (emitStep (.stepEach startPos endPos body))) =
      .each (intText startPos) (intText endPos) := by
  rw [emitStep, split_join_eq_iff.mpr (by simp [stepFields, intText_ne_empty])]
  rfl

theorem readLine_cases {cases : List (List Step)} :
    readLine (split (emitStep (.stepCases startPos endPos cases))) =
      .cases (intText startPos) (intText endPos) := by
  rw [emitStep, split_join_eq_iff.mpr (by simp [stepFields, intText_ne_empty])]
  rfl

theorem readLine_repeat {body : List Step} :
    readLine (split (emitStep (.stepRepeat startPos endPos body))) =
      .repeated (intText startPos) (intText endPos) := by
  rw [emitStep, split_join_eq_iff.mpr (by simp [stepFields, intText_ne_empty])]
  rfl

theorem readLine_try {body : List Step} :
    readLine (split (emitStep (.stepTry startPos endPos body))) =
      .tried (intText startPos) (intText endPos) := by
  rw [emitStep, split_join_eq_iff.mpr (by simp [stepFields, intText_ne_empty])]
  rfl

/-! ### Plans are read as they were written -/

/-- A computation goes on as another if a condition holds, and raises otherwise. -/
def GoesOn {α : Type} (ok : Prop) (x y : Except String α) : Prop :=
  (ok → x = y) ∧ (¬ok → ∃ e, x = .error e)

section GoesOn

variable {α β : Type} {p q : Prop} {x y z : Except String α}

theorem GoesOn.trans (hp : GoesOn p x y) (hq : GoesOn q y z) : GoesOn (p ∧ q) x z := by
  constructor
  · exact fun h ↦ (hp.1 h.1).trans (hq.1 h.2)
  · intro h
    by_cases hok : p
    · rw [hp.1 hok]
      exact hq.2 fun hq ↦ h ⟨hok, hq⟩
    · exact hp.2 hok

theorem GoesOn.bind {a : α} (h : GoesOn p x (.ok a)) (f : α → Except String β) :
    GoesOn p (x >>= f) (f a) := by
  constructor
  · intro hp
    rw [h.1 hp]
    rfl
  · intro hp
    obtain ⟨e, he⟩ := h.2 hp
    rw [he]
    exact ⟨e, rfl⟩

theorem GoesOn.congr (h : GoesOn p x y) (hpq : p ↔ q) : GoesOn q x y := ⟨h.1 ∘ hpq.mpr, h.2 ∘ mt hpq.mp⟩

theorem goesOn_of_eq (h : x = y) (hp : p) : GoesOn p x y := ⟨fun _ ↦ h, fun hnot ↦ absurd hp hnot⟩

end GoesOn

mutual

/-- The reader goes on after the lines of a step without empty texts. -/
theorem goesOn_one (step : Step) (stops : List String) (rest : List (List String)) (acc : List Step) :
    GoesOn ("" ∉ stepTexts step) (bodyOf stops ((emitOne step).map split ++ rest) acc)
      (bodyOf stops rest (step :: acc)) := by
  match step with
  | .stepTactic startPos endPos label program =>
    rw [emitOne, stepTexts]
    constructor
    · exact fun h ↦ bodyOf_step (readLine_tactic h)
    · exact fun h ↦ ⟨_, bodyOf_bad (readLine_texts (.inl rfl) (Decidable.not_not.mp h))⟩
  | .stepList startPos endPos label program =>
    rw [emitOne, stepTexts]
    constructor
    · exact fun h ↦ bodyOf_listStep (readLine_list h)
    · exact fun h ↦ ⟨_, bodyOf_bad (readLine_texts (.inr rfl) (Decidable.not_not.mp h))⟩
  | .stepEach startPos endPos body =>
    rw [emitOne, stepTexts, List.cons_append, List.map_cons, List.map_append, List.cons_append,
      List.append_assoc, bodyOf_each readLine_each]
    exact (goesOn_block body rest).bind _
  | .stepSelect startPos endPos selector mode body =>
    obtain ⟨restFields, texts, hline, hfields, hread, hraised⟩ :=
      @readLine_select startPos endPos selector mode body
    rw [emitOne, stepTexts, List.cons_append, List.map_cons, List.map_append, List.cons_append,
      List.append_assoc, bodyOf_select hline hfields]
    have hselector : GoesOn ("" ∉ selector.patterns) (parseSelector texts) (.ok selector) :=
      ⟨hread, fun h ↦ hraised (Decidable.not_not.mp h)⟩
    refine (((goesOn_block body rest).bind _).trans (hselector.bind _)).congr ?_
    rw [List.mem_append, not_or, and_comm]
  | .stepCases startPos endPos cases =>
    rw [emitOne, stepTexts, List.cons_append, List.map_cons, List.map_append, List.cons_append,
      List.append_assoc, bodyOf_cases readLine_cases]
    exact (goesOn_blocks .case cases 1 rest []).bind _
  | .stepChoice startPos endPos label alternatives =>
    rw [emitOne, stepTexts, List.cons_append, List.map_cons, List.map_append, List.cons_append,
      List.append_assoc]
    by_cases hlabel : label = ""
    · subst hlabel
      exact ⟨fun h ↦ absurd List.mem_cons_self h, fun _ ↦ ⟨_, bodyOf_bad readLine_choice_bad⟩⟩
    · rw [bodyOf_choice (readLine_choice hlabel)]
      refine ((goesOn_blocks .alternative alternatives 1 rest []).bind _).congr ?_
      rw [List.mem_cons, not_or]
      exact ⟨fun h ↦ ⟨Ne.symm hlabel, h⟩, fun h ↦ h.2⟩
  | .stepRepeat startPos endPos body =>
    rw [emitOne, stepTexts, List.cons_append, List.map_cons, List.map_append, List.cons_append,
      List.append_assoc, bodyOf_repeated readLine_repeat]
    exact (goesOn_block body rest).bind _
  | .stepTry startPos endPos body =>
    rw [emitOne, stepTexts, List.cons_append, List.map_cons, List.map_append, List.cons_append,
      List.append_assoc, bodyOf_tried readLine_try]
    exact (goesOn_block body rest).bind _

theorem goesOn_steps (steps : List Step) (stops : List String) (rest : List (List String))
    (acc : List Step) : GoesOn ("" ∉ planTexts steps)
      (bodyOf stops ((emitSteps steps).map split ++ rest) acc)
        (bodyOf stops rest (steps.reverse ++ acc)) := by
  match steps with
  | [] =>
    rw [emitSteps]
    exact goesOn_of_eq rfl List.not_mem_nil
  | step :: steps =>
    rw [emitSteps, planTexts, List.map_append, List.append_assoc, List.reverse_cons, List.append_assoc]
    refine ((goesOn_one step stops _ acc).trans (goesOn_steps steps stops rest (step :: acc))).congr ?_
    rw [List.mem_append, not_or]

/-- The body of a block is read up to its end. -/
theorem goesOn_block (body : List Step) (rest : List (List String)) : GoesOn ("" ∉ planTexts body)
    (bodyOf ["end"] ((emitSteps body).map split ++ split endLine :: rest) []) (.ok (body, rest)) := by
  have hbody := goesOn_steps body ["end"] (split endLine :: rest) []
  rwa [bodyOf_blockEnd readLine_endLine, List.append_nil, List.reverse_reverse] at hbody

/-- The numbered blocks of a step are read up to its end. -/
theorem goesOn_blocks (kind : BlockKind) (blocks : List (List Step)) (n : ℤ) (rest : List (List String))
    (acc : List (List Step)) : GoesOn ("" ∉ blockTexts blocks)
      (blocksOf kind n ((emitBlocks kind.name n blocks).map split ++ split endLine :: rest) acc)
        (.ok (acc.reverse ++ blocks, rest)) := by
  match blocks with
  | [] =>
    rw [emitBlocks]
    refine goesOn_of_eq ?_ List.not_mem_nil
    rw [List.append_nil]
    exact blocksOf_blockEnd readLine_endLine
  | body :: blocks =>
    rw [emitBlocks, blockTexts, List.cons_append, List.map_cons, List.map_append, List.cons_append,
      List.append_assoc, blocksOf_block (number_blockLine n)]
    have hstop : bodyOf [kind.name, "end"]
        ((emitBlocks kind.name (n + 1) blocks).map split ++ split endLine :: rest) body.reverse =
          .ok (body, (emitBlocks kind.name (n + 1) blocks).map split ++ split endLine :: rest) := by
      cases blocks with
      | nil =>
        rw [emitBlocks]
        exact (bodyOf_lastBlock readLine_endLine).trans (by rw [List.reverse_reverse]; rfl)
      | cons next blocks =>
        rw [emitBlocks]
        exact (bodyOf_nextBlock (number_blockLine (n + 1))).trans (by rw [List.reverse_reverse]; rfl)
    have hbody := goesOn_steps body [kind.name, "end"]
      ((emitBlocks kind.name (n + 1) blocks).map split ++ split endLine :: rest) []
    rw [List.append_nil, hstop] at hbody
    have hrest := goesOn_blocks kind blocks (n + 1) rest (body :: acc)
    rw [List.reverse_cons, List.append_assoc] at hrest
    refine ((hbody.bind _).trans hrest).congr ?_
    rw [List.mem_append, not_or]

end

/-- A plan is read as it was written exactly if none of its labels, programs and patterns is empty. -/
theorem parseProofSteps_emitSteps_iff (steps : List Step) :
    parseProofSteps ((emitSteps steps).map split) = .ok steps ↔ "" ∉ planTexts steps := by
  have hread := goesOn_steps steps [] [] []
  rw [List.append_nil, List.append_nil] at hread
  have hend : bodyOf [] [] steps.reverse = .ok (steps, []) := by
    rw [bodyOf, parseBody]
    show Except.ok (steps.reverse.reverse, ([] : List (List String))) = _
    rw [List.reverse_reverse]
  rw [hend] at hread
  rw [parseProofSteps]
  constructor
  · intro h
    by_contra hempty
    obtain ⟨e, he⟩ := hread.2 fun hne ↦ hne hempty
    rw [bodyOf] at he
    cases hbody : parseBody [] ((emitSteps steps).map split) [] with
    | ok out =>
      rw [hbody] at he
      cases he
    | error e =>
      rw [hbody] at h
      cases h
  · intro hne
    have hok := hread.1 hne
    rw [bodyOf] at hok
    cases hbody : parseBody [] ((emitSteps steps).map split) [] with
    | ok out =>
      rw [hbody] at hok
      obtain ⟨hvalue, hrest⟩ := Prod.mk.inj (Except.ok.inj hok)
      show (match out.rest with
        | [] => Except.ok out.value
        | _ => .error "unexpected proof-ir parser residue") = _
      rw [hrest, hvalue]
    | error e =>
      rw [hbody] at hok
      cases hok

/-- An empty field is lost. -/
theorem empty_field_lost : ¬∀ fields : List String, (∃ field ∈ fields, field ≠ "") →
    split (join fields) = fields := by
  intro h
  have hread := h ["tactic", ""] ⟨"tactic", List.mem_cons_self, by decide⟩
  exact split_join_eq_iff.mp hread (by decide)

/-- The lines of the analyser have no newlines, and their fields, the attributes of proofs, the records and
the plans are read as they were written; what has an empty field of its own is not. -/
theorem wire_format_lossless_iff :
    (∀ fields, '\n' ∉ (join fields).toList ∧ (split (join fields) = fields ↔ "" ∉ fields)) ∧
    (∀ attrs, decodeProofAttrs (encodeProofAttrs attrs) = .ok attrs) ∧
    (∀ b, parseBoundary (split (emitBoundary b)) = .ok b ↔ "" ∉ b.texts) ∧
    (∀ t, parseTermination (split (emitTermination t)) = .ok t ↔ "" ∉ t.texts) ∧
    ∀ steps, parseProofSteps ((emitSteps steps).map split) = .ok steps ↔ "" ∉ planTexts steps :=
  ⟨fun _ ↦ ⟨newline_notMem_join, split_join_eq_iff⟩, decodeProofAttrs_encodeProofAttrs,
    parseBoundary_emitBoundary_iff, parseTermination_emitTermination_iff, parseProofSteps_emitSteps_iff⟩

end Holbuild.Analyser
