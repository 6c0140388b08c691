import Holbuild.ProofRuntime.Factories
import Holbuild.Library.Lines
import Mathlib.Data.List.Pairwise
import Mathlib.Data.List.Perm.Basic

/-!
# Instrumented scripts

`theory_checkpoints.sml`. A staged script is the source from an offset on, with holbuild's code around
theorems, after definitions and in termination proofs. The events are sorted by their starts, and the text is
put together from slices of the source, generated code and line pragmas.

What HOL reads of it is a list of the source's characters with their places (`located`) and of the pieces of
code that belong to events (`marks`). The slices are the source, each character once; a character's line is its
line in the source, since a pragma stands wherever generated code ended lines, and its column too on lines
without a wrapped tactic (`weaves_weave`). An event is left out only when another one overtook it (`kept`), which
happens to a definition's checkpoint at the start of a termination's definition.

Scope. The lines of the runtime in front of the script are parameters (`Preludes`). Pragmas of the source itself
are not read.
-/

set_option autoImplicit false
set_option relaxedAutoImplicit false

namespace Holbuild.Checkpoints.Instrumentation

open Library

/-! ### Events -/

/-- A theorem of the script, with the texts of its proof plan. -/
structure Checkpoint where
  kind : Text
  name : Text
  theoremStart : ℕ
  boundary : ℕ
  tacticStart : ℕ
  tacticEnd : ℕ
  tacticText : Text
  proofAttrs : List (Text × List Text)
  contextPath : Text
  contextOk : Text
  failedPrefixPath : Text
  failedPrefixOk : Text
  proofIrPlan : Option Text
  proofIrFactories : Option Text
deriving DecidableEq

/-- A definition after which the context is saved. -/
structure DeclarationCheckpoint where
  safeName : Text
  boundary : ℕ
  contextPath : Text
  contextOk : Text
deriving DecidableEq

/-- A definition with a termination proof. -/
structure Termination where
  name : Text
  definitionStart : ℕ
  tacticStart : ℕ
  tacticEnd : ℕ
  tacticText : Text
  proofIrPlan : Option Text
deriving DecidableEq

inductive Event
  | checkpoint (c : Checkpoint)
  | declaration (d : DeclarationCheckpoint)
  | termination (t : Termination)
deriving DecidableEq

def eventStart : Event → ℕ
  | .checkpoint c => c.theoremStart
  | .declaration d => d.boundary
  | .termination t => t.definitionStart

def insertEvent (event : Event) : List Event → List Event
  | [] => [event]
  | current :: rest =>
    if eventStart event ≤ eventStart current then event :: current :: rest
    else current :: insertEvent event rest

/-- What a script is instrumented with. -/
structure Input where
  source : Text
  sourceName : Text
  startOffset : ℕ
  checkpoints : List Checkpoint
  declarations : List DeclarationCheckpoint
  terminations : List Termination

def Input.activeCheckpoints (input : Input) : List Checkpoint :=
  input.checkpoints.filter fun c ↦ input.startOffset < c.boundary

def Input.activeDeclarations (input : Input) : List DeclarationCheckpoint :=
  input.declarations.filter fun d ↦ input.startOffset < d.boundary

def Input.activeTerminations (input : Input) : List Termination :=
  input.terminations.filter fun t ↦ input.startOffset ≤ t.definitionStart

def Input.activeEvents (input : Input) : List Event :=
  input.activeCheckpoints.map .checkpoint ++ input.activeDeclarations.map .declaration ++
    input.activeTerminations.map .termination

def sortedEvents (events : List Event) : List Event :=
  events.foldl (fun sorted event ↦ insertEvent event sorted) []

/-! ### Positions -/

structure Position where
  offset : ℕ
  line : ℕ
  col : ℕ
deriving DecidableEq, Repr

def startPosition : Position := ⟨0, 1, 1⟩

/-- The position after a character. -/
def Position.after (p : Position) (c : Char) : Position :=
  if c = '\n' then ⟨p.offset + 1, p.line + 1, 1⟩ else ⟨p.offset + 1, p.line, p.col + 1⟩

def advanceFrom (source : Text) (p : Position) (target : ℕ) : Position :=
  ((source.drop p.offset).take (target - p.offset)).foldl Position.after p

def advancePosition (source : Text) (p : Position) (target : ℕ) : Position :=
  if target < p.offset then advanceFrom source startPosition target else advanceFrom source p target

def lineAt (source : Text) (offset : ℕ) : ℕ := (advancePosition source startPosition offset).line

/-! ### Generated code -/

def smlChar : Char → Text
  | '\\' => "\\\\".toList
  | '"' => "\\\"".toList
  | '\n' => "\\n".toList
  | '\t' => "\\t".toList
  | c => [c]

/-- `HolbuildToolchain.sml_string`. -/
def smlString (text : Text) : Text := '"' :: text.flatMap smlChar ++ ['"']

def proofAttrText (attr : Text × List Text) : Text :=
  '(' :: smlString attr.1 ++ ", [".toList ++ concatWith ", ".toList (attr.2.map smlString) ++ "])".toList

def beginTheoremLine (c : Checkpoint) : Text :=
  (match c.proofIrPlan with
    | some plan => "val _ = HolbuildProofRuntime.set_theorem_plan (SOME (".toList ++ plan ++ "));\n".toList
    | none => "val _ = HolbuildProofRuntime.set_theorem_plan NONE;\n".toList) ++
  "val _ = holbuild_begin_theorem(".toList ++
  concatWith ", ".toList ([c.kind, c.name, c.tacticText, c.contextPath, c.contextOk, c.failedPrefixPath,
    c.failedPrefixOk].map smlString ++ ['[' :: concatWith ", ".toList (c.proofAttrs.map proofAttrText) ++ [']']]) ++
  ");\n".toList

def beginTerminationLine (t : Termination) : Text :=
  "val _ = HolbuildTerminationDiagnosticsRuntime.begin_definition ".toList ++ smlString t.name ++ " ".toList ++
    decimal t.definitionStart ++ ";\n".toList

def terminationTacticPrefix (t : Termination) : Text :=
  "(HolbuildTerminationDiagnosticsRuntime.report_goal ".toList ++ smlString t.name ++ " ".toList ++
    decimal t.definitionStart ++ " (".toList ++
    match t.proofIrPlan with
    | none => []
    | some plan =>
      "(HolbuildProofRuntime.termination_tactic ".toList ++ smlString t.name ++ " ".toList ++
        smlString t.tacticText ++ " (".toList ++ plan ++ ") (".toList ++
        "HolbuildTacticCompat.delay_tactic (fn () => (".toList

def terminationTacticSuffix (t : Termination) : Text :=
  match t.proofIrPlan with
  | none => "))".toList
  | some _ => "))))))".toList

def saveDeclarationContextLine (d : DeclarationCheckpoint) : Text :=
  "\nval _ = HolbuildCheckpointSaveRuntime.save_checkpoint \x7blabel = ".toList ++
    smlString ("definition_context:".toList ++ d.safeName) ++ ", default_share = false, path = ".toList ++
    smlString d.contextPath ++ ", ok_text = ".toList ++ smlString d.contextOk ++
    ", depth = HolbuildRuntime.save_hierarchy_depth ()\x7d;\n".toList

def factoriesText (c : Checkpoint) : Text :=
  if c.proofAttrs = [] then "NONE".toList
  else
    match c.proofIrFactories with
    | none => "NONE".toList
    | some code => "SOME (".toList ++ code ++ ")".toList

/-- The lines of the runtime, as the configuration has them. -/
structure Preludes where
  runtime : Text
  declaration : Text
  termination : Text

def preludeText (preludes : Preludes) (input : Input) : Text :=
  let bare := input.activeCheckpoints.isEmpty && input.activeTerminations.isEmpty
  (if bare then [] else preludes.runtime) ++
    (if bare && !input.activeDeclarations.isEmpty then preludes.declaration else []) ++
    if input.activeTerminations.isEmpty then [] else preludes.termination

def filePragma (sourceName : Text) : Text := "#(FILE=".toList ++ smlString sourceName ++ ")\n".toList

/-! ### The script -/

/-- The places of an event where its code goes. -/
inductive Part
  | opening | before | behind | closing
deriving DecidableEq, Repr

/-- A piece of a staged script: a slice of the source, code of an event, other code, or a line pragma. -/
inductive Piece
  | slice (start stop : ℕ)
  | generated (event : Event) (part : Part)
  | code (text : Text)
  | linePragma (line : ℕ)

def partText : Event → Part → Text
  | .checkpoint c, .opening => beginTheoremLine c
  | .checkpoint _, .before => "HolbuildProofRuntime.proof_ir_tactic (fn () => (".toList
  | .checkpoint _, .behind => ")) (let\n".toList
  | .checkpoint _, .closing => "val _ = holbuild_save_theorem_context();\n".toList
  | .declaration d, .opening => saveDeclarationContextLine d
  | .declaration _, _ => []
  | .termination t, .opening => beginTerminationLine t
  | .termination t, .before => terminationTacticPrefix t
  | .termination t, .behind => terminationTacticSuffix t
  | .termination _, .closing => []

def Piece.text (source : Text) : Piece → Text
  | .slice start stop => (source.drop start).take (stop - start)
  | .generated event part => partText event part
  | .code text => text
  | .linePragma line => "#(LINE=".toList ++ decimal line ++ ")\n".toList

/-- `String.substring`, which raises outside the text. -/
def sourceSlice (n start stop : ℕ) : Option Piece :=
  if start ≤ stop ∧ stop ≤ n then some (.slice start stop) else none

/-- The text after the pragma is at a position. The pieces come last first. -/
def linePragma (p : Position) (acc : List Piece) : List Piece :=
  .code (List.replicate (p.col - 1) ' ') :: .linePragma (p.line - 1) :: acc

def generatedCodePragma (source : Text) : Piece := .linePragma (lineAt source source.length + 1)

/-- The script after the prelude. The pieces that are there come last first. -/
def loop (source : Text) (startOffset : ℕ) : Position → ℕ → List Event → List Piece → Option (List Piece)
  | _, pos, [], acc => do
    let last ← sourceSlice source.length pos source.length
    some (last :: acc).reverse
  | position, pos, .checkpoint c :: rest, acc =>
    if c.boundary ≤ startOffset then loop source startOffset position pos rest acc
    else do
      let theoremPosition := advancePosition source position c.theoremStart
      let boundaryPosition := advancePosition source theoremPosition c.boundary
      let upTo ← sourceSlice source.length pos c.theoremStart
      let statement ← sourceSlice source.length c.theoremStart c.tacticStart
      let tactic ← sourceSlice source.length c.tacticStart c.tacticEnd
      let tail ← sourceSlice source.length c.tacticEnd c.boundary
      loop source startOffset boundaryPosition c.boundary rest <|
        linePragma boundaryPosition <|
          .generated (.checkpoint c) .closing :: .code ['\n'] :: tail ::
          .code ("in ".toList ++ factoriesText c ++ " end)".toList) :: generatedCodePragma source ::
          .generated (.checkpoint c) .behind :: tactic :: .generated (.checkpoint c) .before :: statement ::
          linePragma theoremPosition (.generated (.checkpoint c) .opening :: upTo :: acc)
  | position, pos, .declaration d :: rest, acc =>
    if d.boundary ≤ startOffset ∨ d.boundary < pos then loop source startOffset position pos rest acc
    else do
      let boundaryPosition := advancePosition source position d.boundary
      let upTo ← sourceSlice source.length pos d.boundary
      loop source startOffset boundaryPosition d.boundary rest <|
        linePragma boundaryPosition (.generated (.declaration d) .opening :: upTo :: acc)
  | position, pos, .termination t :: rest, acc =>
    if t.definitionStart < pos then loop source startOffset position pos rest acc
    else do
      let definitionPosition := advancePosition source position t.definitionStart
      let upTo ← sourceSlice source.length pos t.definitionStart
      let definition ← sourceSlice source.length t.definitionStart t.tacticStart
      let tactic ← sourceSlice source.length t.tacticStart t.tacticEnd
      loop source startOffset definitionPosition t.tacticEnd rest <|
        .generated (.termination t) .behind :: tactic :: .generated (.termination t) .before :: definition ::
          linePragma definitionPosition (.generated (.termination t) .opening :: upTo :: acc)

/-- The pieces of the staged script, none when a slice is outside the source. -/
def instrumentPieces (preludes : Preludes) (input : Input) : Option (List Piece) := do
  let position := advancePosition input.source startPosition input.startOffset
  let script ← loop input.source input.startOffset position input.startOffset
    (sortedEvents input.activeEvents) []
  some <| generatedCodePragma input.source :: .code (preludeText preludes input) ::
    .code (filePragma input.sourceName) :: (linePragma position []).reverse ++ script

def instrument (preludes : Preludes) (input : Input) : Option Text :=
  (instrumentPieces preludes input).map fun pieces ↦ pieces.flatMap (Piece.text input.source)

/-! ### What HOL reads -/

/-- A place in HOL's eyes. -/
structure Place where
  line : ℕ
  col : ℕ
deriving DecidableEq, Repr

def Place.after (p : Place) (c : Char) : Place := if c = '\n' then ⟨p.line + 1, 1⟩ else ⟨p.line, p.col + 1⟩

/-- The line after a pragma has the number after the pragma's. -/
def Piece.read (source : Text) : Piece → Place → Place
  | .linePragma line, _ => ⟨line + 1, 1⟩
  | piece, p => (piece.text source).foldl Place.after p

/-- The characters of a slice with their offsets and places. -/
def locateSlice : ℕ → Text → Place → List (ℕ × Place)
  | _, [], _ => []
  | offset, c :: rest, p => (offset, p) :: locateSlice (offset + 1) rest (p.after c)

def Piece.chars (source : Text) : Piece → Place → List (ℕ × Place)
  | .slice start stop, p => locateSlice start ((source.drop start).take (stop - start)) p
  | _, _ => []

/-- The source's characters in a script, by their offsets, with the places they have for HOL. -/
def located (source : Text) : List Piece → Place → List (ℕ × Place)
  | [], _ => []
  | piece :: rest, p => piece.chars source p ++ located source rest (piece.read source p)

/-- The code of events in a script, with the offsets up to which the source stands before it. -/
def marks : List Piece → ℕ → List (Event × Part × ℕ)
  | [], _ => []
  | .slice _ stop :: rest, _ => marks rest stop
  | .generated event part :: rest, offset => (event, part, offset) :: marks rest offset
  | _ :: rest, offset => marks rest offset

/-! ### What is to be kept -/

/-- Where the source goes on after an event. -/
def Event.stop : Event → ℕ
  | .checkpoint c => c.boundary
  | .declaration d => d.boundary
  | .termination t => t.tacticEnd

/-- The code of an event, where it belongs. -/
def Event.marks : Event → List (Event × Part × ℕ)
  | .checkpoint c =>
    [(.checkpoint c, .opening, c.theoremStart), (.checkpoint c, .before, c.tacticStart),
      (.checkpoint c, .behind, c.tacticEnd), (.checkpoint c, .closing, c.boundary)]
  | .declaration d => [(.declaration d, .opening, d.boundary)]
  | .termination t =>
    [(.termination t, .opening, t.definitionStart), (.termination t, .before, t.tacticStart),
      (.termination t, .behind, t.tacticEnd)]

/-- An event lies inside a source of a length. -/
def Event.Proper (n : ℕ) : Event → Prop
  | .checkpoint c => c.theoremStart ≤ c.tacticStart ∧ c.tacticStart ≤ c.tacticEnd ∧ c.tacticEnd ≤ c.boundary ∧
      c.theoremStart < c.boundary ∧ c.boundary ≤ n
  | .declaration d => d.boundary ≤ n
  | .termination t => t.definitionStart ≤ t.tacticStart ∧ t.tacticStart ≤ t.tacticEnd ∧
      t.definitionStart < t.tacticEnd ∧ t.tacticEnd ≤ n

instance (n : ℕ) : (e : Event) → Decidable (e.Proper n)
  | .checkpoint _ => inferInstanceAs (Decidable (_ ∧ _))
  | .declaration _ => inferInstanceAs (Decidable (_ ≤ _))
  | .termination _ => inferInstanceAs (Decidable (_ ∧ _))

/-- Two events do not overlap. A definition's checkpoint is a point, which may stand at an end. -/
def Apart (e e' : Event) : Prop := e.stop ≤ eventStart e' ∨ e'.stop ≤ eventStart e

instance (e e' : Event) : Decidable (Apart e e') := inferInstanceAs (Decidable (_ ∨ _))

def Input.events (input : Input) : List Event :=
  input.checkpoints.map .checkpoint ++ input.declarations.map .declaration ++ input.terminations.map .termination

structure WellFormed (input : Input) : Prop where
  proper : ∀ e ∈ input.events, e.Proper input.source.length
  apart : input.events.Pairwise Apart
  start : input.startOffset = 0 ∨ (∃ c ∈ input.checkpoints, input.startOffset = c.boundary) ∨
    ∃ d ∈ input.declarations, input.startOffset = d.boundary
  /-- Plans come from the analyser. -/
  plans : ∀ t ∈ input.terminations, ∀ plan ∈ t.proofIrPlan, ∃ steps, plan = ProofRuntime.planSml steps

/-- The place of a character in the source. -/
def placeAt (source : Text) (offset : ℕ) : Place := (source.take offset).foldl Place.after ⟨1, 1⟩

/-- A line on which a tactic of a theorem or of a definition is wrapped. -/
def Input.Wrapped (input : Input) (line : ℕ) : Prop :=
  (∃ c ∈ input.activeCheckpoints, line = (placeAt input.source c.tacticStart).line) ∨
    ∃ t ∈ input.activeTerminations, line = (placeAt input.source t.tacticStart).line ∨
      line = (placeAt input.source t.tacticEnd).line

/-- Between a theorem's tactic and its boundary. -/
def Input.BehindTactic (input : Input) (offset : ℕ) : Prop :=
  ∃ c ∈ input.activeCheckpoints, c.tacticEnd ≤ offset ∧ offset < c.boundary

/-- The script is the source from the start on, with its lines and columns. -/
structure SourceKept (input : Input) (pieces : List Piece) : Prop where
  offsets : (located input.source pieces ⟨1, 1⟩).map Prod.fst =
    List.range' input.startOffset (input.source.length - input.startOffset)
  places : ∀ x ∈ located input.source pieces ⟨1, 1⟩, ¬ input.BehindTactic x.1 →
    x.2.line = (placeAt input.source x.1).line ∧
      (¬ input.Wrapped (placeAt input.source x.1).line → x.2.col = (placeAt input.source x.1).col)

/-- Each event after the start is instrumented, where it belongs and once. -/
def EventsOnce (input : Input) (pieces : List Piece) : Prop :=
  (marks pieces input.startOffset).Perm (input.activeEvents.flatMap Event.marks)

/-! ### Positions of the source -/

variable {source : Text}

def positionAt (source : Text) (offset : ℕ) : Position := (source.take offset).foldl Position.after startPosition

theorem foldl_after_offset (text : Text) (p : Position) :
    (text.foldl Position.after p).offset = p.offset + text.length := by
  induction text generalizing p with
  | nil => rfl
  | cons c text ih =>
    rw [List.foldl_cons, ih, List.length_cons]
    have hafter : (p.after c).offset = p.offset + 1 := by
      rw [Position.after]
      split_ifs <;> rfl
    omega

theorem positionAt_offset {offset : ℕ} (h : offset ≤ source.length) : (positionAt source offset).offset = offset := by
  rw [positionAt, foldl_after_offset, List.length_take, Nat.min_eq_left h]
  exact Nat.zero_add offset

/-- Going on from a position of the source leads to positions of the source. -/
theorem advancePosition_positionAt {offset : ℕ} (h : offset ≤ source.length) (target : ℕ) :
    advancePosition source (positionAt source offset) target = positionAt source target := by
  have hfrom : advanceFrom source startPosition target = positionAt source target := rfl
  rw [advancePosition, positionAt_offset h, hfrom]
  split_ifs with htarget
  · rfl
  · have htake : source.take target =
        source.take offset ++ (source.drop offset).take (target - offset) := by
      rw [← List.take_add, Nat.add_sub_cancel' (not_lt.mp htarget)]
    rw [advanceFrom, positionAt_offset h, positionAt, positionAt, htake, List.foldl_append]

theorem advancePosition_start (target : ℕ) :
    advancePosition source startPosition target = positionAt source target :=
  advancePosition_positionAt (Nat.zero_le _) target

theorem foldl_after_place (text : Text) (p : Position) (q : Place) (hline : p.line = q.line) (hcol : p.col = q.col) :
    (text.foldl Position.after p).line = (text.foldl Place.after q).line ∧
      (text.foldl Position.after p).col = (text.foldl Place.after q).col := by
  induction text generalizing p q with
  | nil => exact ⟨hline, hcol⟩
  | cons c text ih =>
    refine ih _ _ ?_ ?_
    · rw [Position.after, Place.after]
      split_ifs
      · exact congrArg (· + 1) hline
      · exact hline
    · rw [Position.after, Place.after]
      split_ifs
      · rfl
      · exact congrArg (· + 1) hcol

theorem positionAt_line (offset : ℕ) : (positionAt source offset).line = (placeAt source offset).line :=
  (foldl_after_place _ _ _ rfl rfl).1

theorem positionAt_col (offset : ℕ) : (positionAt source offset).col = (placeAt source offset).col :=
  (foldl_after_place _ _ _ rfl rfl).2

theorem foldl_after_pos (text : Text) (p : Place) (hline : 1 ≤ p.line) (hcol : 1 ≤ p.col) :
    1 ≤ (text.foldl Place.after p).line ∧ 1 ≤ (text.foldl Place.after p).col := by
  induction text generalizing p with
  | nil => exact ⟨hline, hcol⟩
  | cons c text ih =>
    refine ih _ ?_ ?_
    · rw [Place.after]
      split_ifs
      · exact Nat.le_add_left 1 p.line
      · exact hline
    · rw [Place.after]
      split_ifs
      · exact le_rfl
      · exact Nat.le_add_left 1 p.col

theorem placeAt_pos (offset : ℕ) : 1 ≤ (placeAt source offset).line ∧ 1 ≤ (placeAt source offset).col :=
  foldl_after_pos _ _ le_rfl le_rfl

theorem placeAt_succ {offset : ℕ} (h : offset < source.length) :
    placeAt source (offset + 1) = (placeAt source offset).after source[offset] := by
  rw [placeAt, placeAt, List.take_add_one, List.getElem?_eq_getElem h, List.foldl_append]
  rfl

/-! ### Places -/

/-- The place has the line of a character in the source, and its column on lines that are not wrapped. -/
def On (source : Text) (wrapped : ℕ → Prop) (offset : ℕ) (p : Place) : Prop :=
  p.line = (placeAt source offset).line ∧
    (¬ wrapped (placeAt source offset).line → p.col = (placeAt source offset).col)

variable {wrapped : ℕ → Prop} {exempt : ℕ → Prop} {offset start stop n : ℕ} {p : Place}

theorem On.after (h : On source wrapped offset p) (hoffset : offset < source.length) :
    On source wrapped (offset + 1) (p.after source[offset]) := by
  rw [On, placeAt_succ hoffset, Place.after, Place.after]
  split_ifs
  · exact ⟨congrArg (· + 1) h.1, fun _ ↦ rfl⟩
  · exact ⟨h.1, fun hline ↦ congrArg (· + 1) (h.2 hline)⟩

theorem drop_take_cons (hlt : start < stop) (hstop : stop ≤ source.length) :
    (source.drop start).take (stop - start) =
      source[start] :: (source.drop (start + 1)).take (stop - (start + 1)) := by
  have hcount : stop - start = stop - (start + 1) + 1 := by omega
  rw [List.drop_eq_getElem_cons (hlt.trans_le hstop), hcount, List.take_succ_cons]

/-- Through a slice, characters stay where they are in the source. -/
theorem on_slice (h : On source wrapped start p) (hle : start ≤ stop) (hstop : stop ≤ source.length) :
    (∀ x ∈ locateSlice start ((source.drop start).take (stop - start)) p, On source wrapped x.1 x.2) ∧
      On source wrapped stop (((source.drop start).take (stop - start)).foldl Place.after p) := by
  induction hle using Nat.decreasingInduction generalizing p with
  | self =>
    rw [Nat.sub_self, List.take_zero]
    exact ⟨fun x hx ↦ (nomatch hx), h⟩
  | of_succ start hlt ih =>
    rw [drop_take_cons hlt hstop]
    obtain ⟨hchars, hend⟩ := ih (h.after (Nat.lt_of_lt_of_le hlt hstop))
    refine ⟨fun x hx ↦ ?_, hend⟩
    rcases List.mem_cons.mp hx with rfl | hx
    · exact h
    · exact hchars x hx

theorem locateSlice_offsets (text : Text) (start : ℕ) (p : Place) :
    (locateSlice start text p).map Prod.fst = List.range' start text.length := by
  induction text generalizing start p with
  | nil => rfl
  | cons c text ih =>
    rw [locateSlice, List.map_cons, ih, List.length_cons, List.range'_succ]

/-- On a line that is wrapped, code may go between. -/
theorem On.code (h : On source wrapped offset p) (hwrapped : wrapped (placeAt source offset).line)
    {text : Text} (htext : '\n' ∉ text) : On source wrapped offset (text.foldl Place.after p) := by
  induction text generalizing p with
  | nil => exact h
  | cons c text ih =>
    rw [List.mem_cons, not_or] at htext
    refine ih ⟨?_, fun hnot ↦ absurd hwrapped hnot⟩ htext.2
    rw [Place.after, if_neg fun hc ↦ htext.1 hc.symm]
    exact h.1

theorem foldl_after_spaces (k : ℕ) (p : Place) :
    (List.replicate k ' ').foldl Place.after p = ⟨p.line, p.col + k⟩ := by
  induction k generalizing p with
  | zero => rfl
  | succ k ih =>
    rw [List.replicate_succ, List.foldl_cons, ih]
    have hspace : p.after ' ' = ⟨p.line, p.col + 1⟩ := rfl
    rw [hspace, Nat.add_assoc, Nat.add_comm 1 k]

/-! ### Reading pieces -/

/-- The place after pieces. -/
def readAll (source : Text) (pieces : List Piece) (p : Place) : Place :=
  pieces.foldl (fun p piece ↦ piece.read source p) p

theorem located_append (first second : List Piece) (p : Place) :
    located source (first ++ second) p =
      located source first p ++ located source second (readAll source first p) := by
  induction first generalizing p with
  | nil => rfl
  | cons piece first ih =>
    rw [List.cons_append, located, ih, located, List.append_assoc]
    rfl

/-- The line pragma that places what follows at a position of the source. -/
def resume (source : Text) (offset : ℕ) : List Piece :=
  [.linePragma ((positionAt source offset).line - 1),
    .code (List.replicate ((positionAt source offset).col - 1) ' ')]

theorem readAll_resume (offset : ℕ) (p : Place) :
    readAll source (resume source offset) p = placeAt source offset := by
  obtain ⟨hline, hcol⟩ : 1 ≤ (placeAt source offset).line ∧ 1 ≤ (placeAt source offset).col :=
    placeAt_pos offset
  have hread : readAll source (resume source offset) p =
      (List.replicate ((positionAt source offset).col - 1) ' ').foldl Place.after
        ⟨(positionAt source offset).line - 1 + 1, 1⟩ := rfl
  rw [hread, foldl_after_spaces, positionAt_line, positionAt_col, Nat.sub_add_cancel hline,
    Nat.add_sub_cancel' hcol]

/-- Pieces that are the source between two offsets, with the code of events and in the right places except where
the source is behind a tactic. -/
structure Weaves (source : Text) (wrapped exempt : ℕ → Prop) (start stop : ℕ) (events : List (Event × Part × ℕ))
    (pieces : List Piece) : Prop where
  le : start ≤ stop
  marks (rest : List Piece) : marks (pieces ++ rest) start = events ++ marks rest stop
  offsets (p : Place) : (located source pieces p).map Prod.fst = List.range' start (stop - start)
  places (p : Place) : On source wrapped start p →
    (∀ x ∈ located source pieces p, exempt x.1 ∨ On source wrapped x.1 x.2) ∧
      On source wrapped stop (readAll source pieces p)

section

variable {events events' : List (Event × Part × ℕ)} {pieces pieces' : List Piece} {event : Event} {part : Part}
  {middle : ℕ}

theorem Weaves.append (h : Weaves source wrapped exempt start middle events pieces)
    (h' : Weaves source wrapped exempt middle stop events' pieces') :
    Weaves source wrapped exempt start stop (events ++ events') (pieces ++ pieces') where
  le := h.le.trans h'.le
  marks rest := by rw [List.append_assoc, h.marks, h'.marks, List.append_assoc]
  offsets p := by
    have hlength : start + (middle - start) = middle := Nat.add_sub_cancel' h.le
    rw [located_append, List.map_append, h.offsets, h'.offsets]
    nth_rewrite 2 [← hlength]
    rw [List.range'_append_1]
    congr 1
    have hle := h.le
    have hle' := h'.le
    omega
  places p hp := by
    obtain ⟨hfirst, hmiddle⟩ := h.places p hp
    obtain ⟨hsecond, hstop⟩ := h'.places _ hmiddle
    rw [located_append]
    refine ⟨fun x hx ↦ ?_, ?_⟩
    · rcases List.mem_append.mp hx with hx | hx
      · exact hfirst x hx
      · exact hsecond x hx
    · rw [readAll, List.foldl_append]
      exact hstop

theorem weaves_slice (hle : start ≤ stop) (hstop : stop ≤ source.length) :
    Weaves source wrapped exempt start stop [] [.slice start stop] where
  le := hle
  marks rest := rfl
  offsets p := by
    have hlength : ((source.drop start).take (stop - start)).length = stop - start := by
      rw [List.length_take, List.length_drop]
      omega
    rw [located, located, List.append_nil, Piece.chars, locateSlice_offsets, hlength]
  places p hp := by
    obtain ⟨hchars, hend⟩ := on_slice hp hle hstop
    refine ⟨fun x hx ↦ .inr (hchars x ?_), hend⟩
    rwa [located, located, List.append_nil] at hx

/-- Code of an event on a wrapped line. -/
theorem weaves_inline (hwrapped : wrapped (placeAt source offset).line) (htext : '\n' ∉ partText event part) :
    Weaves source wrapped exempt offset offset [(event, part, offset)] [.generated event part] where
  le := le_rfl
  marks rest := rfl
  offsets p := by rw [Nat.sub_self]; rfl
  places p hp := ⟨fun x hx ↦ (nomatch hx), hp.code hwrapped htext⟩

/-- Code of an event and a line pragma. -/
theorem weaves_resume : Weaves source wrapped exempt offset offset [(event, part, offset)]
    (.generated event part :: resume source offset) where
  le := le_rfl
  marks rest := rfl
  offsets p := by rw [Nat.sub_self]; rfl
  places p hp := by
    have hread : readAll source (.generated event part :: resume source offset) p =
        readAll source (resume source offset) ((Piece.generated event part).read source p) := rfl
    rw [hread, readAll_resume]
    exact ⟨fun x hx ↦ (nomatch hx), rfl, fun _ ↦ rfl⟩

/-- The code around what is behind a theorem's tactic. -/
theorem weaves_behind {code : Text} {line : ℕ} (hle : start ≤ stop) (hstop : stop ≤ source.length)
    (hexempt : ∀ offset, start ≤ offset → offset < stop → exempt offset) :
    Weaves source wrapped exempt start stop [(event, .behind, start), (event, .closing, stop)]
      (.generated event .behind :: .linePragma line :: .code code :: .slice start stop :: .code ['\n'] ::
        .generated event .closing :: resume source stop) where
  le := hle
  marks rest := rfl
  offsets p := by
    have hslice : Weaves source wrapped exempt start stop [] [.slice start stop] := weaves_slice hle hstop
    exact hslice.offsets _
  places p hp := by
    have hslice : Weaves source wrapped exempt start stop [] [.slice start stop] := weaves_slice hle hstop
    refine ⟨fun x hx ↦ .inl ?_, ?_⟩
    · have hoffset : x.1 ∈ List.range' start (stop - start) :=
        hslice.offsets _ ▸ List.mem_map_of_mem hx
      obtain ⟨hstart, hlt⟩ := List.mem_range'_1.mp hoffset
      exact hexempt x.1 hstart (by omega)
    · have hread : readAll source (.generated event .behind :: .linePragma line :: .code code ::
          .slice start stop :: .code ['\n'] :: .generated event .closing :: resume source stop) p =
          readAll source (resume source stop) (readAll source [.generated event .behind, .linePragma line,
            .code code, .slice start stop, .code ['\n'], .generated event .closing] p) := rfl
      rw [hread, readAll_resume]
      exact ⟨rfl, fun _ ↦ rfl⟩

end

/-! ### The pieces of an event -/

/-- The pieces from an offset on to where an event stops. -/
def eventPieces (source : Text) (pos : ℕ) : Event → List Piece
  | .checkpoint c =>
    [.slice pos c.theoremStart] ++ (.generated (.checkpoint c) .opening :: resume source c.theoremStart) ++
      [.slice c.theoremStart c.tacticStart] ++ [.generated (.checkpoint c) .before] ++
      [.slice c.tacticStart c.tacticEnd] ++
      (.generated (.checkpoint c) .behind :: generatedCodePragma source ::
        .code ("in ".toList ++ factoriesText c ++ " end)".toList) :: .slice c.tacticEnd c.boundary ::
        .code ['\n'] :: .generated (.checkpoint c) .closing :: resume source c.boundary)
  | .declaration d =>
    [.slice pos d.boundary] ++ (.generated (.declaration d) .opening :: resume source d.boundary)
  | .termination t =>
    [.slice pos t.definitionStart] ++ (.generated (.termination t) .opening :: resume source t.definitionStart) ++
      [.slice t.definitionStart t.tacticStart] ++ [.generated (.termination t) .before] ++
      [.slice t.tacticStart t.tacticEnd] ++ [.generated (.termination t) .behind]

/-- The lines on which an event wraps a tactic, and the offsets behind a theorem's tactic. -/
def Event.Allowed (source : Text) (wrapped exempt : ℕ → Prop) : Event → Prop
  | .checkpoint c => wrapped (placeAt source c.tacticStart).line ∧
      ∀ offset, c.tacticEnd ≤ offset → offset < c.boundary → exempt offset
  | .declaration _ => True
  | .termination t => wrapped (placeAt source t.tacticStart).line ∧ wrapped (placeAt source t.tacticEnd).line ∧
      ∀ plan ∈ t.proofIrPlan, '\n' ∉ plan

theorem newline_notMem_smlString (text : Text) : '\n' ∉ smlString text := by
  have hchar (c : Char) : '\n' ∉ smlChar c := by
    rw [smlChar.eq_def]
    split
    · decide
    · decide
    · decide
    · decide
    · next hne _ =>
      rw [List.mem_singleton]
      exact fun h ↦ hne h.symm
  rw [smlString, List.cons_append, List.mem_cons, List.mem_append, List.mem_flatMap]
  rintro (h | ⟨c, -, hc⟩ | h)
  · exact absurd h (by decide)
  · exact hchar c hc
  · exact absurd h (by decide)

theorem newline_notMem_terminationTacticPrefix {t : Termination} (h : ∀ plan ∈ t.proofIrPlan, '\n' ∉ plan) :
    '\n' ∉ terminationTacticPrefix t := by
  have hdecimal : '\n' ∉ decimal t.definitionStart :=
    fun hmem ↦ absurd (isDigit_of_mem_decimal hmem) (by decide)
  have hreport : '\n' ∉ "(HolbuildTerminationDiagnosticsRuntime.report_goal ".toList := by decide
  have hproof : '\n' ∉ "(HolbuildProofRuntime.termination_tactic ".toList := by decide
  have hdelay : '\n' ∉ "HolbuildTacticCompat.delay_tactic (fn () => (".toList := by decide
  have hopen : '\n' ∉ " (".toList ∧ '\n' ∉ " ".toList ∧ '\n' ∉ ") (".toList := by decide
  unfold terminationTacticPrefix
  rcases hplan : t.proofIrPlan with _ | plan
  · simp only [List.mem_append, hdecimal, newline_notMem_smlString, hreport, hopen, List.not_mem_nil, or_self,
      not_false_iff]
  · simp only [List.mem_append, hdecimal, newline_notMem_smlString, h plan hplan, hreport, hproof, hdelay,
      hopen, or_self, not_false_iff]

theorem newline_notMem_terminationTacticSuffix (t : Termination) : '\n' ∉ terminationTacticSuffix t := by
  have hnone : '\n' ∉ "))".toList := by decide
  have hsome : '\n' ∉ "))))))".toList := by decide
  rw [terminationTacticSuffix]
  cases t.proofIrPlan with
  | none => exact hnone
  | some plan => exact hsome

theorem weaves_eventPieces {event : Event} {pos : ℕ} (hproper : event.Proper source.length)
    (hallowed : event.Allowed source wrapped exempt) (hpos : pos ≤ eventStart event) :
    Weaves source wrapped exempt pos event.stop event.marks (eventPieces source pos event) := by
  cases event with
  | checkpoint c =>
    obtain ⟨hstatement, htactic, hbehind, -, hinside⟩ := hproper
    have htacticInside : c.tacticEnd ≤ source.length := hbehind.trans hinside
    have hstatementInside := htactic.trans htacticInside
    have hcode : '\n' ∉ "HolbuildProofRuntime.proof_ir_tactic (fn () => (".toList := by decide
    have hprefix : '\n' ∉ partText (.checkpoint c) .before := hcode
    exact (((((weaves_slice hpos (hstatement.trans hstatementInside)).append weaves_resume).append
      (weaves_slice hstatement hstatementInside)).append (weaves_inline hallowed.1 hprefix)).append
      (weaves_slice htactic htacticInside)).append (weaves_behind hbehind hinside hallowed.2)
  | declaration d => exact (weaves_slice hpos hproper).append weaves_resume
  | termination t =>
    obtain ⟨hdefinition, htactic, -, hinside⟩ := hproper
    obtain ⟨hfirst, hlast, hplan⟩ := hallowed
    have htacticInside := htactic.trans hinside
    have hprefix : '\n' ∉ partText (.termination t) .before := newline_notMem_terminationTacticPrefix hplan
    have hsuffix : '\n' ∉ partText (.termination t) .behind := newline_notMem_terminationTacticSuffix t
    exact (((((weaves_slice hpos (hdefinition.trans htacticInside)).append weaves_resume).append
      (weaves_slice hdefinition htacticInside)).append (weaves_inline hfirst hprefix)).append
      (weaves_slice htactic hinside)).append (weaves_inline hlast hsuffix)

/-! ### The events that are kept -/

/-- The events that are not overtaken by the ones before them. -/
def kept : ℕ → List Event → List Event
  | _, [] => []
  | pos, event :: rest =>
    if eventStart event < pos then kept pos rest else event :: kept event.stop rest

/-- The script after the prelude. -/
def weave (source : Text) : ℕ → List Event → List Piece
  | pos, [] => [.slice pos source.length]
  | pos, event :: rest =>
    if eventStart event < pos then weave source pos rest
    else eventPieces source pos event ++ weave source event.stop rest

/-- Only checkpoints of definitions are overtaken. -/
structure Ordered (pos : ℕ) (events : List Event) : Prop where
  next : ∀ e ∈ events, pos ≤ eventStart e ∨ ∃ d, e = .declaration d
  pairwise : events.Pairwise fun e e' ↦ e.stop ≤ eventStart e' ∨ ∃ d, e' = .declaration d

variable {pos : ℕ} {event : Event} {events : List Event}

theorem Ordered.skip (h : Ordered pos (event :: events)) : Ordered pos events where
  next e hmem := h.next e (List.mem_cons_of_mem _ hmem)
  pairwise := (List.pairwise_cons.mp h.pairwise).2

theorem Ordered.behind (h : Ordered pos (event :: events)) : Ordered event.stop events where
  next := (List.pairwise_cons.mp h.pairwise).1
  pairwise := (List.pairwise_cons.mp h.pairwise).2

theorem Event.Proper.stop_le (h : event.Proper n) : event.stop ≤ n := by
  cases event with
  | checkpoint c => exact h.2.2.2.2
  | declaration d => exact h
  | termination t => exact h.2.2.2

theorem Event.Proper.start_le_stop (h : event.Proper n) : eventStart event ≤ event.stop := by
  cases event with
  | checkpoint c => exact h.2.2.2.1.le
  | declaration d => exact le_rfl
  | termination t => exact h.2.2.1.le

/-- The script is woven of the source and the code of the events that are kept. -/
theorem weaves_weave (h : Ordered pos events) (hpos : pos ≤ source.length)
    (hproper : ∀ e ∈ events, e.Proper source.length)
    (hallowed : ∀ e ∈ events, e.Allowed source wrapped exempt) :
    Weaves source wrapped exempt pos source.length ((kept pos events).flatMap Event.marks)
      (weave source pos events) := by
  induction events generalizing pos with
  | nil => exact weaves_slice hpos le_rfl
  | cons event events ih =>
    have hproper' := fun e hmem ↦ hproper e (List.mem_cons_of_mem event hmem)
    have hallowed' := fun e hmem ↦ hallowed e (List.mem_cons_of_mem event hmem)
    rw [kept, weave]
    split_ifs with hovertaken
    · exact ih h.skip hpos hproper' hallowed'
    · have hevent := hproper event List.mem_cons_self
      rw [List.flatMap_cons]
      exact (weaves_eventPieces hevent (hallowed event List.mem_cons_self) (not_lt.mp hovertaken)).append
        (ih h.behind hevent.stop_le hproper' hallowed')

theorem sourceSlice_eq {start stop : ℕ} (hle : start ≤ stop) (hstop : stop ≤ n) :
    sourceSlice n start stop = some (.slice start stop) := if_pos ⟨hle, hstop⟩

/-- The pieces are put together in reverse, with the position of the source where the cursor was last. -/
theorem loop_eq {startOffset : ℕ} (h : Ordered pos events) (hpos : pos ≤ source.length)
    (hproper : ∀ e ∈ events, e.Proper source.length)
    (hactive : ∀ e ∈ events, startOffset < e.stop) {cursor : ℕ} (hcursor : cursor ≤ source.length)
    (acc : List Piece) :
    loop source startOffset (positionAt source cursor) pos events acc =
      some (acc.reverse ++ weave source pos events) := by
  induction events generalizing pos cursor acc with
  | nil =>
    rw [loop, sourceSlice_eq hpos le_rfl, weave]
    exact congrArg some List.reverse_cons
  | cons event events ih =>
    have hproper' := fun e hmem ↦ hproper e (List.mem_cons_of_mem event hmem)
    have hactive' := fun e hmem ↦ hactive e (List.mem_cons_of_mem event hmem)
    have hevent := hproper event List.mem_cons_self
    have hstop := hevent.stop_le
    have hstart : startOffset < event.stop := hactive event List.mem_cons_self
    have hnext := h.next event List.mem_cons_self
    cases event with
    | checkpoint c =>
      have hle : pos ≤ c.theoremStart := hnext.resolve_right fun ⟨d, hd⟩ ↦ (nomatch hd)
      obtain ⟨hstatement, htactic, hbehind, -, hinside⟩ := hevent
      have htacticInside := hbehind.trans hinside
      have hstatementInside := htactic.trans htacticInside
      have htheoremInside := hstatement.trans hstatementInside
      have hnot : ¬ c.boundary ≤ startOffset := not_le.mpr hstart
      have hkept : ¬ eventStart (.checkpoint c) < pos := not_lt.mpr hle
      rw [loop, if_neg hnot, weave, if_neg hkept]
      simp only [advancePosition_positionAt hcursor, advancePosition_positionAt htheoremInside,
        sourceSlice_eq hle htheoremInside, sourceSlice_eq hstatement hstatementInside,
        sourceSlice_eq htactic htacticInside, sourceSlice_eq hbehind hinside]
      refine (ih h.behind hinside hproper' hactive' hinside _).trans ?_
      simp [linePragma, eventPieces, resume, Event.stop]
    | declaration d =>
      rw [loop, weave]
      by_cases hovertaken : d.boundary < pos
      · have hskip : eventStart (.declaration d) < pos := hovertaken
        rw [if_pos (.inr hovertaken), if_pos hskip]
        exact ih h.skip hpos hproper' hactive' hcursor acc
      · have hkept : ¬ (d.boundary ≤ startOffset ∨ d.boundary < pos) := by
          rintro (hle | hlt)
          · exact absurd hstart (not_lt.mpr hle)
          · exact hovertaken hlt
        have hnext : ¬ eventStart (.declaration d) < pos := hovertaken
        rw [if_neg hkept, if_neg hnext, advancePosition_positionAt hcursor,
          sourceSlice_eq (not_lt.mp hovertaken) hevent]
        refine (ih h.behind hstop hproper' hactive' hevent _).trans ?_
        simp [linePragma, eventPieces, resume, Event.stop]
    | termination t =>
      have hle : pos ≤ t.definitionStart := hnext.resolve_right fun ⟨d, hd⟩ ↦ (nomatch hd)
      obtain ⟨hdefinition, htactic, -, hinside⟩ := hevent
      have htacticInside := htactic.trans hinside
      have hdefinitionInside := hdefinition.trans htacticInside
      have hnot : ¬ t.definitionStart < pos := not_lt.mpr hle
      have hkept : ¬ eventStart (.termination t) < pos := hnot
      rw [loop, if_neg hnot, weave, if_neg hkept]
      simp only [advancePosition_positionAt hcursor, sourceSlice_eq hle hdefinitionInside,
        sourceSlice_eq hdefinition htacticInside, sourceSlice_eq htactic hinside]
      refine (ih h.behind hinside hproper' hactive' hdefinitionInside _).trans ?_
      simp [linePragma, eventPieces, resume, Event.stop]

/-! ### Sorting -/

/-- The order in which kinds of events come before sorting. -/
def Event.rank : Event → ℕ
  | .checkpoint _ => 0
  | .declaration _ => 1
  | .termination _ => 2

/-- An event is sorted before another: at one start the one that came later. -/
def Before (e e' : Event) : Prop :=
  eventStart e < eventStart e' ∨ eventStart e = eventStart e' ∧ e'.rank ≤ e.rank

theorem insertEvent_perm (event : Event) (events : List Event) : (insertEvent event events).Perm (event :: events) := by
  induction events with
  | nil => exact .refl _
  | cons current rest ih =>
    rw [insertEvent]
    split_ifs
    · exact .refl _
    · exact (ih.cons current).trans (.swap event current rest)

theorem insertEvent_pairwise (hrank : ∀ e ∈ events, e.rank ≤ event.rank) (h : events.Pairwise Before) :
    (insertEvent event events).Pairwise Before := by
  induction events with
  | nil => exact List.pairwise_singleton Before event
  | cons current rest ih =>
    obtain ⟨hcurrent, hrest⟩ := List.pairwise_cons.mp h
    have hrankRest := fun e hmem ↦ hrank e (List.mem_cons_of_mem current hmem)
    rw [insertEvent]
    split_ifs with hle
    · refine List.pairwise_cons.mpr ⟨fun e hmem ↦ ?_, h⟩
      have hstart : eventStart current ≤ eventStart e := by
        rcases List.mem_cons.mp hmem with rfl | hmem
        · exact le_rfl
        · exact (hcurrent e hmem).elim le_of_lt fun heq ↦ heq.1.le
      rcases (hle.trans hstart).lt_or_eq with hlt | heq
      · exact .inl hlt
      · exact .inr ⟨heq, hrank e hmem⟩
    · refine List.pairwise_cons.mpr ⟨fun e hmem ↦ ?_, ih hrankRest hrest⟩
      rcases List.mem_cons.mp ((insertEvent_perm event rest).mem_iff.mp hmem) with rfl | hmem
      · exact .inl (not_le.mp hle)
      · exact hcurrent e hmem

theorem sortedEvents_spec (hrank : events.Pairwise fun e e' ↦ e.rank ≤ e'.rank) :
    (sortedEvents events).Perm events ∧ (sortedEvents events).Pairwise Before := by
  induction events using List.reverseRecOn with
  | nil => exact ⟨.refl _, .nil⟩
  | append_singleton events event ih =>
    obtain ⟨hfirst, -, hlast⟩ := List.pairwise_append.mp hrank
    obtain ⟨hperm, hpairwise⟩ := ih hfirst
    have hsorted : sortedEvents (events ++ [event]) = insertEvent event (sortedEvents events) := by
      rw [sortedEvents, List.foldl_append]
      rfl
    rw [hsorted]
    refine ⟨?_, insertEvent_pairwise (fun e hmem ↦ ?_) hpairwise⟩
    · exact (insertEvent_perm event _).trans ((hperm.cons event).trans (List.perm_append_singleton event events).symm)
    · exact hlast e (hperm.mem_iff.mp hmem) event (List.mem_singleton_self event)

/-- Events that do not overlap are sorted so that only a definition's checkpoint can be overtaken, by a
termination that starts where it stands. -/
theorem stop_le_of_before {e e' : Event} (hproper : e.Proper n) (hproper' : e'.Proper n) (hapart : Apart e e')
    (hbefore : Before e e') :
    e.stop ≤ eventStart e' ∨ ∃ t d, e = .termination t ∧ e' = .declaration d ∧ d.boundary = t.definitionStart := by
  rcases hapart with hle | hle
  · exact .inl hle
  have hstart := hproper.start_le_stop
  have hstop := hproper'.start_le_stop
  have heq : eventStart e = eventStart e' := by
    rcases hbefore with hlt | ⟨heq, -⟩
    · omega
    · exact heq
  have hpoint : e'.stop = eventStart e' := by omega
  cases e' with
  | checkpoint c => exact absurd hpoint hproper'.2.2.2.1.ne'
  | termination t => exact absurd hpoint hproper'.2.2.1.ne'
  | declaration d =>
    cases e with
    | checkpoint c =>
      rcases hbefore with hlt | ⟨-, hrank⟩
      · exact absurd heq hlt.ne
      · have hnot : ¬ 1 ≤ 0 := by decide
        exact absurd hrank hnot
    | declaration d' => exact .inl heq.le
    | termination t => exact .inr ⟨t, d, rfl, rfl, heq.symm⟩

/-! ### The events after the start -/

theorem Apart.symm {e e' : Event} (h : Apart e e') : Apart e' e := Or.symm h

instance : Std.Symm Apart := ⟨fun _ _ ↦ Apart.symm⟩

theorem activeEvents_sublist (input : Input) : input.activeEvents.Sublist input.events :=
  ((List.filter_sublist.map _).append (List.filter_sublist.map _)).append (List.filter_sublist.map _)

theorem activeEvents_rank (input : Input) : input.activeEvents.Pairwise fun e e' ↦ e.rank ≤ e'.rank := by
  simp only [Input.activeEvents, List.pairwise_append, List.pairwise_map, List.mem_append, List.mem_map]
  refine ⟨⟨?_, ?_, ?_⟩, ?_, ?_⟩
  · exact List.pairwise_of_forall fun _ _ ↦ le_rfl
  · exact List.pairwise_of_forall fun _ _ ↦ le_rfl
  · rintro _ ⟨c, -, rfl⟩ _ ⟨d, -, rfl⟩
    exact Nat.zero_le _
  · exact List.pairwise_of_forall fun _ _ ↦ le_rfl
  · rintro _ (⟨c, -, rfl⟩ | ⟨d, -, rfl⟩) _ ⟨t, -, rfl⟩
    · exact Nat.zero_le _
    · exact Nat.le_succ 1

section

variable {input : Input}

/-- An event after the start begins there at the earliest. -/
theorem start_le_of_active (h : WellFormed input) (hevent : event ∈ input.activeEvents) :
    input.startOffset ≤ eventStart event ∧ input.startOffset < event.stop := by
  have hmem : event ∈ input.events := (activeEvents_sublist input).subset hevent
  have hproper := h.proper event hmem
  have hapart (other : Event) (hother : other ∈ input.events) (hne : other ≠ event) : Apart other event :=
    h.apart.forall hother hmem hne
  simp only [Input.activeEvents, Input.activeCheckpoints, Input.activeDeclarations, Input.activeTerminations,
    List.mem_append, List.mem_map, List.mem_filter, decide_eq_true_eq] at hevent
  rcases hevent with (⟨c, ⟨hc, hactive⟩, rfl⟩ | ⟨d, ⟨hd, hactive⟩, rfl⟩) | ⟨t, ⟨ht, hactive⟩, rfl⟩
  · refine ⟨?_, hactive⟩
    have hpoint (other : Event) (hother : other ∈ input.events) (hstop : input.startOffset = other.stop) :
        input.startOffset ≤ c.theoremStart := by
      have hne : other ≠ .checkpoint c := by
        rintro rfl
        exact absurd hactive (by rw [hstop]; exact lt_irrefl _)
      have hstart := (h.proper other hother).start_le_stop
      rcases hapart other hother hne with hle | hle
      · exact hstop.le.trans hle
      · have hbehind : c.boundary ≤ eventStart other := hle
        omega
    rcases h.start with hzero | ⟨c', hc', hstop⟩ | ⟨d, hd, hstop⟩
    · exact hzero ▸ Nat.zero_le _
    · exact hpoint (.checkpoint c') (by simp [Input.events, hc']) hstop
    · exact hpoint (.declaration d) (by simp [Input.events, hd]) hstop
  · exact ⟨hactive.le, hactive⟩
  · exact ⟨hactive, lt_of_le_of_lt hactive hproper.2.2.1⟩

theorem startOffset_le (h : WellFormed input) : input.startOffset ≤ input.source.length := by
  rcases h.start with hzero | ⟨c, hc, hstop⟩ | ⟨d, hd, hstop⟩
  · exact hzero ▸ Nat.zero_le _
  · exact hstop ▸ (h.proper (.checkpoint c) (by simp [Input.events, hc])).stop_le
  · exact hstop ▸ (h.proper (.declaration d) (by simp [Input.events, hd])).stop_le

theorem mem_sortedEvents (input : Input) : event ∈ sortedEvents input.activeEvents ↔ event ∈ input.activeEvents :=
  (sortedEvents_spec (activeEvents_rank input)).1.mem_iff

theorem proper_sortedEvents (h : WellFormed input) :
    ∀ e ∈ sortedEvents input.activeEvents, e.Proper input.source.length := fun e hmem ↦
  h.proper e ((activeEvents_sublist input).subset ((mem_sortedEvents input).mp hmem))

/-- Events that are sorted follow each other, except a definition's checkpoint that is overtaken. -/
theorem pairwise_sortedEvents (h : WellFormed input) :
    (sortedEvents input.activeEvents).Pairwise fun e e' ↦ Before e e' ∧
      (e.stop ≤ eventStart e' ∨
        ∃ t d, e = .termination t ∧ e' = .declaration d ∧ d.boundary = t.definitionStart) := by
  obtain ⟨hperm, hbefore⟩ := sortedEvents_spec (activeEvents_rank input)
  have hapart : (sortedEvents input.activeEvents).Pairwise Apart :=
    (hperm.pairwise_iff fun h ↦ Apart.symm h).mpr (h.apart.sublist (activeEvents_sublist input))
  refine (List.Pairwise.and_mem.mp (hbefore.and hapart)).imp fun ⟨hmem, hmem', hbefore, hapart⟩ ↦ ⟨hbefore, ?_⟩
  exact stop_le_of_before (proper_sortedEvents h _ hmem) (proper_sortedEvents h _ hmem') hapart hbefore

theorem ordered_sortedEvents (h : WellFormed input) : Ordered input.startOffset (sortedEvents input.activeEvents) where
  next _ hmem := .inl (start_le_of_active h ((mem_sortedEvents input).mp hmem)).1
  pairwise := (pairwise_sortedEvents h).imp fun ⟨_, hnext⟩ ↦
    hnext.imp_right fun ⟨_, d, _, hd, _⟩ ↦ ⟨d, hd⟩

theorem allowed_sortedEvents (h : WellFormed input) :
    ∀ e ∈ sortedEvents input.activeEvents, e.Allowed input.source input.Wrapped input.BehindTactic := by
  intro _ hmem
  have hactive := (mem_sortedEvents input).mp hmem
  simp only [Input.activeEvents, List.mem_append, List.mem_map] at hactive
  rcases hactive with (⟨c, hc, rfl⟩ | ⟨d, hd, rfl⟩) | ⟨t, ht, rfl⟩
  · exact ⟨.inl ⟨c, hc, rfl⟩, fun offset hle hlt ↦ ⟨c, hc, hle, hlt⟩⟩
  · trivial
  · refine ⟨.inr ⟨t, ht, .inl rfl⟩, .inr ⟨t, ht, .inr rfl⟩, fun plan hplan ↦ ?_⟩
    obtain ⟨steps, rfl⟩ := h.plans t (List.mem_filter.mp ht).1 plan hplan
    exact ProofRuntime.newline_notMem_planSml steps

end

/-! ### Overtaking -/

theorem kept_sublist (pos : ℕ) (events : List Event) : (kept pos events).Sublist events := by
  induction events generalizing pos with
  | nil => exact .refl _
  | cons event events ih =>
    rw [kept]
    split_ifs
    · exact (ih pos).cons event
    · exact (ih event.stop).cons_cons event

/-- The events that are kept follow each other. -/
theorem kept_pairwise (pos : ℕ) (hproper : ∀ e ∈ events, e.Proper n) :
    (∀ e ∈ kept pos events, pos ≤ eventStart e) ∧
      (kept pos events).Pairwise fun e e' ↦ e.stop ≤ eventStart e' := by
  induction events generalizing pos with
  | nil => exact ⟨fun e h ↦ (nomatch h), .nil⟩
  | cons event events ih =>
    have hproper' := fun e hmem ↦ hproper e (List.mem_cons_of_mem event hmem)
    rw [kept]
    split_ifs with hovertaken
    · exact ih pos hproper'
    · obtain ⟨hnext, hpairwise⟩ := ih event.stop hproper'
      refine ⟨fun e hmem ↦ ?_, List.pairwise_cons.mpr ⟨hnext, hpairwise⟩⟩
      rcases List.mem_cons.mp hmem with rfl | hmem
      · exact not_lt.mp hovertaken
      · have hstop := (hproper event List.mem_cons_self).start_le_stop
        exact (not_lt.mp hovertaken).trans (hstop.trans (hnext e hmem))

theorem kept_eq_self (hnext : ∀ e ∈ events, pos ≤ eventStart e)
    (hpairwise : events.Pairwise fun e e' ↦ e.stop ≤ eventStart e') : kept pos events = events := by
  induction events generalizing pos with
  | nil => rfl
  | cons event events ih =>
    obtain ⟨hbehind, hrest⟩ := List.pairwise_cons.mp hpairwise
    rw [kept, if_neg (not_lt.mpr (hnext event List.mem_cons_self)), ih hbehind hrest]

/-- The events can be read off their code. -/
theorem openings_flatMap_marks (events : List Event) :
    (events.flatMap Event.marks).filterMap (fun mark ↦ if mark.2.1 = .opening then some mark.1 else none) =
      events := by
  induction events with
  | nil => rfl
  | cons event events ih =>
    rw [List.flatMap_cons, List.filterMap_append, ih]
    cases event <;> rfl

theorem perm_of_marks_perm {first second : List Event}
    (h : (first.flatMap Event.marks).Perm (second.flatMap Event.marks)) : first.Perm second := by
  have hopenings := h.filterMap fun mark ↦ if mark.2.1 = .opening then some mark.1 else none
  rwa [openings_flatMap_marks, openings_flatMap_marks] at hopenings

/-- Nothing is overtaken exactly when no definition's checkpoint stands where a termination starts. -/
theorem kept_perm_iff {input : Input} (h : WellFormed input) :
    (kept input.startOffset (sortedEvents input.activeEvents)).Perm input.activeEvents ↔
      ∀ d ∈ input.activeDeclarations, ∀ t ∈ input.activeTerminations, d.boundary ≠ t.definitionStart := by
  have hperm := (sortedEvents_spec (activeEvents_rank input)).1
  constructor
  · intro hkept d hd t ht htie
    have hsame : kept input.startOffset (sortedEvents input.activeEvents) = sortedEvents input.activeEvents :=
      (kept_sublist _ _).eq_of_length (hkept.trans hperm.symm).length_eq
    have hfollow := (kept_pairwise input.startOffset (proper_sortedEvents h)).2
    rw [hsame] at hfollow
    have hboth : (sortedEvents input.activeEvents).Pairwise fun e e' ↦
        e.stop ≤ eventStart e' ∧ Before e e' ∨ e'.stop ≤ eventStart e ∧ Before e' e :=
      (hfollow.and (pairwise_sortedEvents h)).imp fun ⟨hstop, hbefore, _⟩ ↦ .inl ⟨hstop, hbefore⟩
    have hsymm : Std.Symm fun e e' ↦
        e.stop ≤ eventStart e' ∧ Before e e' ∨ e'.stop ≤ eventStart e ∧ Before e' e := ⟨fun _ _ ↦ Or.symm⟩
    have hdeclaration : Event.declaration d ∈ sortedEvents input.activeEvents :=
      (mem_sortedEvents input).mpr (by simp [Input.activeEvents, hd])
    have htermination : Event.termination t ∈ sortedEvents input.activeEvents :=
      (mem_sortedEvents input).mpr (by simp [Input.activeEvents, ht])
    have hlong : t.definitionStart < t.tacticEnd := (proper_sortedEvents h _ htermination).2.2.1
    rcases hboth.forall hdeclaration htermination (fun heq ↦ nomatch heq) with ⟨-, hbefore⟩ | ⟨hstop, -⟩
    · rcases hbefore with hlt | ⟨-, hrank⟩
      · exact absurd htie hlt.ne
      · have hnot : ¬ 2 ≤ 1 := by decide
        exact hnot hrank
    · have hle : t.tacticEnd ≤ d.boundary := hstop
      omega
  · intro hno
    have hfollow : (sortedEvents input.activeEvents).Pairwise fun e e' ↦ e.stop ≤ eventStart e' := by
      refine (List.Pairwise.and_mem.mp (pairwise_sortedEvents h)).imp fun {e e'} hpair ↦ ?_
      obtain ⟨hmem, hmem', -, hstop⟩ := hpair
      rcases hstop with hstop | ⟨t, d, rfl, rfl, htie⟩
      · exact hstop
      · have hd : d ∈ input.activeDeclarations := by
          simpa [Input.activeEvents] using (mem_sortedEvents input).mp hmem'
        have ht : t ∈ input.activeTerminations := by
          simpa [Input.activeEvents] using (mem_sortedEvents input).mp hmem
        exact absurd htie (hno d hd t ht)
    have hnext : ∀ e ∈ sortedEvents input.activeEvents, input.startOffset ≤ eventStart e := fun e hmem ↦
      (start_le_of_active h ((mem_sortedEvents input).mp hmem)).1
    rw [kept_eq_self hnext hfollow]
    exact hperm

/-- The pieces of a script: the prelude, and what is woven. -/
theorem instrumentPieces_eq (preludes : Preludes) {input : Input} (h : WellFormed input) :
    instrumentPieces preludes input = some
      (generatedCodePragma input.source :: .code (preludeText preludes input) ::
        .code (filePragma input.sourceName) :: resume input.source input.startOffset ++
          weave input.source input.startOffset (sortedEvents input.activeEvents)) := by
  have hactive : ∀ e ∈ sortedEvents input.activeEvents, input.startOffset < e.stop := fun e hmem ↦
    (start_le_of_active h ((mem_sortedEvents input).mp hmem)).2
  have hloop := loop_eq (ordered_sortedEvents h) (startOffset_le h) (proper_sortedEvents h) hactive
    (startOffset_le h) []
  rw [instrumentPieces, advancePosition_start, hloop]
  rfl

/-- For every script and every list of events that do not overlap, the staged script is the source from the
start on, with its lines and columns; and the events after the start are instrumented once each exactly when no
definition's checkpoint stands at the start of a termination's definition. -/
theorem instrument_exact (preludes : Preludes) {input : Input} (h : WellFormed input) :
    ∃ pieces, instrumentPieces preludes input = some pieces ∧
      instrument preludes input = some (pieces.flatMap (Piece.text input.source)) ∧ SourceKept input pieces ∧
      (EventsOnce input pieces ↔
        ∀ d ∈ input.activeDeclarations, ∀ t ∈ input.activeTerminations, d.boundary ≠ t.definitionStart) := by
  have hweaves := weaves_weave (ordered_sortedEvents h) (startOffset_le h) (proper_sortedEvents h)
    (allowed_sortedEvents h)
  have hprelude (script : List Piece) : located input.source
      (generatedCodePragma input.source :: .code (preludeText preludes input) ::
        .code (filePragma input.sourceName) :: resume input.source input.startOffset ++ script) ⟨1, 1⟩ =
      located input.source script (placeAt input.source input.startOffset) := by
    rw [located_append, ← readAll_resume input.startOffset ((Piece.code (filePragma input.sourceName)).read
      input.source ((Piece.code (preludeText preludes input)).read input.source
        ((generatedCodePragma input.source).read input.source ⟨1, 1⟩)))]
    rfl
  have hstart : On input.source input.Wrapped input.startOffset (placeAt input.source input.startOffset) :=
    ⟨rfl, fun _ ↦ rfl⟩
  have hinstrument := congrArg (Option.map fun pieces : List Piece ↦ pieces.flatMap (Piece.text input.source))
    (instrumentPieces_eq preludes h)
  refine ⟨_, instrumentPieces_eq preludes h, hinstrument, ⟨?_, fun x hx hbehind ↦ ?_⟩, ?_⟩
  · rw [hprelude]
    exact hweaves.offsets _
  · rw [hprelude] at hx
    exact ((hweaves.places _ hstart).1 x hx).resolve_left hbehind
  · have hmarks := hweaves.marks []
    rw [List.append_nil] at hmarks
    have hnone : marks [] input.source.length = [] := rfl
    rw [hnone, List.append_nil] at hmarks
    rw [← kept_perm_iff h, EventsOnce]
    exact ⟨fun hperm ↦ perm_of_marks_perm (hmarks ▸ hperm), fun hperm ↦ hmarks ▸ hperm.flatMap_right Event.marks⟩

/-- Two definitions, the second one on a line of its own, and the script from the start. -/
theorem instrument_exact_apart :
    let first : Termination := ⟨"f".toList, 0, 34, 35, "t".toList, none⟩
    let second : Termination := ⟨"g".toList, 41, 75, 76, "u".toList, some (ProofRuntime.planSml [.stepTactic (66, 67) "u".toList "u".toList])⟩
    let saved : DeclarationCheckpoint := ⟨"f".toList, 40, "f.save".toList, "ok".toList⟩
    let source := "Definition f: f x = x Termination t End;\nDefinition g: g x = x Termination u End\n".toList
    let input : Input := ⟨source, "aScript.sml".toList, 0, [], [saved], [first, second]⟩
    ∃ pieces, instrumentPieces ⟨[], [], []⟩ input = some pieces ∧ SourceKept input pieces ∧
      EventsOnce input pieces := by
  intro first second saved source input
  have hplans : ∀ t ∈ [first, second], ∀ plan ∈ t.proofIrPlan, ∃ steps, plan = ProofRuntime.planSml steps := by
    intro t ht plan hplan
    rcases List.mem_pair.mp ht with rfl | rfl
    · exact nomatch hplan
    · exact ⟨_, (Option.some.inj hplan).symm⟩
  have hwell : WellFormed input := ⟨by decide, by decide, .inl rfl, hplans⟩
  obtain ⟨pieces, hpieces, -, hkept, honce⟩ := instrument_exact ⟨[], [], []⟩ hwell
  exact ⟨pieces, hpieces, hkept, honce.mpr (by decide)⟩

/-- The checkpoint of a definition is left out when a definition with a termination proof follows at once. -/
theorem checkpoint_left_out :
    let first : Termination := ⟨"f".toList, 0, 34, 35, "t".toList, none⟩
    let second : Termination := ⟨"g".toList, 40, 74, 75, "u".toList, none⟩
    let saved : DeclarationCheckpoint := ⟨"f".toList, 40, "f.save".toList, "ok".toList⟩
    let source := "Definition f: f x = x Termination t End;Definition g: g x = x Termination u End\n".toList
    let input : Input := ⟨source, "aScript.sml".toList, 0, [], [saved], [first, second]⟩
    WellFormed input ∧ .declaration saved ∈ input.activeEvents ∧
      (instrumentPieces ⟨[], [], []⟩ input).map (fun pieces ↦ (marks pieces 0).map fun mark ↦ (mark.1, mark.2.1)) =
        some [(.termination first, .opening), (.termination first, .before), (.termination first, .behind),
          (.termination second, .opening), (.termination second, .before), (.termination second, .behind)] := by
  intro first second saved source input
  have hplans : ∀ t ∈ [first, second], ∀ plan ∈ t.proofIrPlan, ∃ steps, plan = ProofRuntime.planSml steps := by
    intro t ht plan hplan
    rcases List.mem_pair.mp ht with rfl | rfl
    · exact nomatch hplan
    · exact nomatch hplan
  have hwell : WellFormed input := ⟨by decide, by decide, .inl rfl, hplans⟩
  exact ⟨hwell, by decide, by decide +kernel⟩

end Holbuild.Checkpoints.Instrumentation
