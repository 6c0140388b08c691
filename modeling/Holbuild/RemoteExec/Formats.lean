import Holbuild.Library.Digraph
import Mathlib.Data.List.Dedup

/-!
# The action batch and the result record

`formats.py`. The coordinator reads two texts: the batch a client submits and the record a worker
reports. `parseBatch` reads the first, line by line, and then checks that the edges join actions of
the batch, without repetition and without a cycle. A `Batch` carries what those checks establish:
distinct input keys (`keys_nodup`), distinct edges (`edges_nodup`) between actions of the batch
(`edges_mem`) and no cycle (`acyclic`), so that no batch without them can be submitted. A `Result`
carries what `parse_result` checks of a record's status and failure.

Scope. The text of a result record is not read here: `Result` is the type of what `parse_result`
returns, and every value of it is covered.
-/

set_option autoImplicit false
set_option relaxedAutoImplicit false

namespace Holbuild.RemoteExec

open Library

/-! ### Python's text functions -/

/-- The characters at which `str.splitlines` ends a line, `\r\n` counting as one end. -/
def isLineBreak (c : Char) : Bool :=
  [0x0a, 0x0b, 0x0c, 0x0d, 0x1c, 0x1d, 0x1e, 0x85, 0x2028, 0x2029].contains c.toNat

/-- What `\s` matches in a pattern over text. -/
def isSpace (c : Char) : Bool :=
  [0x20, 0x85, 0xa0, 0x1680, 0x2028, 0x2029, 0x202f, 0x205f, 0x3000].contains c.toNat ||
    (0x09 ≤ c.toNat && c.toNat ≤ 0x0d) || (0x1c ≤ c.toNat && c.toNat ≤ 0x1f) ||
    (0x2000 ≤ c.toNat && c.toNat ≤ 0x200a)

/-- `str.splitlines` on characters, the line being read held in reverse. -/
def splitlinesFrom : List Char → List Char → List String
  | [], [] => []
  | line, [] => [String.ofList line.reverse]
  | line, '\r' :: '\n' :: rest => String.ofList line.reverse :: splitlinesFrom [] rest
  | line, c :: rest =>
    if isLineBreak c then String.ofList line.reverse :: splitlinesFrom [] rest
    else splitlinesFrom (c :: line) rest

/-- `str.splitlines`. -/
def splitlines (text : String) : List String := splitlinesFrom [] text.toList

/-- `line.split(" ")`. -/
def splitSpaces (line : String) : List String :=
  (line.toList.splitOn ' ').map String.ofList

/-- `theory.split(":", 1)`: the text before the first colon and the text after it. -/
def splitTheory (theory : String) : String × String :=
  (String.ofList (theory.toList.takeWhile (· != ':')),
    String.ofList ((theory.toList.dropWhile (· != ':')).drop 1))

/-- The pattern `SHA256`, matched in full. -/
def isSha256 (value : String) : Bool :=
  value.toList.length == 64 && value.toList.all fun c ↦
    ('0' ≤ c && c ≤ '9') || ('a' ≤ c && c ≤ 'f')

/-- The pattern `THEORY`, matched in full. -/
def isTheory (value : String) : Bool :=
  let package := value.toList.takeWhile (· != ':')
  let name := (value.toList.dropWhile (· != ':')).drop 1
  !package.isEmpty && package.all (!isSpace ·) && !name.isEmpty && name.all (!isSpace ·)

/-! ### Errors -/

/-- The ways a batch is refused. -/
inductive FormatError
  | header (found : String)
  | duplicateAction (inputKey : String)
  | bad (what value : String)
  | badLine (line : String)
  | edge (inputKey parent : String)
  | duplicateEdge
  | cycle (edges : List (String × String))
deriving DecidableEq

/-- The text of an error, given Python's `repr` and the cycle that `graphlib` reports, which depends
on the iteration order of sets. -/
def FormatError.message (repr : String → String)
    (reported : List (String × String) → List String) : FormatError → String
  | .header found => "expected header 'holbuild-action-batch-v1', got " ++ repr found
  | .duplicateAction inputKey => "duplicate action " ++ inputKey
  | .bad what value => "bad " ++ what ++ ": " ++ repr value
  | .badLine line => "bad batch line: " ++ repr line
  | .edge inputKey parent =>
    "edge " ++ inputKey ++ " " ++ parent ++ " does not join two actions of the batch"
  | .duplicateEdge => "duplicate edge"
  | .cycle edges => "the edges form a cycle: " ++ String.intercalate " -> " (reported edges)

/-! ### The batch -/

/-- An action of a batch. -/
structure BatchAction where
  inputKey : String
  acKey : String
  specSha256 : String
  theory : String
deriving DecidableEq

/-- The step from an action to an action it depends on, along an edge `(input_key, parent)`. -/
def DependsOn (edges : List (String × String)) (child parent : String) : Prop :=
  (child, parent) ∈ edges

/-- A batch the coordinator accepts. -/
structure Batch where
  actions : List BatchAction
  edges : List (String × String)
  keys_nodup : (actions.map (·.inputKey)).Nodup
  edges_mem : ∀ e ∈ edges, e.1 ∈ actions.map (·.inputKey) ∧ e.2 ∈ actions.map (·.inputKey)
  edges_nodup : edges.Nodup
  acyclic : Acyclic (DependsOn edges)

/-- The actions and edges read so far, the actions with distinct keys. -/
structure Parsed where
  actions : List BatchAction
  edges : List (String × String)
  keys_nodup : (actions.map (·.inputKey)).Nodup

/-- Reading no line. -/
def Parsed.empty : Parsed := ⟨[], [], List.nodup_nil⟩

/-- Reads one line after the header. -/
def parseLine (parsed : Parsed) (line : String) : Except FormatError Parsed :=
  if line = "" then .ok parsed
  else
    match splitSpaces line with
    | ["action", inputKey, acKey, spec, theory] =>
      if hkey : inputKey ∈ parsed.actions.map (·.inputKey) then .error (.duplicateAction inputKey)
      else if !isSha256 inputKey then .error (.bad "input key" inputKey)
      else if !isSha256 acKey then .error (.bad "ac key" acKey)
      else if !isSha256 spec then .error (.bad "spec sha256" spec)
      else if !isTheory theory then .error (.bad "theory" theory)
      else .ok ⟨parsed.actions ++ [⟨inputKey, acKey, spec, theory⟩], parsed.edges, by
        rw [List.map_append, List.map_singleton]
        exact List.Nodup.append parsed.keys_nodup (List.nodup_singleton _)
          (List.disjoint_singleton.mpr hkey)⟩
    | ["edge", inputKey, parent] =>
      .ok ⟨parsed.actions, parsed.edges ++ [(inputKey, parent)], parsed.keys_nodup⟩
    | _ => .error (.badLine line)

/-- The parents of an action: its predecessors in the graph that is checked for cycles. -/
def parentsOf (edges : List (String × String)) (key : String) : List String :=
  (edges.filter (·.1 = key)).map (·.2)

@[simp] theorem mem_parentsOf {edges : List (String × String)} {key parent : String} :
    parent ∈ parentsOf edges key ↔ (key, parent) ∈ edges := by
  simp [parentsOf]

/-- The actions that edges name. -/
def endpoints (edges : List (String × String)) : List String :=
  (edges.flatMap fun e ↦ [e.1, e.2]).dedup

theorem mem_endpoints {edges : List (String × String)} {key : String} :
    key ∈ endpoints edges ↔ ∃ e ∈ edges, key = e.1 ∨ key = e.2 := by
  simp [endpoints]

/-- The check `graphlib.TopologicalSorter(graph).prepare()` passes exactly on edges without a
cycle. -/
theorem staticOrder_parentsOf_isSome_iff (edges : List (String × String)) :
    (staticOrder (parentsOf edges) (endpoints edges)).isSome ↔ Acyclic (DependsOn edges) := by
  have hclosed : ∀ key, ∀ parent ∈ parentsOf edges key,
      key ∈ endpoints edges ∧ parent ∈ endpoints edges := by
    intro key parent hparent
    have hedge := mem_parentsOf.mp hparent
    exact ⟨mem_endpoints.mpr ⟨_, hedge, Or.inl rfl⟩, mem_endpoints.mpr ⟨_, hedge, Or.inr rfl⟩⟩
  rw [staticOrder_isSome_iff hclosed]
  constructor
  · exact fun hacyclic ↦ hacyclic.swap.mono fun _ _ hedge ↦ mem_parentsOf.mpr hedge
  · exact fun hacyclic ↦ hacyclic.swap.mono fun _ _ hparent ↦ mem_parentsOf.mp hparent

/-- Whether an edge joins two distinct actions of the batch. -/
def joins (keys : List String) (e : String × String) : Bool :=
  decide (e.1 ∈ keys) && decide (e.2 ∈ keys) && decide (e.1 ≠ e.2)

/-- The checks of the edges once every line was read. -/
def checkEdges (parsed : Parsed) : Except FormatError Batch :=
  match hfind : parsed.edges.find? (!joins (parsed.actions.map (·.inputKey)) ·) with
  | some (inputKey, parent) => .error (.edge inputKey parent)
  | none =>
    if hnodup : parsed.edges.Nodup then
      if horder : (staticOrder (parentsOf parsed.edges) (endpoints parsed.edges)).isSome then
        .ok {
          actions := parsed.actions
          edges := parsed.edges
          keys_nodup := parsed.keys_nodup
          edges_mem := fun e he ↦ by
            have hjoins := List.find?_eq_none.mp hfind e he
            simp only [joins, Bool.not_eq_true, Bool.not_eq_false', Bool.and_eq_true,
              decide_eq_true_eq] at hjoins
            exact hjoins.1
          edges_nodup := hnodup
          acyclic := (staticOrder_parentsOf_isSome_iff _).mp horder }
      else .error (.cycle parsed.edges)
    else .error .duplicateEdge

/-- `parse_batch`. -/
def parseBatch (text : String) : Except FormatError Batch :=
  match splitlines text with
  | [] => .error (.header "")
  | header :: lines =>
    if header = "holbuild-action-batch-v1" then
      match lines.foldlM parseLine Parsed.empty with
      | .error error => .error error
      | .ok parsed => checkEdges parsed
    else .error (.header header)

/-! ### The result record -/

/-- The failure classes, `FAILURES`. -/
inductive Failure
  | proof | tacticTimeout | memory | inputMissing | publish | toolchain | disk | specRejected
  | internal | script | timeout | unavailable
deriving DecidableEq

/-- A failure class as the record spells it. -/
def Failure.text : Failure → String
  | .proof => "proof"
  | .tacticTimeout => "tactic-timeout"
  | .memory => "memory"
  | .inputMissing => "input-missing"
  | .publish => "publish"
  | .toolchain => "toolchain"
  | .disk => "disk"
  | .specRejected => "spec-rejected"
  | .internal => "internal"
  | .script => "script"
  | .timeout => "timeout"
  | .unavailable => "unavailable"

/-- What an input-missing result says is missing. -/
inductive MissingKind
  | theory | blob
deriving DecidableEq

/-- The kind as the record spells it. -/
def MissingKind.text : MissingKind → String
  | .theory => "theory"
  | .blob => "blob"

/-- The input a result reports missing. -/
structure Missing where
  kind : MissingKind
  key : String
deriving DecidableEq

/-- How an action ended on its worker. -/
inductive Status
  | built | cached | failed
deriving DecidableEq

/-- A result record as `parse_result` returns it. -/
structure Result where
  specSha256 : String
  inputKey : Option String
  status : Status
  failure : Option Failure
  missing : Option Missing
  peakRssMb : Option ℕ
  logSha256 : Option String
  failure_isSome_iff : failure.isSome ↔ status = .failed

/-- A failed record names its failure. -/
theorem Result.exists_failure {result : Result} (hfailed : result.status = .failed) :
    ∃ failure, result.failure = some failure :=
  Option.isSome_iff_exists.mp (result.failure_isSome_iff.mpr hfailed)

end Holbuild.RemoteExec
