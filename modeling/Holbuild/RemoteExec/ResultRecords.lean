import Holbuild.RemoteExec.Formats
import Holbuild.Library.Fields
import Holbuild.Library.Outcomes

/-!
# Reading result records

`formats.py`, `parse_result`. A record is a header and lines `name=value`, of which the last of a name
counts. `parseResult` reads one as a `Result`. It returns no other keys than SHA-256s
(`sha256_of_parseResult`), and it reads the lines that `fieldLine` writes as the fields they were
written from (`resultFields_fieldLines`).

Scope. Of the digits that `str.isdigit` accepts only those of ASCII are read, and a number has no
greatest length.
-/

set_option autoImplicit false
set_option relaxedAutoImplicit false

namespace Holbuild.RemoteExec

open Library

/-- The ways a record is refused. -/
inductive RecordError
  | header (found : Text)
  | line (line : Text)
  | status (found : Option Text)
  | failure (status : Text) (found : Option Text)
  | missing (found : Text)
  | bad (what value : Text)
deriving DecidableEq

abbrev Parsing := Except RecordError

/-! ### Fields -/

/-- `line.partition("=")`, or nothing if the line has no equals sign. -/
def partitionEq (line : Text) : Option (Text × Text) :=
  match line.span (· ≠ '=') with
  | (_, []) => none
  | (name, _ :: value) => some (name, value)

/-- Reads one line after the header, the fields being held the last first. -/
def resultLine (fields : List (Text × Text)) (line : Text) : Parsing (List (Text × Text)) :=
  if line = [] then .ok fields
  else
    match partitionEq line with
    | none => .error (.line line)
    | some pair => .ok (pair :: fields)

/-- The fields of the lines after the header, the last first. -/
def resultFields (lines : List Text) : Parsing (List (Text × Text)) := lines.foldlM resultLine []

/-- `fields.get(name)`. -/
def getField (fields : List (Text × Text)) (name : Text) : Option Text :=
  (fields.find? fun field ↦ field.1 = name).map Prod.snd

/-! ### Values -/

/-- `_expect(SHA256, value, what)`. -/
def expectSha256 (what value : Text) : Parsing String :=
  if isSha256 (String.ofList value) then .ok (String.ofList value) else .error (.bad what value)

def statuses : List Status := [.built, .cached, .failed]

/-- A status as the record spells it. -/
def Status.text : Status → String
  | .built => "built"
  | .cached => "cached"
  | .failed => "failed"

def FAILURES : List Failure :=
  [.proof, .tacticTimeout, .memory, .inputMissing, .publish, .toolchain, .disk, .specRejected,
    .internal, .script, .timeout, .unavailable]

/-- The status that a record gives. -/
def readStatus (found : Option Text) : Parsing Status :=
  match statuses.find? fun status ↦ found = some status.text.toList with
  | some status => .ok status
  | none => .error (.status found)

/-- A failure, with the fact that a record names one exactly when its status is a failure. -/
abbrev FailureOf (status : Status) := {failure : Option Failure // failure.isSome ↔ status = .failed}

/-- The failure class that a record of this status gives. -/
def readFailure (status : Status) (found : Option Text) : Parsing (FailureOf status) :=
  match found with
  | none =>
    if h : status = .failed then .error (.failure status.text.toList none)
    else .ok ⟨none, iff_of_false (by simp) h⟩
  | some text =>
    match FAILURES.find? fun failure ↦ failure.text.toList = text with
    | none => .error (.failure status.text.toList (some text))
    | some failure =>
      if h : status = .failed then .ok ⟨some failure, iff_of_true rfl h⟩
      else .error (.failure status.text.toList (some text))

/-- The input that a record says is missing. -/
def readMissing (found : Option Text) : Parsing (Option Missing) :=
  match found with
  | none => .ok none
  | some text =>
    match text.splitOn ' ' with
    | [kind, key] =>
      if kind = "theory".toList then do
        let key ← expectSha256 "missing theory".toList key
        .ok (some ⟨.theory, key⟩)
      else if kind = "blob".toList then do
        let key ← expectSha256 "missing blob".toList key
        .ok (some ⟨.blob, key⟩)
      else .error (.missing text)
    | _ => .error (.missing text)

/-- The peak memory that a record gives. -/
def readPeak (found : Option Text) : Parsing (Option ℕ) :=
  match found with
  | none => .ok none
  | some text =>
    if text ≠ [] ∧ text.all Char.isDigit = true then .ok (some (Nat.ofDigitChars 10 text 0))
    else .error (.bad "peak-rss-mb".toList text)

/-- A SHA-256 that a record may leave out or leave empty. -/
def readOptional (what : Text) (found : Option Text) (select : Text → Text) :
    Parsing (Option String) :=
  match found with
  | none => .ok none
  | some [] => .ok none
  | some (c :: rest) => (expectSha256 what (select (c :: rest))).map some

def resultHeader : Text := "holbuild-action-result-v1".toList

/-- What a record's fields say. -/
def parseFields (fields : List (Text × Text)) : Parsing Result := do
  let status ← readStatus (getField fields "status".toList)
  let failure ← readFailure status (getField fields "failure".toList)
  let missing ← readMissing (getField fields "missing".toList)
  let peak ← readPeak (getField fields "peak-rss-mb".toList)
  let spec ← expectSha256 "spec".toList ((getField fields "spec".toList).getD [])
  let key ← readOptional "input-key".toList (getField fields "input-key".toList) id
  let log ← readOptional "log".toList (getField fields "log".toList) fun text ↦
    text.takeWhile (· ≠ ' ')
  .ok ⟨spec, key, status, failure.1, missing, peak, log, failure.2⟩

/-- `parse_result`. -/
def parseResult (text : Text) : Parsing Result :=
  match (splitlinesFrom [] text).map String.toList with
  | [] => .error (.header [])
  | header :: lines =>
    if header = resultHeader then resultFields lines >>= parseFields else .error (.header header)

/-! ### What an accepted record has -/

theorem expectSha256_eq_ok_iff {what value : Text} {key : String} :
    expectSha256 what value = .ok key ↔ key = String.ofList value ∧ isSha256 key = true := by
  rw [expectSha256]
  constructor
  · intro h
    split at h
    · next hsha => exact Except.ok.inj h ▸ ⟨rfl, hsha⟩
    · exact absurd h nofun
  · rintro ⟨rfl, hsha⟩
    rw [if_pos hsha]

theorem sha256_of_readMissing {found : Option Text} {missing : Missing}
    (h : readMissing found = .ok (some missing)) : isSha256 missing.key = true := by
  unfold readMissing at h
  split at h
  · exact absurd h nofun
  · split at h
    · split_ifs at h
      all_goals
        obtain ⟨key, hkey, h⟩ := bind_eq_ok_iff.mp h
        obtain rfl := Option.some.inj (Except.ok.inj h)
        exact (expectSha256_eq_ok_iff.mp hkey).2
    · exact absurd h nofun

theorem sha256_of_readOptional {what : Text} {found : Option Text} {select : Text → Text}
    {key : String} (h : readOptional what found select = .ok (some key)) : isSha256 key = true := by
  unfold readOptional at h
  split at h
  · exact absurd h nofun
  · exact absurd h nofun
  · next c rest =>
    cases hexpect : expectSha256 what (select (c :: rest)) with
    | error e =>
      rw [hexpect] at h
      exact absurd h nofun
    | ok found =>
      rw [hexpect] at h
      obtain rfl := Option.some.inj (Except.ok.inj h)
      exact (expectSha256_eq_ok_iff.mp hexpect).2

/-- The keys of an accepted record are SHA-256s. -/
structure Keyed (result : Result) : Prop where
  spec : isSha256 result.specSha256 = true
  inputKey : ∀ key, result.inputKey = some key → isSha256 key = true
  missing : ∀ missing, result.missing = some missing → isSha256 missing.key = true
  log : ∀ sha, result.logSha256 = some sha → isSha256 sha = true

theorem keyed_of_parseResult {text : Text} {result : Result} (h : parseResult text = .ok result) :
    Keyed result := by
  rw [parseResult] at h
  split at h
  · exact absurd h nofun
  split at h
  · obtain ⟨fields, -, h⟩ := bind_eq_ok_iff.mp h
    rw [parseFields] at h
    obtain ⟨status, -, h⟩ := bind_eq_ok_iff.mp h
    obtain ⟨failure, -, h⟩ := bind_eq_ok_iff.mp h
    obtain ⟨missing, hmissing, h⟩ := bind_eq_ok_iff.mp h
    obtain ⟨peak, -, h⟩ := bind_eq_ok_iff.mp h
    obtain ⟨spec, hspec, h⟩ := bind_eq_ok_iff.mp h
    obtain ⟨key, hkey, h⟩ := bind_eq_ok_iff.mp h
    obtain ⟨log, hlog, h⟩ := bind_eq_ok_iff.mp h
    obtain rfl := Except.ok.inj h
    constructor
    · exact (expectSha256_eq_ok_iff.mp hspec).2
    · rintro key rfl
      exact sha256_of_readOptional hkey
    · rintro missing rfl
      exact sha256_of_readMissing hmissing
    · rintro sha rfl
      exact sha256_of_readOptional hlog
  · exact absurd h nofun

/-! ### Written records -/

/-- A field as a line of a record. -/
def fieldLine (field : Text × Text) : Text := field.1 ++ '=' :: field.2

theorem partitionEq_fieldLine {field : Text × Text} (hname : '=' ∉ field.1) :
    partitionEq (fieldLine field) = some field := by
  obtain ⟨name, value⟩ := field
  have hspan : (name ++ '=' :: value).span (· ≠ '=') = (name, '=' :: value) := by
    have hall : ∀ c ∈ name, decide (c ≠ '=') = true := by
      intro c hc
      exact decide_eq_true fun heq ↦ hname (heq ▸ hc)
    rw [List.span_eq_takeWhile_dropWhile, List.takeWhile_append_of_pos hall,
      List.dropWhile_append_of_pos hall]
    simp
  show (match (name ++ '=' :: value).span (· ≠ '=') with
    | (_, []) => none
    | (name, _ :: value) => some (name, value)) = some (name, value)
  rw [hspan]

/-- Assumes: names without an equals sign. The lines of fields are read as the fields, the last
first. -/
theorem resultFields_fieldLines {fields : List (Text × Text)}
    (hnames : ∀ field ∈ fields, '=' ∉ field.1) :
    resultFields (fields.map fieldLine) = .ok fields.reverse := by
  have hstep : ∀ read : List (Text × Text),
      (fields.map fieldLine).foldlM resultLine read = .ok (fields.reverse ++ read) := by
    induction fields with
    | nil => exact fun read ↦ rfl
    | cons field rest ih =>
      intro read
      obtain ⟨hfield, hrest⟩ := List.forall_mem_cons.mp hnames
      have hline : resultLine read (fieldLine field) = .ok (field :: read) := by
        rw [resultLine, if_neg, partitionEq_fieldLine hfield]
        exact List.append_ne_nil_of_right_ne_nil _ (List.cons_ne_nil _ _)
      rw [List.map_cons, List.foldlM_cons, hline]
      show (rest.map fieldLine).foldlM resultLine (field :: read) = _
      rw [ih hrest, List.reverse_cons, List.append_assoc, List.singleton_append]
  rw [resultFields, hstep, List.append_nil]

/-- A line that holds no line break is read as one line. -/
theorem splitlinesFrom_line {line : Text} (hline : ∀ c ∈ line, isLineBreak c = false) (rest : Text) :
    ∀ read : Text, splitlinesFrom read (line ++ '\n' :: rest) =
      String.ofList (read.reverse ++ line) :: splitlinesFrom [] rest := by
  induction line with
  | nil =>
    intro read
    rw [List.nil_append, List.append_nil, splitlinesFrom]
    · rw [if_pos (by decide)]
    · exact fun _ h ↦ absurd h (by decide)
  | cons c line ih =>
    intro read
    obtain ⟨hc, hrest⟩ := List.forall_mem_cons.mp hline
    have hreturn : c ≠ '\r' := fun heq ↦ absurd (heq ▸ hc) (by decide)
    rw [List.cons_append, splitlinesFrom]
    · rw [if_neg (by rw [hc]; exact Bool.false_ne_true), ih hrest, List.reverse_cons,
        List.append_assoc, List.singleton_append]
    · exact fun _ h ↦ absurd h hreturn

/-- Lines that hold no line breaks are read back. -/
theorem splitlinesFrom_terminated {lines : List Text}
    (hlines : ∀ line ∈ lines, ∀ c ∈ line, isLineBreak c = false) :
    (splitlinesFrom [] (terminated lines)).map String.toList = lines := by
  induction lines with
  | nil => rfl
  | cons line lines ih =>
    obtain ⟨hline, hrest⟩ := List.forall_mem_cons.mp hlines
    rw [terminated_cons, splitlinesFrom_line hline,
      List.map_cons, ih hrest, List.reverse_nil, List.nil_append, String.toList_ofList]

end Holbuild.RemoteExec
