import Holbuild.ExecAction.Attempts
import Holbuild.RemoteExec.ResultRecords

/-!
# Result records

`build_exec.sml`, `exec_action` and `result_text`. A worker writes a record of an action's outcome, which
the coordinator reads with `parse_result`. The coordinator understands it (`Understood`) exactly when no
key or hash in it is other than a SHA-256 and no peak memory is negative (`Recordable`,
`understood_iff`). The record names the key of a spec before the spec is verified, so a spec that is
read and then rejected may break this.

Scope. An action that ends without a record (its lock or the record's file fails) is not covered.
-/

set_option autoImplicit false
set_option relaxedAutoImplicit false

namespace Holbuild.ExecAction

open Library

/-! ### Records -/

section Records

variable (worker : Worker) (answers : Answers)

/-- The peak memory in megabytes, from the report of a build. -/
def peakRssMb (report : Option Text) : Option ℤ :=
  match report.map (tokens isSmlSpace) with
  | some [name, kb, unit] =>
    if name = "VmHWM:".toList ∧ unit = "kB".toList then (intFromString kb).map fun n ↦ n / 1024
    else none
  | _ => none

/-- What a record says of an action besides its spec and its key. -/
structure Report where
  status : RemoteExec.Status
  failure : Option ActionFailure
  wallMs : ℤ
  peak : Option ℤ
  log : Option (Text × Text)

/-- The text of a record. -/
def resultText (specSha256 inputKey : Text) (report : Report) : Text :=
  concatWith ['\n']
    ([RemoteExec.resultHeader,
      "spec=".toList ++ specSha256,
      "input-key=".toList ++ inputKey,
      "status=".toList ++ report.status.text.toList] ++
    (match report.failure with
      | none => []
      | some kind => ("failure=".toList ++ failureName kind) ::
        (match kind with
          | .inputMissing missing => ["missing=".toList ++ missing]
          | _ => [])) ++
    (match report.peak with
      | some mb => ["peak-rss-mb=".toList ++ intToString mb]
      | none => []) ++
    ["wall-ms=".toList ++ intToString report.wallMs] ++
    (match report.log with
      | some (sha, bytes) => ["log=".toList ++ sha ++ ' ' :: bytes]
      | none => [])) ++ ['\n']

/-- The failures that nothing retries. -/
def finalFailures : List ActionFailure := [.proof, .tacticTimeout, .script, .timeout]

/-- A final failure whose log could not be uploaded is a failure to publish. -/
def settledFailure (failure : ActionFailure) : ActionFailure :=
  if answers.log.isNone ∧ failure ∈ finalFailures ∧ answers.logExists = true then .publish else failure

/-- The uploaded log's hash and size. -/
def uploadedLog : Option (Text × Text) :=
  answers.log.map fun (content, size) ↦ (worker.hashText content, decimal size)

/-- The peak memory of a theory's build. -/
def measuredPeak : Option ℤ :=
  if isRunSpec answers.specText then none else peakRssMb answers.report

/-- What `exec_action` reports. -/
def reportOf : Report :=
  match attempt worker answers with
  | .ok status =>
    ⟨status, none, answers.wallMs, if status = .built then measuredPeak answers else none,
      uploadedLog worker answers⟩
  | .error failure =>
    ⟨.failed, some (settledFailure answers failure), answers.wallMs, none, uploadedLog worker answers⟩

/-- The record that `exec_action` writes for a spec. -/
def execAction (specSha256 : Text) : Text :=
  resultText specSha256 ((readKey worker answers).getD []) (reportOf worker answers)

end Records

/-! ### Reading a record -/

section Reading

open RemoteExec (fieldLine getField parseFields parseResult Result isSha256 splitlinesFrom)

/-- How a record gets from the worker to the coordinator: what its bytes are read as, if they can be
read, printable text being read as it is. -/
structure Delivery where
  read : Text → Option Text
  read_plain : ∀ text, (∀ c ∈ text, c = '\n' ∨ isPrintable c = true) → read text = some text

/-- A missing input as a record writes it. -/
def missingText (missing : RemoteExec.Missing) : Text :=
  missing.kind.text.toList ++ ' ' :: missing.key.toList

/-- A result says what was reported. -/
structure Reports (result : Result) (specSha256 : Text) (key : Option Text) (report : Report) :
    Prop where
  spec : result.specSha256.toList = specSha256
  inputKey : result.inputKey.map String.toList = key
  status : result.status = report.status
  failure : result.failure.map (fun failure ↦ failure.text.toList) = report.failure.map failureName
  missing : result.missing.map missingText = report.failure.bind ActionFailure.missing
  peak : result.peakRssMb.map Int.ofNat = report.peak
  log : result.logSha256.map String.toList = report.log.map Prod.fst

/-- The coordinator accepts the record of an action and reads in it what was reported. -/
def Understood (worker : Worker) (delivery : Delivery) (answers : Answers) (specSha256 : Text) :
    Prop :=
  ∃ text result, delivery.read (execAction worker answers specSha256) = some text ∧
    parseResult text = .ok result ∧
    Reports result specSha256 (readKey worker answers) (reportOf worker answers)

/-- What the worker was handed, and what it measured, can be recorded. -/
structure Recordable (worker : Worker) (answers : Answers) (specSha256 : Text) : Prop where
  spec : sha256Text specSha256 = true
  key : ∀ key, readKey worker answers = some key → sha256Text key = true
  missing : ∀ hash, MissesBlob worker answers hash → sha256Text hash = true
  peak : Builds worker answers → ∀ mb, peakRssMb answers.report = some mb → 0 ≤ mb

/-! #### SHA-256s -/

theorem isSha256_ofList (text : Text) : isSha256 (String.ofList text) = sha256Text text := by
  rw [isSha256, sha256Text, String.toList_ofList, beq_eq_decide]
  rfl

theorem sha256Text_of_isSha256 {value : String} (h : isSha256 value = true) :
    sha256Text value.toList = true := by
  rw [← isSha256_ofList, String.ofList_toList]
  exact h

/-- A SHA-256 has printable characters only, and no space. -/
theorem printable_of_sha256Text {text : Text} (h : sha256Text text = true) {c : Char} (hc : c ∈ text) :
    isPrintable c = true ∧ c ≠ ' ' := by
  rw [sha256Text, Bool.and_eq_true] at h
  have hchar := List.all_eq_true.mp h.2 c hc
  rw [Bool.or_eq_true, Char.isDigit, Bool.and_eq_true, Bool.and_eq_true, decide_eq_true_eq,
    decide_eq_true_eq, decide_eq_true_eq, decide_eq_true_eq] at hchar
  have hbounds : 48 ≤ c.toNat ∧ c.toNat ≤ 102 := by
    rcases hchar with ⟨hlow, hhigh⟩ | ⟨hlow, hhigh⟩
    · have hlow' := UInt32.le_iff_toNat_le.mp hlow
      have hhigh' := UInt32.le_iff_toNat_le.mp hhigh
      change 48 ≤ c.toNat at hlow'
      change c.toNat ≤ 57 at hhigh'
      omega
    · have hlow' := UInt32.le_iff_toNat_le.mp hlow
      have hhigh' := UInt32.le_iff_toNat_le.mp hhigh
      change 97 ≤ c.toNat at hlow'
      change c.toNat ≤ 102 at hhigh'
      omega
  constructor
  · rw [isPrintable, Bool.and_eq_true, decide_eq_true_eq, decide_eq_true_eq]
    omega
  · rintro rfl
    exact absurd hbounds.1 (by decide)

theorem ne_nil_of_sha256Text {text : Text} (h : sha256Text text = true) : text ≠ [] := by
  rintro rfl
  exact absurd h (by decide)

/-! #### The fields of a record -/

/-- The fields of a record, those it leaves out included. -/
def recordFields (specSha256 inputKey : Text) (report : Report) : List (Text × Option Text) :=
  [("spec".toList, some specSha256), ("input-key".toList, some inputKey),
    ("status".toList, some report.status.text.toList),
    ("failure".toList, report.failure.map failureName),
    ("missing".toList, report.failure.bind ActionFailure.missing),
    ("peak-rss-mb".toList, report.peak.map intToString),
    ("wall-ms".toList, some (intToString report.wallMs)),
    ("log".toList, report.log.map fun (sha, bytes) ↦ sha ++ ' ' :: bytes)]

/-- The fields that are written. -/
def written (fields : List (Text × Option Text)) : List (Text × Text) :=
  fields.filterMap fun field ↦ field.2.map fun text ↦ (field.1, text)

theorem mem_written {fields : List (Text × Option Text)} {name text : Text} :
    (name, text) ∈ written fields ↔ (name, some text) ∈ fields := by
  rw [written, List.mem_filterMap]
  constructor
  · rintro ⟨⟨name', found⟩, hmem, hfield⟩
    obtain ⟨text', rfl, heq⟩ := Option.map_eq_some_iff.mp hfield
    obtain ⟨rfl, rfl⟩ := Prod.mk.inj heq
    exact hmem
  · exact fun hmem ↦ ⟨_, hmem, rfl⟩

/-- Assumes: distinct names. A written field is found whichever field comes last, and one that is left
out is not. -/
theorem getField_written {fields : List (Text × Option Text)} (hnodup : (fields.map Prod.fst).Nodup)
    {name : Text} {found : Option Text} (hmem : (name, found) ∈ fields) :
    getField (written fields).reverse name = found := by
  have hunique : ∀ {found' : Option Text}, (name, found') ∈ fields → found' = found := by
    intro found' hmem'
    exact (Prod.mk.inj (List.inj_on_of_nodup_map hnodup hmem' hmem rfl)).2
  cases hfind : (written fields).reverse.find? fun field ↦ field.1 = name with
  | none =>
    rw [getField, hfind]
    cases found with
    | none => rfl
    | some text =>
      have hmem' := List.mem_reverse.mpr (mem_written.mpr hmem)
      exact absurd (decide_eq_true rfl) (List.find?_eq_none.mp hfind _ hmem')
  | some field =>
    obtain ⟨name', text⟩ := field
    have hname := List.find?_some hfind
    obtain rfl : name' = name := of_decide_eq_true hname
    rw [getField, hfind]
    exact hunique (mem_written.mp (List.mem_reverse.mp (List.mem_of_find?_eq_some hfind)))

theorem resultText_eq_terminated (specSha256 inputKey : Text) (report : Report) :
    resultText specSha256 inputKey report =
      terminated (RemoteExec.resultHeader ::
        (written (recordFields specSha256 inputKey report)).map fieldLine) := by
  obtain ⟨status, failure, wallMs, peak, log⟩ := report
  rw [resultText, concatWith_newline]
  · refine congrArg terminated ?_
    cases failure with
    | none => cases peak <;> cases log <;> rfl
    | some kind => cases kind <;> cases peak <;> cases log <;> rfl
  · exact List.append_ne_nil_of_left_ne_nil (List.append_ne_nil_of_left_ne_nil
      (List.append_ne_nil_of_left_ne_nil (List.append_ne_nil_of_left_ne_nil (List.cons_ne_nil _ _) _)
        _) _) _

/-! #### What is written -/

section Written

variable {specSha256 inputKey : Text} {report : Report}

/-- What a record's values must be to be understood. -/
structure Sound (specSha256 inputKey : Text) (report : Report) : Prop where
  spec : sha256Text specSha256 = true
  key : inputKey = [] ∨ sha256Text inputKey = true
  failure : report.failure.isSome ↔ report.status = .failed
  missing : ∀ missing, report.failure.bind ActionFailure.missing = some missing →
    ∃ (kind : RemoteExec.MissingKind) (hash : Text),
      missing = kind.text.toList ++ ' ' :: hash ∧ sha256Text hash = true
  peak : ∀ mb, report.peak = some mb → 0 ≤ mb
  log : ∀ sha bytes, report.log = some (sha, bytes) → sha256Text sha = true ∧
    ∀ c ∈ bytes, isPrintable c = true

/-- The names of a record's fields. -/
def recordNames : List Text :=
  ["spec".toList, "input-key".toList, "status".toList, "failure".toList, "missing".toList,
    "peak-rss-mb".toList, "wall-ms".toList, "log".toList]

theorem fst_recordFields :
    (recordFields specSha256 inputKey report).map Prod.fst = recordNames := rfl

theorem nodup_recordNames : recordNames.Nodup := by decide

theorem plain_of_mem_recordNames {name : Text} (hname : name ∈ recordNames) :
    '=' ∉ name ∧ ∀ c ∈ name, isPrintable c = true := by
  have hall : recordNames.all (fun name ↦ name.all fun c ↦ isPrintable c && decide (c ≠ '=')) = true := by
    decide
  have hchars := List.all_eq_true.mp (List.all_eq_true.mp hall name hname)
  constructor
  · intro hmem
    exact absurd (hchars '=' hmem) (by decide)
  · intro c hc
    exact (Bool.and_eq_true_iff.mp (hchars c hc)).1

theorem printable_failureName (failure : ActionFailure) :
    ∀ c ∈ failureName failure, isPrintable c = true := by
  refine List.all_eq_true.mp ?_
  cases failure <;> rfl

theorem printable_status (status : RemoteExec.Status) :
    ∀ c ∈ status.text.toList, isPrintable c = true := by
  refine List.all_eq_true.mp ?_
  cases status <;> decide

theorem printable_missing {kind : RemoteExec.MissingKind} {hash : Text} (h : sha256Text hash = true) :
    ∀ c ∈ kind.text.toList ++ ' ' :: hash, isPrintable c = true := by
  intro c hc
  rcases List.mem_append.mp hc with hc | hc
  · have hall : kind.text.toList.all isPrintable = true := by cases kind <;> decide
    exact List.all_eq_true.mp hall c hc
  · rcases List.mem_cons.mp hc with rfl | hc
    · decide
    · exact (printable_of_sha256Text h hc).1

/-- Every field of a sound record is printable. -/
theorem printable_of_mem_recordFields (h : Sound specSha256 inputKey report) {name text : Text}
    (hfield : (name, some text) ∈ recordFields specSha256 inputKey report) :
    ∀ c ∈ text, isPrintable c = true := by
  simp only [recordFields, List.mem_cons, List.not_mem_nil, or_false, Prod.mk.injEq,
    Option.some.injEq] at hfield
  rcases hfield with ⟨-, rfl⟩ | ⟨-, rfl⟩ | ⟨-, rfl⟩ | ⟨-, hfound⟩ | ⟨-, hfound⟩ | ⟨-, hfound⟩ |
    ⟨-, rfl⟩ | ⟨-, hfound⟩
  · exact fun c hc ↦ (printable_of_sha256Text h.spec hc).1
  · rcases h.key with rfl | hkey
    · exact fun c hc ↦ absurd hc List.not_mem_nil
    · exact fun c hc ↦ (printable_of_sha256Text hkey hc).1
  · exact printable_status _
  · obtain ⟨failure, -, rfl⟩ := Option.map_eq_some_iff.mp hfound.symm
    exact printable_failureName failure
  · obtain ⟨kind, hash, rfl, hhash⟩ := h.missing text hfound.symm
    exact printable_missing hhash
  · obtain ⟨mb, -, rfl⟩ := Option.map_eq_some_iff.mp hfound.symm
    exact fun c hc ↦ printable_of_mem_intToString hc
  · exact fun c hc ↦ printable_of_mem_intToString hc
  · obtain ⟨⟨sha, bytes⟩, hlog, rfl⟩ := Option.map_eq_some_iff.mp hfound.symm
    obtain ⟨hsha, hbytes⟩ := h.log sha bytes hlog
    intro c hc
    rcases List.mem_append.mp hc with hc | hc
    · exact (printable_of_sha256Text hsha hc).1
    · rcases List.mem_cons.mp hc with rfl | hc
      · decide
      · exact hbytes c hc

/-- Every line of a sound record is printable. -/
theorem printable_of_mem_lines (h : Sound specSha256 inputKey report) :
    ∀ line ∈ RemoteExec.resultHeader ::
      (written (recordFields specSha256 inputKey report)).map fieldLine,
      ∀ c ∈ line, isPrintable c = true := by
  intro line hline
  rcases List.mem_cons.mp hline with rfl | hline
  · exact List.all_eq_true.mp (by decide)
  · obtain ⟨⟨name, text⟩, hfield, rfl⟩ := List.mem_map.mp hline
    have hmem := mem_written.mp hfield
    have hname := List.mem_map_of_mem (f := Prod.fst) hmem
    rw [fst_recordFields] at hname
    intro c hc
    rcases List.mem_append.mp hc with hc | hc
    · exact (plain_of_mem_recordNames hname).2 c hc
    · rcases List.mem_cons.mp hc with rfl | hc
      · decide
      · exact printable_of_mem_recordFields h hmem c hc

theorem not_isLineBreak_of_isPrintable {c : Char} (hc : isPrintable c = true) :
    RemoteExec.isLineBreak c = false := by
  rw [isPrintable, Bool.and_eq_true, decide_eq_true_eq, decide_eq_true_eq] at hc
  rw [RemoteExec.isLineBreak, List.contains_eq_mem, decide_eq_false_iff_not]
  simp only [List.mem_cons, List.not_mem_nil, or_false]
  omega

/-- A sound record's text is read as it is. -/
theorem read_resultText (delivery : Delivery) (h : Sound specSha256 inputKey report) :
    delivery.read (resultText specSha256 inputKey report) =
      some (resultText specSha256 inputKey report) := by
  refine delivery.read_plain _ fun c hc ↦ ?_
  rw [resultText_eq_terminated, terminated, List.mem_flatMap] at hc
  obtain ⟨line, hline, hc⟩ := hc
  rcases List.mem_append.mp hc with hc | hc
  · exact .inr (printable_of_mem_lines h line hline c hc)
  · exact .inl (List.mem_singleton.mp hc)

/-- A sound record is parsed by its fields. -/
theorem parseResult_resultText (h : Sound specSha256 inputKey report) :
    parseResult (resultText specSha256 inputKey report) =
      parseFields (written (recordFields specSha256 inputKey report)).reverse := by
  have hlines := RemoteExec.splitlinesFrom_terminated fun line hline c hc ↦
    not_isLineBreak_of_isPrintable (printable_of_mem_lines h line hline c hc)
  rw [parseResult, resultText_eq_terminated, hlines]
  show (if RemoteExec.resultHeader = RemoteExec.resultHeader then _ else _) = _
  rw [if_pos rfl, RemoteExec.resultFields_fieldLines]
  · rfl
  · rintro ⟨name, text⟩ hfield
    have hname := List.mem_map_of_mem (f := Prod.fst) (mem_written.mp hfield)
    rw [fst_recordFields] at hname
    exact (plain_of_mem_recordNames hname).1

/-- The fields that the parser looks up in a record, by their names. -/
structure ReadFields (fields : List (Text × Text)) (specSha256 inputKey : Text) (report : Report) :
    Prop where
  spec : getField fields "spec".toList = some specSha256
  key : getField fields "input-key".toList = some inputKey
  status : getField fields "status".toList = some report.status.text.toList
  failure : getField fields "failure".toList = report.failure.map failureName
  missing : getField fields "missing".toList = report.failure.bind ActionFailure.missing
  peak : getField fields "peak-rss-mb".toList = report.peak.map intToString
  log : getField fields "log".toList = report.log.map fun (sha, bytes) ↦ sha ++ ' ' :: bytes

theorem readFields (specSha256 inputKey : Text) (report : Report) :
    ReadFields (written (recordFields specSha256 inputKey report)).reverse specSha256 inputKey
      report := by
  have hfield : ∀ {i : ℕ} {name : Text} {found : Option Text},
      (recordFields specSha256 inputKey report)[i]? = some (name, found) →
      getField (written (recordFields specSha256 inputKey report)).reverse name = found :=
    fun h ↦ getField_written (fst_recordFields ▸ nodup_recordNames) (List.mem_of_getElem? h)
  constructor
  · exact hfield (i := 0) rfl
  · exact hfield (i := 1) rfl
  · exact hfield (i := 2) rfl
  · exact hfield (i := 3) rfl
  · exact hfield (i := 4) rfl
  · exact hfield (i := 5) rfl
  · exact hfield (i := 7) rfl

/-! #### What is read -/

/-- The class that a failure is recorded as. -/
def recordedFailure : ActionFailure → RemoteExec.Failure
  | .proof => .proof
  | .tacticTimeout => .tacticTimeout
  | .memory => .memory
  | .inputMissing _ => .inputMissing
  | .publish => .publish
  | .toolchain => .toolchain
  | .disk => .disk
  | .specRejected => .specRejected
  | .internal => .internal
  | .script => .script
  | .timeout => .timeout

/-- Every failure's name is that of its class, and one of `FAILURES`. -/
theorem find_failureName (failure : ActionFailure) :
    (recordedFailure failure).text.toList = failureName failure ∧
      (RemoteExec.FAILURES.find? fun found ↦ found.text.toList = failureName failure) =
        some (recordedFailure failure) := by
  cases failure <;> exact ⟨rfl, rfl⟩

theorem readStatus_text (status : RemoteExec.Status) :
    RemoteExec.readStatus (some status.text.toList) = .ok status := by
  cases status <;> rfl

theorem readFailure_failureName {status : RemoteExec.Status} {failure : Option ActionFailure}
    (h : failure.isSome ↔ status = .failed) :
    ∃ found, RemoteExec.readFailure status (failure.map failureName) = .ok found ∧
      found.1.map (fun found ↦ found.text.toList) = failure.map failureName := by
  cases failure with
  | none =>
    have hstatus : status ≠ .failed := fun heq ↦ absurd (h.mpr heq) nofun
    refine ⟨⟨none, iff_of_false nofun hstatus⟩, ?_, rfl⟩
    rw [Option.map_none, RemoteExec.readFailure]
    exact dif_neg hstatus
  | some failure =>
    have hstatus : status = .failed := h.mp rfl
    obtain ⟨htext, hfind⟩ := find_failureName failure
    refine ⟨⟨some (recordedFailure failure), iff_of_true rfl hstatus⟩, ?_, congrArg some htext⟩
    unfold RemoteExec.readFailure
    simp only [Option.map_some, hfind]
    exact dif_pos hstatus

theorem readMissing_text {missing : Option Text} (h : ∀ text, missing = some text →
      ∃ (kind : RemoteExec.MissingKind) (hash : Text),
        text = kind.text.toList ++ ' ' :: hash ∧ sha256Text hash = true) :
    ∃ found, RemoteExec.readMissing missing = .ok found ∧ found.map missingText = missing := by
  cases missing with
  | none => exact ⟨none, rfl, rfl⟩
  | some text =>
    obtain ⟨kind, hash, rfl, hhash⟩ := h text rfl
    have hspace : ' ' ∉ hash := fun hmem ↦ (printable_of_sha256Text hhash hmem).2 rfl
    have hkind : ' ' ∉ kind.text.toList := by
      cases kind <;> decide
    have hsplit : (kind.text.toList ++ ' ' :: hash).splitOn ' ' = [kind.text.toList, hash] := by
      have hfields : ∀ field ∈ [kind.text.toList, hash], ' ' ∉ field :=
        List.forall_mem_cons.mpr ⟨hkind, List.forall_mem_singleton.mpr hspace⟩
      have hcut := splitOn_concatWith hfields (List.cons_ne_nil _ _)
      rw [concatWith_cons_cons] at hcut
      simpa [concatWith] using hcut
    have hexpect : ∀ what, RemoteExec.expectSha256 what hash = .ok (String.ofList hash) := fun what ↦
      RemoteExec.expectSha256_eq_ok_iff.mpr ⟨rfl, (isSha256_ofList hash).trans hhash⟩
    refine ⟨some ⟨kind, String.ofList hash⟩, ?_, ?_⟩
    · unfold RemoteExec.readMissing
      simp only [hsplit]
      cases kind with
      | theory =>
        have htheory : RemoteExec.MissingKind.theory.text.toList = "theory".toList := rfl
        rw [if_pos htheory, hexpect]
        rfl
      | blob =>
        have hblob : RemoteExec.MissingKind.blob.text.toList = "blob".toList := rfl
        rw [if_neg (by decide), if_pos hblob, hexpect]
        rfl
    · show some (kind.text.toList ++ ' ' :: (String.ofList hash).toList) = _
      rw [String.toList_ofList]

theorem readPeak_intToString {peak : Option ℤ} (h : ∀ mb, peak = some mb → 0 ≤ mb) :
    ∃ found, RemoteExec.readPeak (peak.map intToString) = .ok found ∧ found.map Int.ofNat = peak := by
  cases peak with
  | none => exact ⟨none, rfl, rfl⟩
  | some mb =>
    obtain ⟨n, rfl⟩ := Int.eq_ofNat_of_zero_le (h mb rfl)
    have hdigits : decimal n ≠ [] ∧ (decimal n).all Char.isDigit = true :=
      ⟨decimal_ne_nil n, List.all_eq_true.mpr fun _ hc ↦ isDigit_of_mem_decimal hc⟩
    refine ⟨some n, ?_, rfl⟩
    show (if decimal n ≠ [] ∧ (decimal n).all Char.isDigit = true then _ else _) = _
    rw [if_pos hdigits]
    exact congrArg (fun n ↦ Except.ok (some n)) Nat.ofDigitChars_ten_toDigits

theorem readOptional_sha256 {what text hash : Text} {select : Text → Text} (htext : text ≠ [])
    (hselect : select text = hash) (hhash : sha256Text hash = true) :
    RemoteExec.readOptional what (some text) select = .ok (some (String.ofList hash)) := by
  obtain ⟨c, rest, rfl⟩ := List.exists_cons_of_ne_nil htext
  have hexpect : RemoteExec.expectSha256 what hash = .ok (String.ofList hash) :=
    RemoteExec.expectSha256_eq_ok_iff.mpr ⟨rfl, (isSha256_ofList hash).trans hhash⟩
  show (RemoteExec.expectSha256 what (select (c :: rest))).map some = _
  rw [hselect, hexpect]
  rfl

/-- The key of a record, none if it is empty. -/
theorem readOptional_key {key : Option Text} (h : ∀ text, key = some text → sha256Text text = true) :
    ∃ found, RemoteExec.readOptional "input-key".toList (some (key.getD [])) id = .ok found ∧
      found.map String.toList = key := by
  cases key with
  | none => exact ⟨none, rfl, rfl⟩
  | some text =>
    refine ⟨some (String.ofList text), ?_, ?_⟩
    · exact readOptional_sha256 (ne_nil_of_sha256Text (h text rfl)) rfl (h text rfl)
    · rw [Option.map_some, String.toList_ofList]

theorem readOptional_log {log : Option (Text × Text)}
    (h : ∀ sha bytes, log = some (sha, bytes) → sha256Text sha = true) :
    ∃ found, RemoteExec.readOptional "log".toList (log.map fun (sha, bytes) ↦ sha ++ ' ' :: bytes)
        (fun text ↦ text.takeWhile (· ≠ ' ')) = .ok found ∧
      found.map String.toList = log.map Prod.fst := by
  cases log with
  | none => exact ⟨none, rfl, rfl⟩
  | some pair =>
    obtain ⟨sha, bytes⟩ := pair
    have hsha := h sha bytes rfl
    have htake : (sha ++ ' ' :: bytes).takeWhile (· ≠ ' ') = sha := by
      rw [List.takeWhile_append_of_pos fun c hc ↦ decide_eq_true (printable_of_sha256Text hsha hc).2,
        List.takeWhile_cons_of_neg (by simp), List.append_nil]
    refine ⟨some (String.ofList sha), ?_, ?_⟩
    · exact readOptional_sha256 (List.append_ne_nil_of_right_ne_nil _ (List.cons_ne_nil _ _)) htake hsha
    · rw [Option.map_some, String.toList_ofList]
      rfl

/-- A sound record is accepted and says what was reported. -/
theorem exists_result {key : Option Text} (h : Sound specSha256 (key.getD []) report)
    (hkey : ∀ text, key = some text → sha256Text text = true) :
    ∃ result, parseResult (resultText specSha256 (key.getD []) report) = .ok result ∧
      Reports result specSha256 key report := by
  obtain ⟨failure, hfailure, hname⟩ := readFailure_failureName h.failure
  obtain ⟨missing, hmissing, hmissingText⟩ := readMissing_text h.missing
  obtain ⟨peak, hpeak, hmb⟩ := readPeak_intToString h.peak
  obtain ⟨found, hfound, hkeyText⟩ := readOptional_key hkey
  obtain ⟨log, hlog, hsha⟩ := readOptional_log fun sha bytes hlog ↦ (h.log sha bytes hlog).1
  have hspec : RemoteExec.expectSha256 "spec".toList specSha256 = .ok (String.ofList specSha256) :=
    RemoteExec.expectSha256_eq_ok_iff.mpr ⟨rfl, (isSha256_ofList specSha256).trans h.spec⟩
  refine ⟨⟨String.ofList specSha256, found, report.status, failure.1, missing, peak, log, failure.2⟩,
    ?_, ?_⟩
  · have hfields := readFields specSha256 (key.getD []) report
    rw [parseResult_resultText h, parseFields]
    refine bind_eq_ok_iff.mpr ⟨report.status, ?_, ?_⟩
    · rw [hfields.status, readStatus_text]
    refine bind_eq_ok_iff.mpr ⟨failure, hfields.failure ▸ hfailure, ?_⟩
    refine bind_eq_ok_iff.mpr ⟨missing, hfields.missing ▸ hmissing, ?_⟩
    refine bind_eq_ok_iff.mpr ⟨peak, hfields.peak ▸ hpeak, ?_⟩
    refine bind_eq_ok_iff.mpr ⟨String.ofList specSha256, ?_, ?_⟩
    · rw [hfields.spec, Option.getD_some, hspec]
    refine bind_eq_ok_iff.mpr ⟨found, hfields.key ▸ hfound, ?_⟩
    exact bind_eq_ok_iff.mpr ⟨log, hfields.log ▸ hlog, rfl⟩
  · exact ⟨String.toList_ofList, hkeyText, rfl, hname, hmissingText, hmb, hsha⟩

end Written

/-! ### Understood records -/

section Understanding

variable {worker : Worker} {answers : Answers} {specSha256 : Text}

theorem missing_settledFailure (failure : ActionFailure) :
    (settledFailure answers failure).missing = failure.missing := by
  rw [settledFailure]
  split_ifs with h
  · have hall : ∀ failure ∈ finalFailures, failure.missing = none := by decide
    exact (hall failure h.2.1).symm
  · rfl

/-- An action that does not fail is built or restored. -/
theorem ne_failed_of_attempt {status : RemoteExec.Status} (h : attempt worker answers = .ok status) :
    status ≠ .failed := by
  have hbuilt : RemoteExec.Status.built ≠ .failed := by decide
  have hcached : RemoteExec.Status.cached ≠ .failed := by decide
  rw [attempt] at h
  obtain ⟨⟨⟩, -, h⟩ := bind_eq_ok_iff.mp h
  split_ifs at h
  · obtain ⟨spec, -, h⟩ := bind_eq_ok_iff.mp h
    rw [runScript] at h
    obtain ⟨⟨⟩, -, h⟩ := bind_eq_ok_iff.mp h
    obtain ⟨⟨⟩, -, h⟩ := bind_eq_ok_iff.mp h
    split_ifs at h
    · exact Except.ok.inj h ▸ hcached
    · iterate 4 obtain ⟨⟨⟩, -, h⟩ := bind_eq_ok_iff.mp h
      exact Except.ok.inj h ▸ hbuilt
  · obtain ⟨spec, -, h⟩ := bind_eq_ok_iff.mp h
    rw [runTheory] at h
    iterate 3 obtain ⟨⟨⟩, -, h⟩ := bind_eq_ok_iff.mp h
    split_ifs at h
    · obtain ⟨⟨⟩, -, h⟩ := bind_eq_ok_iff.mp h
      exact Except.ok.inj h ▸ hcached
    · obtain ⟨⟨⟩, -, h⟩ := bind_eq_ok_iff.mp h
      exact Except.ok.inj h ▸ hbuilt

/-- What a record says is missing is what the attempt missed. -/
theorem missing_reportOf {missing : Text} :
    (reportOf worker answers).failure.bind ActionFailure.missing = some missing ↔
      Misses (attempt worker answers) missing := by
  cases hattempt : attempt worker answers with
  | ok status =>
    rw [reportOf, hattempt]
    exact iff_of_false nofun not_misses_ok
  | error failure =>
    rw [reportOf, hattempt, misses_error_iff, ← @missing_settledFailure answers failure]
    rfl

/-- The peak memory is recorded of a theory that was built. -/
theorem peak_reportOf {mb : ℤ} :
    (reportOf worker answers).peak = some mb ↔
      Builds worker answers ∧ peakRssMb answers.report = some mb := by
  cases hattempt : attempt worker answers with
  | error failure =>
    rw [reportOf, hattempt, builds_iff, hattempt]
    exact iff_of_false nofun fun h ↦ absurd h.1.2 nofun
  | ok status =>
    rw [reportOf, hattempt, builds_iff, hattempt]
    show (if status = .built then measuredPeak answers else none) = some mb ↔ _
    by_cases hstatus : status = .built
    · subst hstatus
      rw [if_pos rfl, measuredPeak]
      cases hkind : isRunSpec answers.specText with
      | true => exact iff_of_false nofun fun h ↦ absurd h.1.1 nofun
      | false => exact ⟨fun h ↦ ⟨⟨rfl, rfl⟩, h⟩, fun h ↦ h.2⟩
    · rw [if_neg hstatus]
      exact iff_of_false nofun fun h ↦ hstatus (Except.ok.inj h.1.2)

theorem log_reportOf : (reportOf worker answers).log = uploadedLog worker answers := by
  rw [reportOf]
  cases attempt worker answers <;> rfl

/-- What can be recorded is soundly recorded. -/
theorem sound_of_recordable (h : Recordable worker answers specSha256) :
    Sound specSha256 ((readKey worker answers).getD []) (reportOf worker answers) := by
  constructor
  · exact h.spec
  · cases hkey : readKey worker answers with
    | none => exact .inl rfl
    | some key => exact .inr (h.key key hkey)
  · cases hattempt : attempt worker answers with
    | error failure =>
      rw [reportOf, hattempt]
      exact iff_of_true rfl rfl
    | ok status =>
      rw [reportOf, hattempt]
      exact iff_of_false nofun (ne_failed_of_attempt hattempt)
  · intro missing hmissing
    rcases misses_attempt (missing_reportOf.mp hmissing) with ⟨hash, hblob, rfl⟩ | ⟨key, hkey, rfl⟩
    · exact ⟨.blob, hash, rfl, h.missing hash hblob⟩
    · exact ⟨.theory, key, rfl, hkey⟩
  · intro mb hmb
    obtain ⟨hbuilds, hpeak⟩ := peak_reportOf.mp hmb
    exact h.peak hbuilds mb hpeak
  · intro sha bytes hlog
    rw [log_reportOf] at hlog
    obtain ⟨⟨content, size⟩, -, hpair⟩ := Option.map_eq_some_iff.mp hlog
    obtain ⟨rfl, rfl⟩ := Prod.mk.inj hpair
    refine ⟨worker.sha256Text_hashText content, fun c hc ↦ ?_⟩
    exact @printable_of_mem_intToString (Int.ofNat size) c hc

/-- What the coordinator understood could be recorded. -/
theorem recordable_of_understood {delivery : Delivery}
    (h : Understood worker delivery answers specSha256) : Recordable worker answers specSha256 := by
  obtain ⟨text, result, -, hparse, hreports⟩ := h
  have hkeyed := RemoteExec.keyed_of_parseResult hparse
  constructor
  · rw [← hreports.spec]
    exact sha256Text_of_isSha256 hkeyed.spec
  · intro key hkey
    rw [← hreports.inputKey] at hkey
    obtain ⟨found, hfound, rfl⟩ := Option.map_eq_some_iff.mp hkey
    exact sha256Text_of_isSha256 (hkeyed.inputKey found hfound)
  · intro hash hblob
    have hmissing := missing_reportOf.mpr (misses_attempt_of_missesBlob hblob)
    rw [← hreports.missing] at hmissing
    obtain ⟨⟨kind, key⟩, hfound, htext⟩ := Option.map_eq_some_iff.mp hmissing
    have hsha := sha256Text_of_isSha256 (hkeyed.missing _ hfound)
    cases kind with
    | theory => simp [missingText, RemoteExec.MissingKind.text] at htext
    | blob =>
      have hkey : key.toList = hash := by
        simpa [missingText, RemoteExec.MissingKind.text] using htext
      exact hkey ▸ hsha
  · intro hbuilds mb hmb
    have hpeak := peak_reportOf.mpr ⟨hbuilds, hmb⟩
    rw [← hreports.peak] at hpeak
    obtain ⟨n, -, rfl⟩ := Option.map_eq_some_iff.mp hpeak
    exact Int.natCast_nonneg n

/-- A worker for which every text has one hash. -/
def plainWorker : Worker where
  version := "1".toList
  runtime := "r".toList
  hashText _ := List.replicate 64 '0'
  sha256Text_hashText _ := by decide
  quote := id
  parsesTimeout _ := true

/-- A run's spec whose key is `abc`. -/
def shortKeySpec : Text :=
  terminated [runSpecHeader, "holbuild-version=1".toList, "holbuild-runtime=r".toList,
    "toolchain git=g rev=r kernel=stdknl".toList, "context HOL:min".toList, "run-key=abc".toList,
    "script s 1".toList, "run-text".toList]

def shortKeyAnswers : Answers where
  emptied := .done
  specFetched := .hit
  specRead := .done
  specText := shortKeySpec
  looked := .done
  runDone := false
  toolchain := .done
  toolchainKey := []
  fetched _ := .hit
  manifests := .done
  restored _ := .done
  parents _ := .done
  restoredEntry := false
  prepared := .done
  built := .finished
  script := .ran .finished
  upToDate := .done
  outputs := .done
  published := .done
  report := none
  log := none
  logExists := false
  wallMs := 0

theorem readKey_shortKey : readKey plainWorker shortKeyAnswers = some "abc".toList := by
  show specKey plainWorker shortKeySpec = _
  unfold shortKeySpec runSpecHeader
  repeat rw [String.toList_ofList]
  decide +kernel

end Understanding

end Reading

end Holbuild.ExecAction
