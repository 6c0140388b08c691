import Holbuild.Library.Paths
import Holbuild.Library.Outcomes
import Holbuild.Library.Fields

/-!
# Specs of remote actions

A worker receives the spec of one action as a text: lines of words, then the action text after a line
of its own. `parseActionSpec` reads the spec of a theory, `parseRunSpec` that of a script run in a
theory's context, and `verifyActionSpec` and `verifyRunSpec` check that a spec is for this holbuild,
that it is intact, and that the paths it names stay in the action root.
-/

set_option autoImplicit false
set_option relaxedAutoImplicit false

namespace Holbuild.ExecAction

open Library

/-! ### Failures -/

/-- How reading a spec fails: the spec is rejected, or an absolute path stands where one is appended. -/
inductive Failure
  | specRejected (message : Text)
  | path
deriving DecidableEq, Repr

abbrev Checked := Except Failure

def rejectSpec {α : Type} (message : Text) : Checked α := .error (.specRejected message)

def check (ok : Bool) (message : Text) : Checked Unit :=
  if ok then .ok () else rejectSpec message

/-- The checks of a list, one after the other. -/
def inOrder : List (Checked Unit) → Checked Unit
  | [] => .ok ()
  | first :: rest => first >>= fun _ ↦ inOrder rest

/-! ### Specs -/

structure SpecFile where
  path : Text
  sha256 : Text
  size : Text
deriving DecidableEq, Repr

structure Toolchain where
  git : Text
  rev : Text
  kernel : Text
deriving DecidableEq, Repr

/-- A theory that an action needs from the cache, with the stem its files are restored at. -/
structure DepLine where
  target : Text
  stem : Text
  key : Text
deriving DecidableEq, Repr

/-- A library's load manifest: the stem and suffix of its file, and its lines. -/
structure LibLine where
  target : Text
  stem : Text
  suffix : Text
  loads : List Text
deriving DecidableEq, Repr

/-- What a theory's preload loads: a HOL theory or library by name, or a project's by the stem of its
object in the action root. -/
inductive TheoryLoad
  | theory (name : Text)
  | library (name : Text)
  | object (stem : Text)
deriving DecidableEq, Repr

structure Outputs where
  sigPath : Text
  smlPath : Text
  dataPath : Text
deriving DecidableEq, Repr

structure ActionSpec where
  version : Text
  runtime : Text
  toolchain : Toolchain
  inputKey : Text
  actionTextSha256 : Text
  depsKey : Text
  package : Text
  logical : Text
  source : SpecFile
  inputs : List SpecFile
  libraries : List SpecFile
  deps : List DepLine
  libs : List LibLine
  loads : List TheoryLoad
  outputs : Outputs
  extraOutputs : List Text
  proofSteps : Bool
  tacticTimeout : Text
  newIr : Bool
  theoremCheckpoints : Bool
  actionText : Text
deriving DecidableEq, Repr

structure RunSpec where
  version : Text
  runtime : Text
  toolchain : Toolchain
  runKey : Text
  context : Text
  contextTheory : Option DepLine
  libraries : List SpecFile
  deps : List DepLine
  libs : List LibLine
  contextScripts : List SpecFile
  scriptSha256 : Text
  scriptSize : Text
  supports : List SpecFile
  runLoads : List Text
  outputs : List Text
  timeout : Option ℕ
  runText : Text
deriving DecidableEq, Repr

/-! ### Words of spec lines -/

/-- The words of a line. -/
def words (line : Text) : List Text := tokens (· = ' ') line

/-- What precedes and what follows the first occurrence of a marker. -/
def cutAt (marker : Text) : Text → Option (Text × Text)
  | [] => none
  | c :: rest =>
    if marker.isPrefixOf (c :: rest) then some ([], (c :: rest).drop marker.length)
    else (cutAt marker rest).map fun (before, after) ↦ (c :: before, after)

/-- A spec's lines, and the text after its section line. -/
def splitSpecText (sectionName text : Text) : Checked (Text × Text) :=
  match cutAt ('\n' :: sectionName ++ ['\n']) text with
  | none => rejectSpec ("spec has no ".toList ++ sectionName ++ " section".toList)
  | some cut => .ok cut

def targetName (text : Text) : Checked (Text × Text) :=
  match text.splitOn ':' with
  | [package, logical] =>
    if package ≠ [] ∧ logical ≠ [] then .ok (package, logical)
    else rejectSpec ("malformed target ".toList ++ text)
  | _ => rejectSpec ("malformed target ".toList ++ text)

/-- A key and its value, at the first equals sign. -/
def specKeyValue (text : Text) : Checked (Text × Text) :=
  match text.span (· ≠ '=') with
  | (_, []) => rejectSpec ("malformed spec line: ".toList ++ text)
  | (key, _ :: value) => .ok (key, value)

def specToolchain (line git rev kernel : Text) : Checked Toolchain := do
  let (gitKey, g) ← specKeyValue git
  let (revKey, r) ← specKeyValue rev
  let (kernelKey, k) ← specKeyValue kernel
  if gitKey = "git".toList ∧ revKey = "rev".toList ∧ kernelKey = "kernel".toList then .ok ⟨g, r, k⟩
  else rejectSpec ("malformed toolchain line: ".toList ++ line)

def specBool (name text : Text) : Checked Bool :=
  if text = "true".toList then .ok true
  else if text = "false".toList then .ok false
  else rejectSpec ("option ".toList ++ name ++ " is not a boolean: ".toList ++ text)

/-- The value last given to a key. -/
def value (values : List (Text × Text)) (key : Text) : Checked Text :=
  match values.find? fun pair ↦ pair.1 = key with
  | some (_, v) => .ok v
  | none => rejectSpec ("spec has no ".toList ++ key)

/-- A value that a spec must have. -/
def required {α : Type} (found : Option α) (message : Text) : Checked α :=
  match found with
  | some a => .ok a
  | none => rejectSpec message

def unknownLine {α : Type} (text : Text) : Checked α :=
  rejectSpec ("unknown spec line: ".toList ++ text)

/-- Whether a text is written as a SHA-256 is. -/
def sha256Text (text : Text) : Bool :=
  text.length = 64 && text.all fun c ↦ c.isDigit || ('a' ≤ c && c ≤ 'f')

/-- What the worker's holbuild is, and what it reads texts with. -/
structure Worker where
  version : Text
  runtime : Text
  /-- The SHA-256 of a text. -/
  hashText : Text → Text
  sha256Text_hashText : ∀ text, sha256Text (hashText text) = true
  quote : Text → Text
  parsesTimeout : Text → Bool

/-- The lines of a spec's head, after its header. -/
def specLines (worker : Worker) (header kind head : Text) : Checked (List Text) :=
  match (head.splitOn '\n').filter fun line ↦ line ≠ [] with
  | [] => rejectSpec "empty spec".toList
  | first :: rest =>
    if first = header then .ok rest
    else rejectSpec ("not ".toList ++ kind ++ ": ".toList ++ worker.quote first)

/-! ### Theory specs -/

/-- What the lines of a theory's spec have given so far, the last first. -/
structure ActionFields where
  values : List (Text × Text)
  toolchain : Option Toolchain
  target : Option Text
  source : Option (Text × SpecFile)
  inputs : List SpecFile
  libraries : List SpecFile
  deps : List DepLine
  libs : List LibLine
  loads : List TheoryLoad
  outputs : List (Text × Text)
  extraOutputs : List Text

def ActionFields.empty : ActionFields := ⟨[], none, none, none, [], [], [], [], [], [], []⟩

/-- Reads one line of a theory's spec. -/
def actionLine (fields : ActionFields) (text : Text) : Checked ActionFields :=
  match words text with
  | [] => unknownLine text
  | [single] => do
    let pair ← specKeyValue single
    .ok { fields with values := pair :: fields.values }
  | keyword :: args =>
    if keyword = "toolchain".toList then
      match args with
      | [git, rev, kernel] => do
        let toolchain ← specToolchain text git rev kernel
        .ok { fields with toolchain := some toolchain }
      | _ => unknownLine text
    else if keyword = "target".toList then
      match args with
      | [t] => .ok { fields with target := some t }
      | _ => unknownLine text
    else if keyword = "source".toList then
      match args with
      | [package, path, sha256, size] =>
        .ok { fields with source := some (package, ⟨path, sha256, size⟩) }
      | _ => unknownLine text
    else if keyword = "file".toList then
      match args with
      | [role, path, sha256, size] =>
        if role = "input".toList then
          .ok { fields with inputs := ⟨path, sha256, size⟩ :: fields.inputs }
        else if role = "library".toList then
          .ok { fields with libraries := ⟨path, sha256, size⟩ :: fields.libraries }
        else unknownLine text
      | _ => unknownLine text
    else if keyword = "dep".toList then
      match args with
      | [kind, t, stem, key] =>
        if kind = "theory".toList then .ok { fields with deps := ⟨t, stem, key⟩ :: fields.deps }
        else unknownLine text
      | _ => unknownLine text
    else if keyword = "lib".toList then
      match args with
      | t :: stem :: suffix :: loads =>
        .ok { fields with libs := ⟨t, stem, suffix, loads⟩ :: fields.libs }
      | _ => unknownLine text
    else if keyword = "load".toList then
      match args with
      | [kind, name] =>
        if kind = "theory".toList then .ok { fields with loads := .theory name :: fields.loads }
        else if kind = "library".toList then
          .ok { fields with loads := .library name :: fields.loads }
        else if kind = "object".toList then
          .ok { fields with loads := .object name :: fields.loads }
        else unknownLine text
      | _ => unknownLine text
    else if keyword = "output".toList then
      match args with
      | [role, path] =>
        if role = "extra".toList then
          .ok { fields with extraOutputs := path :: fields.extraOutputs }
        else .ok { fields with outputs := (role, path) :: fields.outputs }
      | _ => unknownLine text
    else if keyword = "option".toList then
      match args with
      | [option] => do
        let pair ← specKeyValue ("option ".toList ++ option)
        .ok { fields with values := pair :: fields.values }
      | _ => unknownLine text
    else unknownLine text

def actionSpecHeader : Text := "holbuild-action-spec-v1".toList

/-- The path last given to an output's role. -/
def outputPath (fields : ActionFields) (role : Text) : Checked Text :=
  match fields.outputs.find? fun pair ↦ pair.1 = role with
  | some (_, path) => .ok path
  | none => rejectSpec ("spec has no output ".toList ++ role)

/-- An option that a spec may leave out. -/
def theoremCheckpointsOption (values : List (Text × Text)) : Checked Bool :=
  match values.find? fun pair ↦ pair.1 = "option theorem-checkpoints".toList with
  | some (_, v) => specBool "theorem-checkpoints".toList v
  | none => .ok true

/-- Reads the spec of a theory. -/
def parseActionSpec (worker : Worker) (text : Text) : Checked ActionSpec := do
  let (head, actionText) ← splitSpecText "action-text".toList text
  let lines ← specLines worker actionSpecHeader "an ActionSpec".toList head
  let fields ← lines.foldlM actionLine .empty
  let target ← required fields.target "spec has no target".toList
  let (package, logical) ← targetName target
  let (sourcePackage, source) ← required fields.source "spec has no source".toList
  check (sourcePackage = package) "the source's package is not the target's".toList
  let tacticTimeout ← value fields.values "option tactic-timeout".toList
  check (worker.parsesTimeout tacticTimeout) "malformed option tactic-timeout".toList
  let version ← value fields.values "holbuild-version".toList
  let runtime ← value fields.values "holbuild-runtime".toList
  let toolchain ← required fields.toolchain "spec has no toolchain".toList
  let inputKey ← value fields.values "input-key".toList
  let actionTextSha256 ← value fields.values "action-text-sha256".toList
  let depsKey ← value fields.values "deps-key".toList
  let sigPath ← outputPath fields "sig".toList
  let smlPath ← outputPath fields "sml".toList
  let dataPath ← outputPath fields "dat".toList
  let proofStepsText ← value fields.values "option proof-steps".toList
  let proofSteps ← specBool "proof-steps".toList proofStepsText
  let newIrText ← value fields.values "option new-ir".toList
  let newIr ← specBool "new-ir".toList newIrText
  let theoremCheckpoints ← theoremCheckpointsOption fields.values
  .ok {
    version, runtime, toolchain, inputKey, actionTextSha256, depsKey, package, logical, source
    inputs := fields.inputs.reverse
    libraries := fields.libraries.reverse
    deps := fields.deps.reverse
    libs := fields.libs.reverse
    loads := fields.loads.reverse
    outputs := ⟨sigPath, smlPath, dataPath⟩
    extraOutputs := fields.extraOutputs.reverse
    proofSteps, tacticTimeout, newIr, theoremCheckpoints, actionText }

/-! ### Run specs -/

/-- What the lines of a run's spec have given so far, the last first. -/
structure RunFields where
  values : List (Text × Text)
  toolchain : Option Toolchain
  context : Option (Text × Option DepLine)
  script : Option (Text × Text)
  timeout : Option ℕ
  libraries : List SpecFile
  deps : List DepLine
  libs : List LibLine
  contextScripts : List SpecFile
  supports : List SpecFile
  runLoads : List Text
  outputs : List Text

def RunFields.empty : RunFields := ⟨[], none, none, none, none, [], [], [], [], [], [], []⟩

/-- Sets what a run's spec may give once. -/
def setOnce {α : Type} (found : Option α) (what : Text) (a : α) : Checked (Option α) :=
  match found with
  | none => .ok (some a)
  | some _ => rejectSpec ("spec has more than one ".toList ++ what)

/-- A run's timeout: a positive number of seconds, as it is written in decimal. -/
def runTimeout (seconds : Text) : Checked ℕ :=
  match readDecimal seconds with
  | some n =>
    if 0 < n ∧ decimal n = seconds then .ok n
    else rejectSpec ("malformed option timeout: ".toList ++ seconds)
  | none => rejectSpec ("malformed option timeout: ".toList ++ seconds)

/-- Reads one line of a run's spec. -/
def runLine (fields : RunFields) (text : Text) : Checked RunFields :=
  match words text with
  | [] => unknownLine text
  | [single] => do
    let pair ← specKeyValue single
    .ok { fields with values := pair :: fields.values }
  | keyword :: args =>
    if keyword = "toolchain".toList then
      match args with
      | [git, rev, kernel] => do
        let toolchain ← specToolchain text git rev kernel
        let toolchain ← setOnce fields.toolchain "toolchain".toList toolchain
        .ok { fields with toolchain }
      | _ => unknownLine text
    else if keyword = "context".toList then
      match args with
      | [name] => do
        let context ← setOnce fields.context "context".toList (name, none)
        .ok { fields with context }
      | [name, stem, key] => do
        let context ← setOnce fields.context "context".toList (name, some ⟨name, stem, key⟩)
        .ok { fields with context }
      | _ => unknownLine text
    else if keyword = "file".toList then
      match args with
      | [role, path, sha256, size] =>
        if role = "library".toList then
          .ok { fields with libraries := ⟨path, sha256, size⟩ :: fields.libraries }
        else if role = "context-script".toList then
          .ok { fields with contextScripts := ⟨path, sha256, size⟩ :: fields.contextScripts }
        else if role = "support".toList then
          .ok { fields with supports := ⟨path, sha256, size⟩ :: fields.supports }
        else unknownLine text
      | _ => unknownLine text
    else if keyword = "dep".toList then
      match args with
      | [kind, t, stem, key] =>
        if kind = "theory".toList then .ok { fields with deps := ⟨t, stem, key⟩ :: fields.deps }
        else unknownLine text
      | _ => unknownLine text
    else if keyword = "lib".toList then
      match args with
      | t :: stem :: suffix :: loads =>
        .ok { fields with libs := ⟨t, stem, suffix, loads⟩ :: fields.libs }
      | _ => unknownLine text
    else if keyword = "load".toList then
      -- The context theory's own preload: the script loads the context.
      match args with
      | [kind, _] =>
        if kind ∈ ["theory".toList, "library".toList, "object".toList] then .ok fields
        else unknownLine text
      | _ => unknownLine text
    else if keyword = "script".toList then
      match args with
      | [sha256, size] => do
        let script ← setOnce fields.script "script".toList (sha256, size)
        .ok { fields with script }
      | _ => unknownLine text
    else if keyword = "run-load".toList then
      match args with
      | [name] => .ok { fields with runLoads := name :: fields.runLoads }
      | _ => unknownLine text
    else if keyword = "output".toList then
      match args with
      | [name] => .ok { fields with outputs := name :: fields.outputs }
      | _ => unknownLine text
    else if keyword = "option".toList then
      match args with
      | [option] => do
        let (key, seconds) ← specKeyValue option
        if key = "timeout".toList then do
          let n ← runTimeout seconds
          let timeout ← setOnce fields.timeout "timeout".toList n
          .ok { fields with timeout }
        else rejectSpec ("unknown spec option: ".toList ++ option)
      | _ => unknownLine text
    else unknownLine text

def runSpecHeader : Text := "holbuild-run-spec-v1".toList

/-- Reads the spec of a run. -/
def parseRunSpec (worker : Worker) (text : Text) : Checked RunSpec := do
  let (head, runText) ← splitSpecText "run-text".toList text
  let lines ← specLines worker runSpecHeader "a run spec".toList head
  let fields ← lines.foldlM runLine .empty
  let (context, contextTheory) ← required fields.context "spec has no context".toList
  let version ← value fields.values "holbuild-version".toList
  let runtime ← value fields.values "holbuild-runtime".toList
  let toolchain ← required fields.toolchain "spec has no toolchain".toList
  let runKey ← value fields.values "run-key".toList
  let (scriptSha256, scriptSize) ← required fields.script "spec has no script".toList
  .ok {
    version, runtime, toolchain, runKey, context, contextTheory
    libraries := fields.libraries.reverse
    deps := fields.deps.reverse
    libs := fields.libs.reverse
    contextScripts := fields.contextScripts.reverse
    scriptSha256, scriptSize
    supports := fields.supports.reverse
    runLoads := fields.runLoads.reverse
    outputs := fields.outputs.reverse
    timeout := fields.timeout
    runText }

/-! ### What read specs have -/

theorem ne_nil_of_mem_words {word text : Text} (h : word ∈ words text) : word ≠ [] := by
  rw [words, tokens, List.mem_filter] at h
  exact of_decide_eq_true h.2

/-- A property of the fields read so far that every line keeps. -/
theorem foldlM_keeps {α : Type} {line : α → Text → Checked α} {holds : α → Prop}
    (hstep : ∀ {fields fields' : α} {text : Text}, line fields text = .ok fields' → holds fields →
      holds fields') {lines : List Text} {fields fields' : α}
    (h : lines.foldlM line fields = .ok fields') (hfields : holds fields) : holds fields' := by
  induction lines generalizing fields with
  | nil => exact Except.ok.inj h ▸ hfields
  | cons text lines ih =>
    rw [List.foldlM_cons, bind_eq_ok_iff] at h
    obtain ⟨next, hnext, h⟩ := h
    exact ih h (hstep hnext hfields)

theorem unknownLine_ne_ok {α : Type} {text : Text} {a : α} : unknownLine text ≠ .ok a := nofun

/-- What follows from both branches of a test. -/
theorem of_ite {α : Type} {c goal : Prop} [Decidable c] {x y z : α} (h : (if c then x else y) = z)
    (hpos : x = z → goal) (hneg : y = z → goal) : goal := by
  by_cases hc : c
  · rw [if_pos hc] at h
    exact hpos h
  · rw [if_neg hc] at h
    exact hneg h

/-- The source's path, the dependencies' stems and the outputs are words. -/
structure ActionFields.Filled (fields : ActionFields) : Prop where
  source : ∀ {package : Text} {file : SpecFile}, fields.source = some (package, file) → file.path ≠ []
  deps : ∀ dep ∈ fields.deps, dep.stem ≠ []
  outputs : ∀ output ∈ fields.outputs, output.2 ≠ []

theorem actionLine_filled {fields fields' : ActionFields} {text : Text}
    (h : actionLine fields text = .ok fields') (hfields : fields.Filled) : fields'.Filled := by
  obtain ⟨hsource, hdeps, houtputs⟩ := hfields
  have hwords : ∀ word ∈ words text, word ≠ [] := fun _ ↦ ne_nil_of_mem_words
  unfold actionLine at h
  split at h
  · exact absurd h unknownLine_ne_ok
  · obtain ⟨pair, -, h⟩ := bind_eq_ok_iff.mp h
    exact Except.ok.inj h ▸ ⟨hsource, hdeps, houtputs⟩
  · next hline =>
    rw [hline] at hwords
    refine of_ite h ?_ ?_ <;> clear h <;> intro h
    · split at h
      · obtain ⟨toolchain, -, h⟩ := bind_eq_ok_iff.mp h
        exact Except.ok.inj h ▸ ⟨hsource, hdeps, houtputs⟩
      · exact absurd h unknownLine_ne_ok
    refine of_ite h ?_ ?_ <;> clear h <;> intro h
    · split at h
      · exact Except.ok.inj h ▸ ⟨hsource, hdeps, houtputs⟩
      · exact absurd h unknownLine_ne_ok
    refine of_ite h ?_ ?_ <;> clear h <;> intro h
    · split at h
      · next package path sha256 size _ =>
        have hpath : path ≠ [] := hwords path (by simp)
        refine Except.ok.inj h ▸ ⟨fun heq ↦ ?_, hdeps, houtputs⟩
        obtain ⟨rfl, rfl⟩ := Prod.mk.inj (Option.some.inj heq)
        exact hpath
      · exact absurd h unknownLine_ne_ok
    refine of_ite h ?_ ?_ <;> clear h <;> intro h
    · split at h
      · refine of_ite h (fun h ↦ Except.ok.inj h ▸ ⟨hsource, hdeps, houtputs⟩) fun h ↦ ?_
        refine of_ite h (fun h ↦ Except.ok.inj h ▸ ⟨hsource, hdeps, houtputs⟩) fun h ↦ ?_
        exact absurd h unknownLine_ne_ok
      · exact absurd h unknownLine_ne_ok
    refine of_ite h ?_ ?_ <;> clear h <;> intro h
    · split at h
      · next kind t stem key _ =>
        replace h := of_ite h id fun h ↦ absurd h unknownLine_ne_ok
        have hstem : stem ≠ [] := hwords stem (by simp)
        refine Except.ok.inj h ▸ ⟨hsource, fun dep hdep ↦ ?_, houtputs⟩
        rcases List.mem_cons.mp hdep with rfl | hdep
        · exact hstem
        · exact hdeps dep hdep
      · exact absurd h unknownLine_ne_ok
    refine of_ite h ?_ ?_ <;> clear h <;> intro h
    · split at h
      · exact Except.ok.inj h ▸ ⟨hsource, hdeps, houtputs⟩
      · exact absurd h unknownLine_ne_ok
    refine of_ite h ?_ ?_ <;> clear h <;> intro h
    · split at h
      · refine of_ite h (fun h ↦ Except.ok.inj h ▸ ⟨hsource, hdeps, houtputs⟩) fun h ↦ ?_
        refine of_ite h (fun h ↦ Except.ok.inj h ▸ ⟨hsource, hdeps, houtputs⟩) fun h ↦ ?_
        refine of_ite h (fun h ↦ Except.ok.inj h ▸ ⟨hsource, hdeps, houtputs⟩) fun h ↦ ?_
        exact absurd h unknownLine_ne_ok
      · exact absurd h unknownLine_ne_ok
    refine of_ite h ?_ ?_ <;> clear h <;> intro h
    · split at h
      · next role path _ =>
        have hpath : path ≠ [] := hwords path (by simp)
        refine of_ite h (fun h ↦ Except.ok.inj h ▸ ⟨hsource, hdeps, houtputs⟩) fun h ↦ ?_
        refine Except.ok.inj h ▸ ⟨hsource, hdeps, fun output houtput ↦ ?_⟩
        rcases List.mem_cons.mp houtput with rfl | houtput
        · exact hpath
        · exact houtputs output houtput
      · exact absurd h unknownLine_ne_ok
    refine of_ite h (fun h ↦ ?_) fun h ↦ absurd h unknownLine_ne_ok
    split at h
    · obtain ⟨pair, -, h⟩ := bind_eq_ok_iff.mp h
      exact Except.ok.inj h ▸ ⟨hsource, hdeps, houtputs⟩
    · exact absurd h unknownLine_ne_ok

theorem check_bind_eq_ok {α : Type} {ok : Bool} {message : Text} {next : Unit → Checked α} {a : α}
    (h : check ok message >>= next = .ok a) : next () = .ok a := by
  obtain ⟨⟨⟩, -, h⟩ := bind_eq_ok_iff.mp h
  exact h

theorem required_eq_ok {α : Type} {found : Option α} {message : Text} {a : α}
    (h : required found message = .ok a) : found = some a := by
  cases found with
  | none => exact absurd h nofun
  | some b => exact congrArg some (Except.ok.inj h)

theorem outputPath_eq_ok {fields : ActionFields} {role path : Text} (hfilled : fields.Filled)
    (h : outputPath fields role = .ok path) : path ≠ [] := by
  rw [outputPath] at h
  split at h
  · next hfind => exact Except.ok.inj h ▸ hfilled.outputs _ (List.mem_of_find?_eq_some hfind)
  · exact absurd h nofun

/-- In a spec that was read, the source's path, the dependencies' stems and the outputs are not
empty. -/
theorem filled_of_parseActionSpec {worker : Worker} {text : Text} {spec : ActionSpec}
    (h : parseActionSpec worker text = .ok spec) :
    spec.source.path ≠ [] ∧ (∀ dep ∈ spec.deps, dep.stem ≠ []) ∧ spec.outputs.sigPath ≠ [] ∧
      spec.outputs.smlPath ≠ [] ∧ spec.outputs.dataPath ≠ [] := by
  unfold parseActionSpec at h
  obtain ⟨⟨head, actionText⟩, -, h⟩ := bind_eq_ok_iff.mp h
  obtain ⟨lines, -, h⟩ := bind_eq_ok_iff.mp h
  obtain ⟨fields, hfields, h⟩ := bind_eq_ok_iff.mp h
  have hfilled : fields.Filled :=
    foldlM_keeps actionLine_filled hfields ⟨nofun, fun _ hdep ↦ absurd hdep List.not_mem_nil,
      fun _ houtput ↦ absurd houtput List.not_mem_nil⟩
  obtain ⟨target, -, h⟩ := bind_eq_ok_iff.mp h
  obtain ⟨⟨package, logical⟩, -, h⟩ := bind_eq_ok_iff.mp h
  obtain ⟨⟨sourcePackage, source⟩, hsource, h⟩ := bind_eq_ok_iff.mp h
  have hpath : source.path ≠ [] := by
    refine @ActionFields.Filled.source _ hfilled sourcePackage source ?_
    exact required_eq_ok hsource
  -- The other fields are read one by one and change neither.
  obtain ⟨_, -, h⟩ := bind_eq_ok_iff.mp (check_bind_eq_ok h)
  obtain ⟨_, -, h⟩ := bind_eq_ok_iff.mp (check_bind_eq_ok h)
  iterate 5 obtain ⟨_, -, h⟩ := bind_eq_ok_iff.mp h
  obtain ⟨sigPath, hsig, h⟩ := bind_eq_ok_iff.mp h
  obtain ⟨smlPath, hsml, h⟩ := bind_eq_ok_iff.mp h
  obtain ⟨dataPath, hdata, h⟩ := bind_eq_ok_iff.mp h
  iterate 5 obtain ⟨_, -, h⟩ := bind_eq_ok_iff.mp h
  obtain rfl := Except.ok.inj h
  exact ⟨hpath, fun dep hdep ↦ hfilled.deps dep (List.mem_reverse.mp hdep),
    outputPath_eq_ok hfilled hsig, outputPath_eq_ok hfilled hsml, outputPath_eq_ok hfilled hdata⟩

/-- The stems of the dependencies and of the context are words. -/
structure RunFields.Filled (fields : RunFields) : Prop where
  context : ∀ {name : Text} {dep : DepLine}, fields.context = some (name, some dep) → dep.stem ≠ []
  deps : ∀ dep ∈ fields.deps, dep.stem ≠ []

theorem setOnce_eq_ok {α : Type} {found found' : Option α} {what : Text} {a : α}
    (h : setOnce found what a = .ok found') : found' = some a := by
  cases found with
  | none => exact (Except.ok.inj h).symm
  | some b => exact absurd h nofun

theorem runLine_filled {fields fields' : RunFields} {text : Text}
    (h : runLine fields text = .ok fields') (hfields : fields.Filled) : fields'.Filled := by
  obtain ⟨hcontext, hdeps⟩ := hfields
  have hwords : ∀ word ∈ words text, word ≠ [] := fun _ ↦ ne_nil_of_mem_words
  unfold runLine at h
  split at h
  · exact absurd h unknownLine_ne_ok
  · obtain ⟨pair, -, h⟩ := bind_eq_ok_iff.mp h
    exact Except.ok.inj h ▸ ⟨hcontext, hdeps⟩
  · next hline =>
    rw [hline] at hwords
    refine of_ite h ?_ ?_ <;> clear h <;> intro h
    · split at h
      · obtain ⟨toolchain, -, h⟩ := bind_eq_ok_iff.mp h
        obtain ⟨_, -, h⟩ := bind_eq_ok_iff.mp h
        exact Except.ok.inj h ▸ ⟨hcontext, hdeps⟩
      · exact absurd h unknownLine_ne_ok
    refine of_ite h ?_ ?_ <;> clear h <;> intro h
    · split at h
      · obtain ⟨_, hset, h⟩ := bind_eq_ok_iff.mp h
        refine Except.ok.inj h ▸ ⟨fun heq ↦ ?_, hdeps⟩
        have hpair := Option.some.inj ((setOnce_eq_ok hset).symm.trans heq)
        exact absurd (Prod.mk.inj hpair).2 nofun
      · next name stem key _ =>
        have hstem : stem ≠ [] := hwords stem (by simp)
        obtain ⟨_, hset, h⟩ := bind_eq_ok_iff.mp h
        refine Except.ok.inj h ▸ ⟨fun heq ↦ ?_, hdeps⟩
        have hpair := Option.some.inj ((setOnce_eq_ok hset).symm.trans heq)
        rw [← Option.some.inj (Prod.mk.inj hpair).2]
        exact hstem
      · exact absurd h unknownLine_ne_ok
    refine of_ite h ?_ ?_ <;> clear h <;> intro h
    · split at h
      · refine of_ite h (fun h ↦ Except.ok.inj h ▸ ⟨hcontext, hdeps⟩) fun h ↦ ?_
        refine of_ite h (fun h ↦ Except.ok.inj h ▸ ⟨hcontext, hdeps⟩) fun h ↦ ?_
        refine of_ite h (fun h ↦ Except.ok.inj h ▸ ⟨hcontext, hdeps⟩) fun h ↦ ?_
        exact absurd h unknownLine_ne_ok
      · exact absurd h unknownLine_ne_ok
    refine of_ite h ?_ ?_ <;> clear h <;> intro h
    · split at h
      · next kind t stem key _ =>
        replace h := of_ite h id fun h ↦ absurd h unknownLine_ne_ok
        have hstem : stem ≠ [] := hwords stem (by simp)
        refine Except.ok.inj h ▸ ⟨hcontext, fun dep hdep ↦ ?_⟩
        rcases List.mem_cons.mp hdep with rfl | hdep
        · exact hstem
        · exact hdeps dep hdep
      · exact absurd h unknownLine_ne_ok
    refine of_ite h ?_ ?_ <;> clear h <;> intro h
    · split at h
      · exact Except.ok.inj h ▸ ⟨hcontext, hdeps⟩
      · exact absurd h unknownLine_ne_ok
    refine of_ite h ?_ ?_ <;> clear h <;> intro h
    · split at h
      · refine of_ite h (fun h ↦ Except.ok.inj h ▸ ⟨hcontext, hdeps⟩) fun h ↦ ?_
        exact absurd h unknownLine_ne_ok
      · exact absurd h unknownLine_ne_ok
    refine of_ite h ?_ ?_ <;> clear h <;> intro h
    · split at h
      · obtain ⟨_, -, h⟩ := bind_eq_ok_iff.mp h
        exact Except.ok.inj h ▸ ⟨hcontext, hdeps⟩
      · exact absurd h unknownLine_ne_ok
    refine of_ite h ?_ ?_ <;> clear h <;> intro h
    · split at h
      · exact Except.ok.inj h ▸ ⟨hcontext, hdeps⟩
      · exact absurd h unknownLine_ne_ok
    refine of_ite h ?_ ?_ <;> clear h <;> intro h
    · split at h
      · exact Except.ok.inj h ▸ ⟨hcontext, hdeps⟩
      · exact absurd h unknownLine_ne_ok
    refine of_ite h (fun h ↦ ?_) fun h ↦ absurd h unknownLine_ne_ok
    split at h
    · obtain ⟨⟨key, seconds⟩, -, h⟩ := bind_eq_ok_iff.mp h
      refine of_ite h (fun h ↦ ?_) fun h ↦ absurd h nofun
      obtain ⟨_, -, h⟩ := bind_eq_ok_iff.mp h
      obtain ⟨_, -, h⟩ := bind_eq_ok_iff.mp h
      exact Except.ok.inj h ▸ ⟨hcontext, hdeps⟩
    · exact absurd h unknownLine_ne_ok

/-- In a run's spec that was read, the stems of the theories to restore are not empty. -/
theorem filled_of_parseRunSpec {worker : Worker} {text : Text} {spec : RunSpec}
    (h : parseRunSpec worker text = .ok spec) :
    ∀ dep ∈ spec.deps ++ spec.contextTheory.toList, dep.stem ≠ [] := by
  unfold parseRunSpec at h
  obtain ⟨⟨head, runText⟩, -, h⟩ := bind_eq_ok_iff.mp h
  obtain ⟨lines, -, h⟩ := bind_eq_ok_iff.mp h
  obtain ⟨fields, hfields, h⟩ := bind_eq_ok_iff.mp h
  have hfilled : fields.Filled :=
    foldlM_keeps runLine_filled hfields ⟨nofun, fun _ hdep ↦ absurd hdep List.not_mem_nil⟩
  obtain ⟨⟨context, contextTheory⟩, hcontext, h⟩ := bind_eq_ok_iff.mp h
  iterate 4 obtain ⟨_, -, h⟩ := bind_eq_ok_iff.mp h
  obtain ⟨⟨scriptSha256, scriptSize⟩, -, h⟩ := bind_eq_ok_iff.mp h
  obtain rfl := Except.ok.inj h
  intro dep hdep
  rcases List.mem_append.mp hdep with hdep | hdep
  · exact hfilled.deps dep (List.mem_reverse.mp hdep)
  · rw [Option.mem_toList] at hdep
    refine @RunFields.Filled.context _ hfilled context dep ?_
    rw [required_eq_ok hcontext]
    exact congrArg some (congrArg _ hdep)

end Holbuild.ExecAction
