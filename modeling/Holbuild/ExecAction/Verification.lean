import Holbuild.ExecAction.Specs
import Holbuild.Library.Places
import Mathlib.Tactic.Tauto

/-!
# Verified specs

The checks that a worker makes of a spec before it acts on it. `escapes` is the textual test that each
listed path must fail: a path passes it when it is relative and no arc but its last is a parent arc
(`parentArc_notMem_dropLast`).
-/

set_option autoImplicit false
set_option relaxedAutoImplicit false

namespace Holbuild.ExecAction

open Library

/-! ### Texts -/

/-- The values of a text's lines that start with `start`. -/
def textValues (text start : Text) : List Text :=
  ((text.splitOn '\n').filter fun line ↦ start.isPrefixOf line).map fun line ↦ line.drop start.length

/-- Whether a path is absolute or has a parent arc before its last arc, or is one. -/
def escapes (path : Text) : Bool :=
  Path.isAbsolute path || path = "..".toList || "../".toList.isPrefixOf path ||
    decide ("/../".toList <:+: path)

/-- Every listed path stays in the action root. -/
def checkPaths (paths : List Text) : Checked Unit :=
  inOrder (paths.map fun path ↦
    check (!escapes path) ("path ".toList ++ path ++ " leaves the action root".toList))

/-- The packages of targets. -/
def targetPackages (targets : List Text) : Checked (List Text) :=
  targets.mapM fun target ↦ do
    let (package, _) ← targetName target
    .ok package

/-- The loads of library manifests that are paths. -/
def loadPaths (libs : List LibLine) : List Text :=
  (libs.flatMap LibLine.loads).filter fun load ↦ '/' ∈ load

/-! ### Theory specs -/

def actionTextValue (spec : ActionSpec) (key : Text) : Checked Text :=
  match textValues spec.actionText (key ++ ['=']) with
  | [v] => .ok v
  | _ => rejectSpec ("the action text has no single ".toList ++ key ++ " line".toList)

/-- The files that the action text names in its lines that start with `start`, by their paths from a
directory of the package, with their hashes. -/
def namedFiles (spec : ActionSpec) (start base : Text) : Checked (List (Text × Text)) :=
  (textValues spec.actionText start).mapM fun v ↦
    match (v.splitOn '@').reverse with
    | hash :: piece :: pieces =>
      let relative := concatWith ['@'] (piece :: pieces).reverse
      if base = [] then .ok (Path.mkCanonical relative, hash)
      else
        match Library.Path.concat base relative with
        | some path => .ok (Path.mkCanonical path, hash)
        | none => .error .path
    | _ => rejectSpec ("malformed action text line ".toList ++ start ++ v)

def sameFiles {α : Type} [DecidableEq α] (xs ys : List α) : Bool :=
  xs.all (fun x ↦ x ∈ ys) && ys.all fun y ↦ y ∈ xs

/-- A direct project dependency is a theory with this key or a library; a HOL dependency has no key. -/
def directDepOk (spec : ActionSpec) (line : Text) : Bool :=
  match line.splitOn '@' with
  | [target, key] =>
    match spec.deps.find? fun dep ↦ dep.target = target with
    | some dep => dep.key = key
    | none => spec.libs.any fun lib ↦ lib.target = target
  | _ => true

/-- A value of the action text that the spec repeats. -/
def checkActionText (spec : ActionSpec) (key expected message : Text) : Checked Unit := do
  let v ← actionTextValue spec key
  check (v = expected) message

def suffixOk (lib : LibLine) : Bool := lib.suffix = ".ui".toList || lib.suffix = ".uo".toList

/-- The paths of a theory's spec that must stay in the action root. -/
def actionSpecPaths (spec : ActionSpec) (packages : List Text) : List Text :=
  spec.package :: spec.logical :: packages ++ spec.source.path ::
    (spec.inputs ++ spec.libraries).map SpecFile.path ++ spec.deps.map DepLine.stem ++
    spec.libs.map LibLine.stem ++ loadPaths spec.libs ++
    [spec.outputs.sigPath, spec.outputs.smlPath, spec.outputs.dataPath]

/-- Checks that a theory's spec is for this holbuild, intact, and of an action a worker may run. -/
def verifyActionSpec (worker : Worker) (spec : ActionSpec) : Checked Unit := do
  let textHash := worker.hashText spec.actionText
  let scriptDir := Path.dir spec.source.path
  let extraDeps ← namedFiles spec "extra_dep=".toList []
  let sourceExtraDeps ← namedFiles spec "source_extra_dep=".toList scriptDir
  let specInputs := spec.inputs.map fun file ↦ (Path.mkCanonical file.path, file.sha256)
  inOrder [
    check (spec.version = worker.version) ("spec is for holbuild ".toList ++ spec.version ++
      ", this is ".toList ++ worker.version),
    check (spec.runtime = worker.runtime) "spec is for different holbuild runtime sources".toList,
    check (spec.toolchain.kernel = "stdknl".toList) "spec is for a tracing kernel".toList,
    check (sha256Text spec.depsKey) "deps-key is not a SHA-256".toList,
    check (spec.deps.all fun dep ↦ sha256Text dep.key) "a dependency's key is not a SHA-256".toList,
    check (textHash = spec.inputKey) "the action text does not hash to input-key".toList,
    check (spec.actionTextSha256 = textHash)
      "action-text-sha256 does not match the action text".toList,
    checkActionText spec "package".toList spec.package
      "the action text names another package".toList,
    checkActionText spec "logical".toList spec.logical
      "the action text names another theory".toList,
    checkActionText spec "source".toList spec.source.path
      "the action text names another source".toList,
    checkActionText spec "source-sha256".toList spec.source.sha256
      "the source's SHA-256 does not match the action text".toList,
    checkActionText spec "cache".toList "true".toList "the action sets cache = false".toList,
    checkActionText spec "always_reexecute".toList "false".toList
      "the action sets always_reexecute".toList,
    check ((textValues spec.actionText "dep=".toList).all (directDepOk spec))
      "a dependency's key does not match the action text".toList,
    check (sameFiles (extraDeps ++ sourceExtraDeps) specInputs)
      "the extra inputs do not match the action text".toList,
    check (sameFiles (textValues spec.actionText "source_extra_output=".toList) spec.extraOutputs)
      "the extra outputs do not match the action text".toList,
    check (spec.libs.all suffixOk) "a library manifest is neither .ui nor .uo".toList]
  let depPackages ← targetPackages (spec.deps.map DepLine.target)
  let libPackages ← targetPackages (spec.libs.map LibLine.target)
  checkPaths (actionSpecPaths spec (depPackages ++ libPackages))

/-! ### Run specs -/

def runScriptName : Text := "holbuild-run-script.sml".toList

def runTextValue (spec : RunSpec) (key : Text) : Checked Text :=
  match textValues spec.runText (key ++ ['=']) with
  | [v] => .ok v
  | _ => rejectSpec ("the run text has no single ".toList ++ key ++ " line".toList)

/-- The library line that a project run-load names. -/
def runLoadLib (spec : RunSpec) (name : Text) : Option LibLine :=
  spec.libs.find? fun lib ↦ lib.target = name

/-- Whether a text is the name of an output that a script can write. -/
def validOutput (name : Text) : Bool :=
  name ≠ [] && name.head? ≠ some '.' &&
    name.all fun c ↦ c.isAlphanum || c = '.' || c = '_' || c = '-'

def hollibStart : Text := "HOLLIB:".toList

def runLoadOk (spec : RunSpec) (name : Text) : Bool :=
  if hollibStart.isPrefixOf name then hollibStart.length < name.length && decide ('/' ∉ name)
  else (runLoadLib spec name).isSome

/-- A run-load and its line of the run text: a HOL library by its name, any other library with its
key. -/
def runLoadMatches (name v : Text) : Bool :=
  match name.splitOn ':' with
  | [package, x] =>
    if package = "HOLLIB".toList ∨ package = "hol".toList then v = x
    else (name ++ ['@']).isPrefixOf v && sha256Text (v.drop (name.length + 1))
  | _ => false

/-- Two lists of equal length whose elements are related one by one. -/
def allEq {α β : Type} (related : α → β → Bool) : List α → List β → Bool
  | [], [] => true
  | a :: as, b :: bs => related a b && allEq related as bs
  | _, _ => false

/-- The texts, each once. -/
def uniqueStrings (texts : List Text) : List Text :=
  (texts.foldl (fun acc text ↦ if text ∈ acc then acc else text :: acc) []).reverse

/-- The theories that a run restores: its dependencies and a project context. -/
def runSpecDeps (spec : RunSpec) : List DepLine := spec.deps ++ spec.contextTheory.toList

/-- The paths of a run's spec that must stay in the action root. -/
def runSpecPaths (spec : RunSpec) (packages : List Text) : List Text :=
  packages ++ (spec.libraries ++ spec.contextScripts).map SpecFile.path ++
    spec.supports.map SpecFile.path ++ spec.deps.map DepLine.stem ++ spec.libs.map LibLine.stem ++
    spec.contextTheory.toList.map DepLine.stem ++ loadPaths spec.libs

/-- Checks that a run's spec is for this holbuild, intact, and that its paths stay in the action
root. -/
def verifyRunSpec (worker : Worker) (spec : RunSpec) : Checked Unit := do
  let single := runTextValue spec
  let values := textValues spec.runText
  inOrder [
    check (spec.version = worker.version) ("spec is for holbuild ".toList ++ spec.version ++
      ", this is ".toList ++ worker.version),
    check (spec.runtime = worker.runtime) "spec is for different holbuild runtime sources".toList,
    check (spec.toolchain.kernel = "stdknl".toList) "spec is for a tracing kernel".toList,
    check (worker.hashText spec.runText = spec.runKey) "the run text does not hash to run-key".toList,
    check ("holbuild-run-v1\n".toList.isPrefixOf spec.runText)
      "the run text is not a holbuild-run-v1 text".toList,
    (do
      let v ← single "context".toList
      check (v = match spec.contextTheory with
        | some theory => spec.context ++ '@' :: theory.key
        | none => spec.context) "the run text names another context".toList),
    (match spec.contextTheory with
      | some theory => check (sha256Text theory.key) "the context's key is not a SHA-256".toList
      | none => check ("HOL:".toList.isPrefixOf spec.context)
          "a toolchain context has no HOL: name".toList),
    (do
      let v ← single "script".toList
      check (v = spec.scriptSha256) "the script's SHA-256 does not match the run text".toList),
    check (sortStrings (values "support=".toList) =
        sortStrings (spec.supports.map fun file ↦ file.path ++ '@' :: file.sha256))
      "the support files do not match the run text".toList,
    check (spec.outputs ≠ [] && spec.outputs.all validOutput &&
        (uniqueStrings spec.outputs).length = spec.outputs.length)
      "the outputs are not distinct names a script can write".toList,
    check (sortStrings (values "output=".toList) = sortStrings spec.outputs)
      "the outputs do not match the run text".toList,
    check (spec.deps.all fun dep ↦ sha256Text dep.key) "a dependency's key is not a SHA-256".toList,
    check (spec.libs.all suffixOk) "a library manifest is neither .ui nor .uo".toList,
    check (spec.runLoads.all (runLoadOk spec)) "a run-load names no library of the spec".toList,
    check (allEq runLoadMatches spec.runLoads (values "load=".toList))
      "the run-loads do not match the run text".toList,
    check (!spec.supports.any fun file ↦ Path.mkCanonical file.path = runScriptName)
      ("a support file is named ".toList ++ runScriptName)]
  let depPackages ← targetPackages ((runSpecDeps spec).map DepLine.target)
  let libPackages ← targetPackages (spec.libs.map LibLine.target)
  checkPaths (runSpecPaths spec (depPackages ++ libPackages))

/-! ### What accepted specs guarantee -/

theorem check_eq_ok_iff {ok : Bool} {message : Text} : check ok message = .ok () ↔ ok = true := by
  rw [check]
  split_ifs with hok
  · simp [hok]
  · simp [hok, rejectSpec]

theorem inOrder_eq_ok_iff {checks : List (Checked Unit)} :
    inOrder checks = .ok () ↔ ∀ c ∈ checks, c = .ok () := by
  induction checks with
  | nil => simp [inOrder]
  | cons first rest ih =>
    rw [inOrder, bind_eq_ok_iff, List.forall_mem_cons, ← ih]
    constructor
    · rintro ⟨_, hfirst, hrest⟩
      exact ⟨hfirst, hrest⟩
    · rintro ⟨hfirst, hrest⟩
      exact ⟨(), hfirst, hrest⟩

/-- A path that does not escape is relative, and only its last arc may be a parent arc. -/
theorem guarded_of_escapes {path : Text} (h : escapes path = false) : Path.Guarded path := by
  simp only [escapes, Bool.or_eq_false_iff, decide_eq_false_iff_not] at h
  obtain ⟨⟨⟨hrel, hparent⟩, hstart⟩, hinner⟩ := h
  refine ⟨hrel, fun hmem ↦ ?_⟩
  by_cases hne : path = []
  · subst hne
    exact absurd hmem List.not_mem_nil
  · rw [Path.fromString_of_relative hrel hne] at hmem
    obtain ⟨init, rest, hsplit⟩ := List.append_of_mem hmem
    obtain ⟨next, more, hcut⟩ : ∃ next more,
        path.splitOn '/' = init ++ Path.parentArc :: next :: more := by
      obtain ⟨next, more, hrest⟩ := List.exists_cons_of_ne_nil (List.append_ne_nil_of_right_ne_nil
        rest (List.cons_ne_nil ((path.splitOn '/').getLast (List.splitOn_ne_nil _ _)) []))
      refine ⟨next, more, ?_⟩
      rw [← hrest, ← List.cons_append, ← List.append_assoc, ← hsplit]
      exact (List.dropLast_append_getLast _).symm
    have htext : path = concatWith ['/'] (init ++ Path.parentArc :: next :: more) := by
      rw [← hcut, concatWith_splitOn]
    by_cases hinit : init = []
    · subst hinit
      rw [List.nil_append, concatWith_cons_cons] at htext
      rw [htext] at hstart
      exact absurd hstart (by simp [Path.parentArc])
    · rw [concatWith_append hinit (List.cons_ne_nil _ _), concatWith_cons_cons] at htext
      exact hinner ⟨concatWith ['/'] init, concatWith ['/'] (next :: more), by
        rw [htext]
        simp [Path.parentArc]⟩

/-- The paths that pass the check are guarded. -/
theorem guarded_of_checkPaths {paths : List Text} (h : checkPaths paths = .ok ()) {path : Text}
    (hpath : path ∈ paths) : Path.Guarded path := by
  refine guarded_of_escapes ?_
  have hcheck := inOrder_eq_ok_iff.mp h _ (List.mem_map_of_mem hpath)
  rw [check_eq_ok_iff] at hcheck
  simpa using hcheck

/-- What a theory's spec has when it is accepted. -/
structure VerifiedAction (spec : ActionSpec) : Prop where
  inputKey : sha256Text spec.inputKey = true
  depsKey : sha256Text spec.depsKey = true
  depKeys : ∀ dep ∈ spec.deps, sha256Text dep.key = true
  suffixes : ∀ lib ∈ spec.libs, suffixOk lib = true
  paths : ∀ path ∈ actionSpecPaths spec [], Path.Guarded path

theorem verifiedAction {worker : Worker} {spec : ActionSpec}
    (h : verifyActionSpec worker spec = .ok ()) : VerifiedAction spec := by
  rw [verifyActionSpec] at h
  obtain ⟨extraDeps, -, h⟩ := bind_eq_ok_iff.mp h
  obtain ⟨sourceExtraDeps, -, h⟩ := bind_eq_ok_iff.mp h
  obtain ⟨_, hchecks, h⟩ := bind_eq_ok_iff.mp h
  obtain ⟨depPackages, -, h⟩ := bind_eq_ok_iff.mp h
  obtain ⟨libPackages, -, h⟩ := bind_eq_ok_iff.mp h
  have hall := inOrder_eq_ok_iff.mp hchecks
  simp only [List.forall_mem_cons, check_eq_ok_iff] at hall
  obtain ⟨-, -, -, hdepsKey, hdepKeys, hhash, -, -, -, -, -, -, -, -, -, -, hsuffixes, -⟩ := hall
  refine ⟨?_, hdepsKey, List.all_eq_true.mp hdepKeys, List.all_eq_true.mp hsuffixes, ?_⟩
  · rw [← of_decide_eq_true hhash]
    exact worker.sha256Text_hashText _
  · intro path hpath
    refine guarded_of_checkPaths h ?_
    simp only [actionSpecPaths, List.mem_append, List.mem_cons] at hpath ⊢
    tauto

/-- What a run's spec has when it is accepted. -/
structure VerifiedRun (spec : RunSpec) : Prop where
  depKeys : ∀ dep ∈ runSpecDeps spec, sha256Text dep.key = true
  suffixes : ∀ lib ∈ spec.libs, suffixOk lib = true
  outputs : ∀ name ∈ spec.outputs, validOutput name = true
  paths : ∀ path ∈ runSpecPaths spec [], Path.Guarded path

theorem verifiedRun {worker : Worker} {spec : RunSpec} (h : verifyRunSpec worker spec = .ok ()) :
    VerifiedRun spec := by
  rw [verifyRunSpec] at h
  obtain ⟨_, hchecks, h⟩ := bind_eq_ok_iff.mp h
  obtain ⟨depPackages, -, h⟩ := bind_eq_ok_iff.mp h
  obtain ⟨libPackages, -, h⟩ := bind_eq_ok_iff.mp h
  have hall := inOrder_eq_ok_iff.mp hchecks
  simp only [List.forall_mem_cons, check_eq_ok_iff] at hall
  obtain ⟨-, -, -, -, -, -, hcontext, -, -, houtputs, -, hdepKeys, hsuffixes, -⟩ := hall
  simp only [Bool.and_eq_true] at houtputs
  refine ⟨?_, List.all_eq_true.mp hsuffixes, List.all_eq_true.mp houtputs.1.2, ?_⟩
  · intro dep hdep
    rcases List.mem_append.mp hdep with hdep | hdep
    · exact List.all_eq_true.mp hdepKeys dep hdep
    · rw [Option.mem_toList] at hdep
      rw [hdep] at hcontext
      exact check_eq_ok_iff.mp hcontext
  · intro path hpath
    refine guarded_of_checkPaths h ?_
    simp only [runSpecPaths, List.mem_append, List.nil_append] at hpath ⊢
    tauto

end Holbuild.ExecAction
