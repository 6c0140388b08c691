import Holbuild.ExecAction.Verification

/-!
# The paths of a spec

The paths that a worker derives from the fields of a spec and reads, writes, creates or removes while
it executes the action: those of a theory (`actionPaths`) and those of a run (`runPaths`). Paths are
appended to the action root or to the checkpoint root, two directories of the worker's cache. Names
that the toolchain looks up, keys and hashes that address the cache, and files whose names do not
depend on the spec are not among them.
-/

set_option autoImplicit false
set_option relaxedAutoImplicit false

namespace Holbuild.ExecAction

open Library

/-- The cache of a worker: its directory, the working directory from which that is found, and the
extra outputs that the cached entry of a key declares. -/
structure Cache where
  cwd : Path.Place
  dir : Text
  entryExtras : Text → List Text

namespace Cache

variable (cache : Cache)

def root : Text := Path.append cache.dir "action".toList

def checkpointRoot : Text := Path.append cache.dir "checkpoints".toList

end Cache

/-! ### Paths below a root -/

def inRoot (root path : Text) : Text := if Path.isAbsolute path then path else Path.append root path

def hfsRemappedPath (path : Text) : Text :=
  Path.append (Path.append (Path.dir path) ".hol/objs".toList) (Path.file path)

/-- A file and its remapped copy. -/
def remapped (path : Text) : List Text := [path, hfsRemappedPath path]

/-- A path without its suffix, if it has it. -/
def dropSuffix (suffix path : Text) : Option Text :=
  if suffix.isSuffixOf path then some (path.take (path.length - suffix.length)) else none

def actionSourcePath (package path : Text) : Text :=
  Path.mkCanonical (concatWith ['/'] [".holbuild/action-src".toList, package, path])

def stageRootAt (root inputKey : Text) : Text :=
  Path.append (Path.append root ".holbuild/stage".toList) inputKey

def currentLogDir (root package logical : Text) : Text :=
  Path.append (Path.append (Path.append (Path.append root ".holbuild/logs".toList)
    "current".toList) package) logical

def checkpointBaseIn (checkpointRoot package relativePath : Text) : Text :=
  Path.append (Path.append checkpointRoot package) relativePath

def depsLoadedPath (base depsKey : Text) : Text :=
  Path.append (Path.append (base ++ ".deps".toList) depsKey) "deps_loaded.save".toList

def stagedTheoryFile (stage logical ext : Text) : Text :=
  Path.append (Path.append stage ".hol/objs".toList) (logical ++ ext)

/-! ### Restored theories and libraries -/

section Hydration

variable (cache : Cache)

/-- Where an extra output of a restored entry goes, apart from the sources. -/
def extraDestination (key declaration : Text) : Option Text :=
  if escapes declaration then none
  else some (inRoot cache.root
    (Path.mkCanonical (concatWith ['/'] [".holbuild/action-extra".toList, key, declaration])))

/-- The files of a theory that is restored at a stem. -/
def restoredPaths (key stem : Text) : List Text :=
  ([".sig", ".sml", ".dat", ".tr.gz", ".ui", ".uo"].flatMap fun ext ↦
      remapped (inRoot cache.root stem ++ ext.toList)) ++
    (cache.entryExtras key).filterMap (extraDestination cache key)

/-- A dependency's files and its stem, which load manifests name. -/
def depPaths (dep : DepLine) : List Text :=
  inRoot cache.root dep.stem :: restoredPaths cache dep.key dep.stem

/-- A library's manifest, the paths it loads, and the library's stem. -/
def libPaths (lib : LibLine) : List Text :=
  inRoot cache.root lib.stem :: remapped (inRoot cache.root (lib.stem ++ lib.suffix)) ++
    (loadPaths [lib]).map (inRoot cache.root)

/-- What a spec's dependencies take. -/
def hydratedPaths (libraries : List SpecFile) (deps : List DepLine) (libs : List LibLine) :
    List Text :=
  (libraries.map fun file ↦ inRoot cache.root file.path) ++ libs.flatMap (libPaths cache) ++
    deps.flatMap (depPaths cache)

end Hydration

/-! ### Theories -/

section Theory

variable (cache : Cache) (spec : ActionSpec)

/-- The script's directory in the package. -/
def scriptDir : Text :=
  if Path.dir spec.source.path = [] then [] else Path.mkCanonical (Path.dir spec.source.path)

def stageRoot : Text := stageRootAt cache.root spec.inputKey

def actionStage : Text :=
  if scriptDir spec = [] then stageRoot cache spec
  else Path.mkCanonical (Path.append (stageRoot cache spec) (scriptDir spec))

def sourceFile : Text := inRoot cache.root (actionSourcePath spec.package spec.source.path)

def stagedExtraOutputPath (stage declaration : Text) : Option Text :=
  (Library.Path.concat stage declaration).map Path.mkCanonical

/-- What a preload's load names by a path: an object by its stem in the action root, a HOL theory or
library only when its name has a slash, from the stage, where HOL runs. -/
def preloadPath (stage : Text) : TheoryLoad → Option Text
  | .theory name => if '/' ∈ name then some (inRoot stage name) else none
  | .library name => if '/' ∈ name then some (inRoot stage name) else none
  | .object stem => some (inRoot cache.root stem)

def checkpointBase : Text :=
  checkpointBaseIn cache.checkpointRoot spec.package spec.source.path

/-- The checkpoint base, the directory searched for its files, and its trees. -/
def checkpointPaths : List Text :=
  let base := checkpointBase cache spec
  [base, Path.dir base, base ++ ".theorems".toList, base ++ ".decls".toList, base ++ ".deps".toList,
    depsLoadedPath base spec.depsKey]

def logPaths : List Text :=
  let dir := currentLogDir cache.root spec.package spec.logical
  ["build.log", "instrumented-failure.log", "proof-trace.log"].map fun name ↦
    Path.append dir name.toList

/-- The files of the stage that holbuild and the theory's export write. -/
def stagePaths (stage : Text) : List Text :=
  [stage, Path.append stage (Path.file (sourceFile cache spec)),
    Path.append stage (spec.logical ++ ".dat".toList)] ++
  ([".sig", ".sml", ".dat", ".tr.gz"].map fun ext ↦
    stagedTheoryFile stage spec.logical ext.toList) ++
  spec.inputs.map fun file ↦ Path.mkCanonical (inRoot (stageRoot cache spec) file.path)

def outputPaths : List Text :=
  [spec.outputs.dataPath, spec.outputs.sigPath, spec.outputs.smlPath].flatMap fun path ↦
    remapped (inRoot cache.root path)

/-- What running the theory takes. An output without its suffix or an absolute extra output raises
before anything is staged. -/
def theoryPaths : List Text :=
  let stage := actionStage cache spec
  match dropSuffix ".dat".toList spec.outputs.dataPath,
    spec.extraOutputs.mapM (stagedExtraOutputPath stage) with
  | some _, some staged =>
    stagePaths cache spec stage ++ staged ++ spec.loads.filterMap (preloadPath cache stage) ++
      outputPaths cache spec
  | _, _ => []

/-- The files of the action's own entry, if it is in the cache. -/
def ownEntryPaths : List Text :=
  match dropSuffix ".dat".toList spec.outputs.dataPath with
  | some stem =>
    inRoot cache.root spec.outputs.dataPath :: restoredPaths cache spec.inputKey stem
  | none => []

/-- The paths of a theory's spec. -/
def actionPaths : List Text :=
  (spec.source :: spec.inputs).map (fun file ↦
      inRoot cache.root (actionSourcePath spec.package file.path)) ++
    hydratedPaths cache spec.libraries spec.deps spec.libs ++ ownEntryPaths cache spec ++
    checkpointPaths cache spec ++ logPaths cache spec ++ theoryPaths cache spec

end Theory

/-! ### Runs -/

section Run

variable (cache : Cache) (spec : RunSpec)

def runSourceDir : Text := ".holbuild/run-src".toList

def runOutputDir : Text := ".holbuild/run-output".toList

/-- What a run-load loads by a path: the stem of the library it names. -/
def runLoadPath (name : Text) : Option Text :=
  if hollibStart.isPrefixOf name then none
  else (runLoadLib spec name).map fun lib ↦ inRoot cache.root lib.stem

/-- The paths of a run's spec. -/
def runPaths : List Text :=
  (spec.supports.map fun file ↦ Path.append (inRoot cache.root runSourceDir) file.path) ++
    (spec.contextScripts.map fun file ↦ inRoot cache.root file.path) ++
    hydratedPaths cache spec.libraries (runSpecDeps spec) spec.libs ++
    spec.runLoads.filterMap (runLoadPath cache spec) ++
    spec.outputs.map fun name ↦ Path.append (inRoot cache.root runOutputDir) name

end Run

end Holbuild.ExecAction
