import Holbuild.BuildPlan.Files

/-!
# Input keys

The input key of a node is the hash of its action text: the toolchain, the source and its content
hash, the policy, the configuration, the declarations, the extra inputs with their content hashes, and
each dependency with its own key. Keys are computed along the selected order; a key found earlier is
kept while the toolchain, the configuration and the dependencies' keys it was made of are the same.
-/

set_option autoImplicit false
set_option relaxedAutoImplicit false

namespace Holbuild.BuildPlan

open Library

/-- What the keys of a plan are computed from: its analysis, the content of each source, the file
system, the hash, and what configures an action besides the plan. -/
structure KeyContext where
  plan : Plan
  analysis : Source → Dependencies
  sourceText : Source → Text
  root : Entry
  hash : Text → Text
  configLines : Node → List Text
  toolchainKey : Text

/-- A node's input key as an earlier computation found it, with what it was computed from besides the
node's own source and inputs. -/
structure KnownInputKey where
  toolchainKey : Text
  configLines : List Text
  depKeys : List Text
  inputKey : Text
  extraInputsKey : Option Text
deriving DecidableEq, Repr

/-- The known input keys and the extra-inputs keys of the plan's nodes, by position. -/
structure KeyCache where
  known : ℕ → Option KnownInputKey
  extraInputsKey : ℕ → Option (Option Text)

/-- The input keys computed so far, by node key. -/
abbrev InputKeys := Text → Option Text

def kindName : Kind → Text
  | .theoryScript => "theory".toList
  | .sml => "sml".toList
  | .sig => "sig".toList

def boolText (b : Bool) : Text := if b then "true".toList else "false".toList

namespace KeyContext

variable (c : KeyContext)

def depsOf (node : Node) : Dependencies := c.analysis node.source

def sourceHash (node : Node) : Text := c.hash (c.sourceText node.source)

/-! ### Dependencies of a selected node -/

/-- The nodes a node's edges lead to. -/
def directProjectDeps (node : Node) : Except PlanError (List Node) := do
  let targets ← (graphValues c.plan.dependencyGraph.resolved node).mapM fun edge ↦ do
    let id ← indexedKeyId c.plan.selectedKeyIndex edge.toNode
    match c.plan.selected[id]? with
    | some target => .ok target
    | none => .error (.internal "Subscript".toList)
  .ok (uniqueNodes targets)

def directExternalTheories (node : Node) : List Text :=
  uniqueStrings ((graphValues c.plan.dependencyGraph.external node).filterMap fun dependency ↦
    if dependency.kind = .externalTheory then some dependency.name else none)

def directExternalLibs (node : Node) : List Text :=
  let dependencies := graphValues c.plan.dependencyGraph.external node
  let names := fun reason ↦ dependencies.filterMap fun dependency ↦
    if dependency.kind = .externalLibrary ∧ dependency.reason = reason then some dependency.name
    else none
  uniqueStrings (names .declaredActionLoad ++ names .extractedHoldepMention ++ names .extractedLoad)

/-! ### Extra inputs -/

/-- An extra-input declaration: its label, its base directory and what it declares. -/
structure InputDecl where
  label : Text
  base : Text
  decl : Text
deriving DecidableEq, Repr

/-- The node's extra-input declarations, those of the manifest first. -/
def extraInputDecls (node : Node) : List InputDecl :=
  node.source.policy.extraInputs.map (fun path ↦
    ⟨"extra_dep".toList, node.source.packageRoot, path⟩) ++
  (c.depsOf node).extraDeps.map fun decl ↦
    ⟨"source_extra_dep".toList, Path.dir node.source.sourcePath, decl⟩

/-- The content hash of an extra input. -/
def inputHash (path : Text) : Except PlanError Text :=
  match c.root.content path with
  | some content => .ok (c.hash content)
  | none => .error (.rejected ("extra dependency not found: ".toList ++ path))

/-- The lines of a declaration: what it declares, and the files it names with their hashes. -/
def declLines (decl : InputDecl) : Except PlanError (List Text) := do
  let expansion ← expandExtraDepWalk c.root decl.base decl.decl
  let files ← expansion.files.mapM fun file ↦ do
    let hash ← c.inputHash file.2
    .ok (file.1 ++ '@' :: hash)
  .ok ((decl.label ++ "_decl=".toList ++ decl.decl) ::
    (sortStrings files).map fun line ↦ decl.label ++ '=' :: line)

def extraInputLines (node : Node) : Except PlanError (List Text) := do
  let lines ← (c.extraInputDecls node).mapM c.declLines
  .ok lines.flatten

/-- The key of a node's extra inputs, if it has any. -/
def extraInputsKeyOf (lines : List Text) : Option Text :=
  match lines with
  | [] => none
  | _ => some (c.hash (concatWith ['\n'] ("holbuild-extra-inputs-v1".toList :: lines) ++ ['\n']))

/-! ### Actions -/

/-- The script's recorded path when it is under the toolchain. -/
def toolchainSourceName (node : Node) : Option Text :=
  let path := Path.mkCanonical node.source.sourcePath
  let dir := Path.mkCanonical c.plan.holdir
  if c.plan.holdir ≠ [] ∧ (dir ++ ['/']).isPrefixOf path then
    some ("$(HOLDIR)/".toList ++ path.drop (dir.length + 1))
  else none

/-- The lines before the source's content hash. -/
def headLines (node : Node) : List Text :=
  ["holbuild-action-v1".toList, "toolchain=".toList ++ c.toolchainKey,
    "kind=".toList ++ kindName node.source.kind, "package=".toList ++ node.package,
    "logical=".toList ++ node.logicalName, "source=".toList ++ node.relativePath]

/-- The lines between the source's content hash and the extra inputs. -/
def policyLines (node : Node) : List Text :=
  (match node.source.kind, c.toolchainSourceName node with
    | .theoryScript, some name => ["source-name=".toList ++ name]
    | _, _ => []) ++
  ["cache=".toList ++ boolText node.source.policy.cache,
    "always_reexecute=".toList ++ boolText node.source.policy.alwaysReexecute] ++
  c.configLines node ++
  node.source.policy.deps.map (fun dep ↦ "declared_dep=".toList ++ dep) ++
  node.source.policy.loads.map fun dep ↦ "declared_load=".toList ++ dep

/-- The lines of a node's action, with each project dependency written by `depText` and the node's
extra inputs as `inputLines`. -/
def actionLinesWith (depTexts inputLines : List Text) (node : Node) : List Text :=
  c.headLines node ++ ["source-sha256=".toList ++ c.sourceHash node] ++ c.policyLines node ++
    inputLines ++
    (c.depsOf node).extraOutputs.map (fun output ↦ "source_extra_output=".toList ++ output) ++
    (depTexts ++ (c.directExternalTheories node).map (fun name ↦ "HOL:".toList ++ name) ++
      (c.directExternalLibs node).map (fun name ↦ "HOLLIB:".toList ++ name)).map fun dep ↦
        "dep=".toList ++ dep

def lookupKey (keys : InputKeys) (dep : Node) : Except PlanError Text :=
  match keys dep.key with
  | some inputKey => .ok inputKey
  | none =>
    .error (.internal ("missing action key for dependency: ".toList ++ dep.logicalName))

/-- A project dependency with its key. -/
def depText (dep : Node) (inputKey : Text) : Text :=
  dep.package ++ ':' :: dep.logicalName ++ '@' :: inputKey

/-- The action text of a node, with the lines of its extra inputs. -/
def actionTextWith (keys : InputKeys) (node : Node) : Except PlanError (Text × List Text) := do
  let inputLines ← c.extraInputLines node
  let deps ← c.directProjectDeps node
  let depTexts ← deps.mapM fun dep ↦ do
    let inputKey ← lookupKey keys dep
    .ok (depText dep inputKey)
  .ok (concatWith ['\n'] (c.actionLinesWith depTexts inputLines node) ++ ['\n'], inputLines)

/-- Computes the input key of the node at a position and remembers what it was computed from. -/
def freshInputKey (keys : InputKeys) (cache : KeyCache) (node : Node) (id : ℕ)
    (depKeys : List Text) : Except PlanError (Text × KeyCache) := do
  let action ← c.actionTextWith keys node
  let inputKey := c.hash action.1
  let extraInputsKey := c.extraInputsKeyOf action.2
  .ok (inputKey,
    { known := Function.update cache.known id
        (some ⟨c.toolchainKey, c.configLines node, depKeys, inputKey, extraInputsKey⟩)
      extraInputsKey := Function.update cache.extraInputsKey id (some extraInputsKey) })

/-- Computes the input key of a node, or takes it from an earlier computation. -/
def inputKeyWith (keys : InputKeys) (cache : KeyCache) (node : Node) :
    Except PlanError (Text × KeyCache) := do
  let id ← indexedKeyId c.plan.selectedKeyIndex node.key
  let deps ← c.directProjectDeps node
  let depKeys ← deps.mapM (lookupKey keys)
  match cache.known id with
  | some known =>
    if known.toolchainKey = c.toolchainKey ∧ known.configLines = c.configLines node ∧
        known.depKeys = depKeys then
      .ok (known.inputKey, { cache with
        extraInputsKey := Function.update cache.extraInputsKey id (some known.extraInputsKey) })
    else c.freshInputKey keys cache node id depKeys
  | none => c.freshInputKey keys cache node id depKeys

/-- Adds the input key of a node. -/
def addInputKeyWith (state : InputKeys × KeyCache) (node : Node) :
    Except PlanError (InputKeys × KeyCache) := do
  let (inputKey, cache) ← c.inputKeyWith state.1 state.2 node
  .ok (Function.update state.1 node.key (some inputKey), cache)

/-- Computes the input keys of the selected nodes, in their order. -/
def computeInputKeysWith (cache : KeyCache) : Except PlanError (InputKeys × KeyCache) :=
  c.plan.selected.foldlM c.addInputKeyWith (fun _ ↦ none, cache)

end KeyContext

end Holbuild.BuildPlan
