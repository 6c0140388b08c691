import Holbuild.BuildPlan.Dependencies
import Holbuild.Library.DepthFirst

/-!
# Selecting and ordering the nodes to build

`planSelection` orders the nodes reachable from its roots along their bootstrap dependencies, makes
the resolved graph of these nodes, orders them again along its edges, and then rejects unresolved
names, sources that `use` others, and extra outputs that are misplaced or have two owners.
-/

set_option autoImplicit false
set_option relaxedAutoImplicit false

namespace Holbuild.BuildPlan

open Library

/-! ### External and unresolved dependencies -/

/-- `suffix` ends a longer or equal text. -/
def hasSuffix (suffix text : Text) : Bool := suffix.isSuffixOf text

/-- A name with a nonempty part before `Theory`. -/
def theoryName (name : Text) : Bool :=
  hasSuffix "Theory".toList name && decide ("Theory".toList.length < name.length)

def concatPath (root relative : Text) : Except PlanError Text :=
  match Library.Path.concat root relative with
  | some path => .ok path
  | none => .error .path

namespace Planner

variable (p : Planner)

/-- The toolchain has an object of this name. -/
def externalLoadAvailable (node : Node) (name : Text) : Except PlanError Bool :=
  node.externalDirs.anyM fun dir ↦ do
    let uo ← concatPath dir (name ++ ".uo".toList)
    if p.readable uo then .ok true
    else
      let ui ← concatPath dir (name ++ ".ui".toList)
      .ok (p.readable ui)

def noCandidate (node : Node) (reason : DependencyReason) (name : Text) : Bool :=
  (p.candidates node reason name).isEmpty

/-- The external dependencies a name of a node stands for. -/
def externalFact (node : Node) (fact : SymbolicDependency) :
    Except PlanError (List ExternalDependency) :=
  match fact.reason with
  | .declaredActionLoad =>
    .ok (if p.noCandidate node fact.reason fact.name then
      [⟨fact.fromNode, fact.name, .externalLibrary, fact.reason⟩] else [])
  | .declaredExtraInput => .ok [⟨fact.fromNode, fact.name, .externalInput, fact.reason⟩]
  | .extractedLoad =>
    if !p.noCandidate node fact.reason fact.name then .ok []
    else if theoryName fact.name then
      .ok [⟨fact.fromNode, fact.name, .externalTheory, fact.reason⟩]
    else do
      let available ← p.externalLoadAvailable node fact.name
      .ok (if available then [⟨fact.fromNode, fact.name, .externalLibrary, fact.reason⟩] else [])
  | .extractedHoldepMention =>
    if !p.noCandidate node fact.reason fact.name then .ok []
    else do
      let available ← p.externalLoadAvailable node fact.name
      let kind := if theoryName fact.name then ExternalDependencyKind.externalTheory
        else .externalLibrary
      .ok (if available then [⟨fact.fromNode, fact.name, kind, fact.reason⟩] else [])
  | .declaredActionDependency | .signatureCompanionReason => .ok []

def externalFor (node : Node) : Except PlanError (List ExternalDependency) := do
  let symbolic ← p.symbolicFor node
  let external ← symbolic.mapM (p.externalFact node)
  .ok external.flatten

/-- The unresolved dependencies a name of a node stands for. -/
def unresolvedFact (node : Node) (fact : SymbolicDependency) :
    Except PlanError (List UnresolvedDependency) :=
  if !p.noCandidate node fact.reason fact.name then .ok []
  else match fact.reason with
    | .declaredActionDependency => .ok [⟨fact.fromNode, fact.name, fact.reason⟩]
    | .extractedLoad =>
      if theoryName fact.name then .ok []
      else do
        let available ← p.externalLoadAvailable node fact.name
        .ok (if available then [] else [⟨fact.fromNode, fact.name, fact.reason⟩])
    | _ => .ok []

def unresolvedFor (node : Node) : Except PlanError (List UnresolvedDependency) := do
  let symbolic ← p.symbolicFor node
  let unresolved ← symbolic.mapM (p.unresolvedFact node)
  .ok unresolved.flatten

end Planner

/-! ### The resolved graph -/

/-- The dependencies of each node of a plan, sorted by the node's key. -/
structure ResolvedDependencyGraph where
  symbolic : List (Text × List SymbolicDependency)
  resolved : List (Text × List ResolvedDependencyEdge)
  external : List (Text × List ExternalDependency)
  unresolved : List (Text × List UnresolvedDependency)
  reverse : List (Text × List ResolvedDependencyEdge)
deriving DecidableEq, Repr

def graphValues {α : Type} (index : List (Text × List α)) (node : Node) : List α :=
  (lookup? index node.key).getD []

def dependencyPairs {α : Type} (nodes : List Node) (valuesFor : Node → Except PlanError (List α)) :
    Except PlanError (List (Text × List α)) := do
  let pairs ← nodes.mapM fun node ↦ do
    let values ← valuesFor node
    .ok (node.key, values)
  .ok (sortPairs byKey pairs)

/-- The edges into each node. -/
def reverseDependencyPairs (nodes : List Node) (resolved : List (Text × List ResolvedDependencyEdge)) :
    Except PlanError (List (Text × List ResolvedDependencyEdge)) :=
  let allEdges := nodes.flatMap (graphValues resolved)
  dependencyPairs nodes fun node ↦ .ok (allEdges.filter fun edge ↦ edge.toNode = node.key)

def Planner.buildResolvedDependencyGraph (p : Planner) (selected : List Node) :
    Except PlanError ResolvedDependencyGraph := do
  let symbolic ← dependencyPairs selected p.symbolicFor
  let resolved ← dependencyPairs selected p.resolvedFor
  let external ← dependencyPairs selected p.externalFor
  let unresolved ← dependencyPairs selected p.unresolvedFor
  let reverse ← reverseDependencyPairs selected resolved
  .ok ⟨symbolic, resolved, external, unresolved, reverse⟩

/-! ### The two sorts -/

def cycleMessage (path : List Node) (node : Node) : Text :=
  "dependency cycle: ".toList ++ concatWith " -> ".toList
    (node.logicalName :: path.map Node.logicalName).reverse

/-- The search along bootstrap dependencies, with the marks at the positions of all nodes. -/
def Planner.bootstrapSorter (p : Planner) : Sorter Node ℕ PlanError where
  locate node := indexedKeyId (buildKeyIndex p.nodes) node.key
  successors := p.bootstrapProjectDeps
  cycle path node := .cycle (cycleMessage path node)
  exhausted := .exhausted

def Planner.bootstrapTopoSort (p : Planner) (roots : List Node) : Except PlanError (List Node) :=
  p.bootstrapSorter.sort (p.nodes.length + 1) roots

/-- The node an edge leads to. -/
def edgeTarget (nodes : List Node) (keyIndex : List (Text × ℕ)) (edge : ResolvedDependencyEdge) :
    Except PlanError Node :=
  match (findKeyId keyIndex edge.toNode).bind fun id ↦ nodes[id]? with
  | some target => .ok target
  | none =>
    .error (.internal ("internal resolved dependency target is missing: ".toList ++ edge.toNode))

/-- The search along the edges of a graph, with the marks at the positions of its nodes. -/
def resolvedSorter (nodes : List Node) (graph : ResolvedDependencyGraph) :
    Sorter Node ℕ PlanError where
  locate node := indexedKeyId (buildKeyIndex nodes) node.key
  successors node := (graphValues graph.resolved node).mapM (edgeTarget nodes (buildKeyIndex nodes))
  cycle path node := .cycle (cycleMessage path node)
  exhausted := .exhausted

def topoSortResolved (nodes roots : List Node) (graph : ResolvedDependencyGraph) :
    Except PlanError (List Node) :=
  (resolvedSorter nodes graph).sort (nodes.length + 1) roots

/-! ### Rejections -/

def unresolvedMessage (node : Node) (dependency : UnresolvedDependency) : Text :=
  (if dependency.reason = .declaredActionDependency then "unresolved action dependency ".toList
    else "unresolved load ".toList) ++ dependency.name ++ " in ".toList ++ node.package ++
      ':' :: node.relativePath

/-- Raises the first unresolved dependency of the first node that has one. -/
def rejectGraphUnresolved (graph : ResolvedDependencyGraph) (selected : List Node) :
    Except PlanError Unit :=
  selected.forM fun node ↦
    match graphValues graph.unresolved node with
    | [] => .ok ()
    | dependency :: _ => .error (.rejected (unresolvedMessage node dependency))

def Planner.rejectSourceUses (p : Planner) (selected : List Node) : Except PlanError Unit :=
  selected.forM fun node ↦
    match (p.depsOf node).uses with
    | [] => .ok ()
    | used :: _ => .error (.rejected ("unsupported use ".toList ++ used ++ " in ".toList ++
        node.package ++ ':' :: node.relativePath ++
          "; declare a project module and load it instead".toList))

def pathComponents (path : Text) : List Text := tokens (fun c ↦ c = '/' || c = '\\') path

def hasGlobChar (path : Text) : Bool := path.any fun c ↦ c = '*' || c = '?' || c = '[' || c = ']'

/-- An extra output is a fixed relative path to a file, and only theory scripts declare one. -/
def validateExtraOutputDecl (node : Node) (path : Text) : Except PlanError Unit :=
  let context := "holbuild_extra_outputs in ".toList ++ node.source.sourcePath
  let components := pathComponents path
  if path = [] then .error (.rejected (context ++ " contains an empty path".toList))
  else if Path.isAbsolute path then
    .error (.rejected (context ++ " path must be relative to the declaring source: ".toList ++ path))
  else if ['.'] ∈ components ∨ ['.', '.'] ∈ components then
    .error (.rejected (context ++ " path must not contain . or .. components: ".toList ++ path))
  else if hasSuffix ['/'] path || hasSuffix ['\\'] path then
    .error (.rejected (context ++ " path must name a file, not a directory: ".toList ++ path))
  else if hasGlobChar path then
    .error (.rejected (context ++ " path must be a fixed file path, not a glob: ".toList ++ path))
  else if components = [] then
    .error (.rejected (context ++ " contains an invalid path: ".toList ++ path))
  else if node.source.kind = .theoryScript then .ok ()
  else .error (.rejected (context ++ " is only supported for theory-script actions".toList))

def extraOutputPath (node : Node) (declaration : Text) : Except PlanError Text := do
  let path ← concatPath (Path.dir node.source.sourcePath) declaration
  .ok (Path.mkCanonical path)

/-- The extra outputs of a node, each with its owner. -/
def Planner.outputs (p : Planner) (node : Node) : Except PlanError (List (Text × Node)) := do
  let declarations := (p.depsOf node).extraOutputs
  declarations.forM (validateExtraOutputDecl node)
  declarations.mapM fun declaration ↦ do
    let path ← extraOutputPath node declaration
    if p.isDir path then
      .error (.rejected ("holbuild_extra_outputs path is a directory: ".toList ++ path))
    else .ok (path, node)

/-- Adds an extra output to the owners known, unless another node owns it. -/
def insertOwner (owners : List (Text × Node)) (output : Text × Node) :
    Except PlanError (List (Text × Node)) :=
  match owners.find? fun owner ↦ owner.1 = output.1 with
  | none => .ok (output :: owners)
  | some existing =>
    if existing.2.key = output.2.key then .ok owners
    else .error (.rejected ("extra output has multiple owners: ".toList ++ output.1 ++
      " (".toList ++ existing.2.logicalName ++ " and ".toList ++ output.2.logicalName ++ [')']))

def Planner.validateExtraOutputOwnership (p : Planner) (selected : List Node) :
    Except PlanError Unit := do
  let outputs ← selected.mapM p.outputs
  let _ ← outputs.flatten.foldlM insertOwner []
  .ok ()

/-! ### Plans -/

/-- All targets, or the ones named. -/
inductive TargetSelection
  | allTargets
  | selectedTargets (targets : List Text)
deriving DecidableEq, Repr

def Planner.findTarget (p : Planner) (target : Text) : Except PlanError (List Node) :=
  match p.lookup target with
  | [] => .error (.unknownTarget target (p.nodes.map Node.logicalName))
  | found => .ok found

def Planner.targetRoots (p : Planner) : TargetSelection → Except PlanError (List Node)
  | .allTargets => .ok p.nodes
  | .selectedTargets targets => do
    let roots ← targets.mapM p.findTarget
    .ok roots.flatten

/-- A plan: all nodes, the roots, the selected nodes in the order to build them, their dependencies,
and where in this order each node and its dependencies stand. -/
structure Plan where
  nodes : List Node
  roots : List Node
  selected : List Node
  dependencyGraph : ResolvedDependencyGraph
  selectedKeyIndex : List (Text × ℕ)
  selectedAdjacency : List (List ℕ)
  holdir : Text
deriving DecidableEq, Repr

/-- The positions of each node's dependencies in the selected order. -/
def buildSelectedAdjacency (keyIndex : List (Text × ℕ)) (selected : List Node)
    (graph : ResolvedDependencyGraph) : Except PlanError (List (List ℕ)) :=
  selected.mapM fun node ↦
    (graphValues graph.resolved node).mapM fun edge ↦ indexedKeyId keyIndex edge.toNode

def assemble (nodes roots selected : List Node) (graph : ResolvedDependencyGraph) (holdir : Text) :
    Except PlanError Plan := do
  let keyIndex := buildKeyIndex selected
  let adjacency ← buildSelectedAdjacency keyIndex selected graph
  .ok ⟨nodes, roots, selected, graph, keyIndex, adjacency, holdir⟩

def Planner.planSelection (p : Planner) (holdir : Text) (selection : TargetSelection) :
    Except PlanError Plan := do
  let roots ← p.targetRoots selection
  let reachable ← p.bootstrapTopoSort roots
  let graph ← p.buildResolvedDependencyGraph reachable
  let selected ← topoSortResolved reachable roots graph
  rejectGraphUnresolved graph selected
  p.rejectSourceUses selected
  p.validateExtraOutputOwnership selected
  assemble p.nodes roots selected graph holdir

/-- The nodes of the sources found, with the toolchain's directory of objects. -/
def makeNodes (holdir : Text) (sources : List Source) : List Node :=
  let externalDirs := [Path.mkCanonical (Path.append holdir "sigobj".toList)]
  sources.map fun source ↦ ⟨source, externalDirs⟩

end Holbuild.BuildPlan
