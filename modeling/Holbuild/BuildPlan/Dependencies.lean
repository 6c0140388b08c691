import Holbuild.BuildPlan.Nodes
import Holbuild.Library.Outcomes

/-!
# The two dependency functions of planning

Reachability and the first order follow `bootstrapProjectDeps`: signature companions, the nodes of the
loaded and declared names and the nodes a source mentions, without repetition. The resolved graph is
made anew from the symbolic dependencies of each node, every one with its reason and its candidates
(`resolvedFor`). Both name the same nodes (`mem_bootstrapProjectDeps_iff`).
-/

set_option autoImplicit false
set_option relaxedAutoImplicit false

namespace Holbuild.BuildPlan

open Library

/-! ### Facts of a package's component -/

/-- Why a component's source names something. -/
inductive SymbolicReason
  | declaredDependency | declaredLoad | signatureCompanion | declaredExtraInput
deriving DecidableEq, Repr

/-- What a component's source names: a logical name or an input file. -/
inductive SymbolicFact
  | logicalReference (fromNode logicalName : Text) (reason : SymbolicReason)
  | inputReference (fromNode relativePath : Text) (reason : SymbolicReason)
deriving DecidableEq, Repr

def SymbolicFact.fromNode : SymbolicFact → Text
  | .logicalReference fromNode _ _ => fromNode
  | .inputReference fromNode _ _ => fromNode

/-- A package and the sources its component was made of. -/
structure Instance where
  packageName : Text
  nodes : List Source
deriving DecidableEq, Repr

/-- The component has a signature of a structure's name. -/
def matchingSignature (nodes : List Source) (node : Source) : Bool :=
  node.kind = .sml && nodes.any fun candidate ↦
    candidate.kind = .sig && candidate.logicalName = node.logicalName

/-- The facts of one source of a component. -/
def factsForNode (nodes : List Source) (node : Source) : List SymbolicFact :=
  let logical := fun reason name ↦ SymbolicFact.logicalReference node.id name reason
  let companion :=
    if matchingSignature nodes node then [logical .signatureCompanion node.logicalName] else []
  node.policy.deps.map (logical .declaredDependency) ++
    node.policy.loads.map (logical .declaredLoad) ++ companion ++
      node.policy.extraInputs.map fun path ↦ .inputReference node.id path .declaredExtraInput

/-- The facts of the sources of a component. -/
def Instance.symbolicFacts (instance' : Instance) : List SymbolicFact :=
  instance'.nodes.flatMap (factsForNode instance'.nodes)

/-- The facts of a source, in the component of its package. -/
def componentSymbolicFacts (components : List Instance) (source : Source) :
    Except PlanError (List SymbolicFact) :=
  match components.find? fun instance' ↦ instance'.packageName = source.package with
  | none => .error (.internal ("component instance is missing for package ".toList ++ source.package))
  | some instance' =>
    .ok (instance'.symbolicFacts.filter fun fact ↦ fact.fromNode = source.id)

/-! ### Dependencies and edges -/

/-- Why a node depends on something. -/
inductive DependencyReason
  | extractedLoad | extractedHoldepMention | declaredActionDependency | declaredActionLoad
  | declaredExtraInput | signatureCompanionReason
deriving DecidableEq, Repr

structure SymbolicDependency where
  fromNode : Text
  name : Text
  reason : DependencyReason
deriving DecidableEq, Repr

structure ResolvedDependencyEdge where
  fromNode : Text
  toNode : Text
  symbolicName : Text
  reason : DependencyReason
deriving DecidableEq, Repr

inductive ExternalDependencyKind
  | externalTheory | externalLibrary | externalInput
deriving DecidableEq, Repr

structure ExternalDependency where
  fromNode : Text
  name : Text
  kind : ExternalDependencyKind
  reason : DependencyReason
deriving DecidableEq, Repr

structure UnresolvedDependency where
  fromNode : Text
  name : Text
  reason : DependencyReason
deriving DecidableEq, Repr

/-- What planning works on: the components of the packages, the analysis of each source, all nodes,
and which files the toolchain has. -/
structure Planner where
  components : List Instance
  analysis : Source → Dependencies
  nodes : List Node
  readable : Text → Bool
  isDir : Text → Bool

namespace Planner

variable (p : Planner)

def depsOf (node : Node) : Dependencies := p.analysis node.source

def lookup (name : Text) : List Node := BuildPlan.lookup p.nodes name

/-! ### Bootstrap dependencies -/

/-- The name a component declares as a dependency or a load. -/
def declaredName : SymbolicFact → Option Text
  | .logicalReference _ name .declaredDependency => some name
  | .logicalReference _ name .declaredLoad => some name
  | _ => none

/-- The names a node loads or declares. -/
def bootstrapDependencyNames (node : Node) : Except PlanError (List Text) := do
  let facts ← componentSymbolicFacts p.components node.source
  .ok (uniqueStrings ((p.depsOf node).loads ++ facts.filterMap declaredName))

/-- The other nodes a source mentions. -/
def bootstrapHoldepProjectDeps (node : Node) : List Node :=
  uniqueNodes (((p.depsOf node).holdepMentions.flatMap p.lookup).filter fun candidate ↦
    candidate.key ≠ node.key)

/-- The signatures of a structure's name in its package. -/
def signatureCompanionDeps (node : Node) : List Node :=
  match node.source.kind with
  | .sml => (p.lookup node.logicalName).filter fun candidate ↦
      candidate.package = node.package && candidate.source.kind = .sig
  | _ => []

/-- The nodes that planning visits before a node. -/
def bootstrapProjectDeps (node : Node) : Except PlanError (List Node) := do
  let names ← p.bootstrapDependencyNames node
  let namedDeps := names.flatMap p.lookup
  .ok (uniqueNodes ((p.signatureCompanionDeps node ++ namedDeps ++
    p.bootstrapHoldepProjectDeps node).filter fun candidate ↦ candidate.key ≠ node.key))

/-! ### Resolved dependencies -/

/-- The dependency a component's fact stands for. -/
def componentFact (fromNode : Text) : SymbolicFact → Except PlanError SymbolicDependency
  | .logicalReference _ name .declaredDependency => .ok ⟨fromNode, name, .declaredActionDependency⟩
  | .logicalReference _ name .declaredLoad => .ok ⟨fromNode, name, .declaredActionLoad⟩
  | .logicalReference _ name .signatureCompanion => .ok ⟨fromNode, name, .signatureCompanionReason⟩
  | .logicalReference _ _ .declaredExtraInput =>
    .error (.internal "internal logical extra-input component fact".toList)
  | .inputReference _ path _ => .ok ⟨fromNode, path, .declaredExtraInput⟩

/-- The dependencies a node names, with their reasons. -/
def symbolicFor (node : Node) : Except PlanError (List SymbolicDependency) := do
  let deps := p.depsOf node
  let facts ← componentSymbolicFacts p.components node.source
  let declared ← facts.mapM (componentFact node.key)
  .ok (deps.loads.map (fun name ↦ ⟨node.key, name, .extractedLoad⟩) ++
    deps.holdepMentions.map (fun name ↦ ⟨node.key, name, .extractedHoldepMention⟩) ++ declared)

/-- The nodes a dependency may mean. -/
def candidates (node : Node) (reason : DependencyReason) (name : Text) : List Node :=
  match reason with
  | .signatureCompanionReason => p.signatureCompanionDeps node
  | .declaredExtraInput => []
  | _ => (p.lookup name).filter fun candidate ↦ candidate.key ≠ node.key

/-- The edges of a dependency. -/
def resolveFact (node : Node) (fact : SymbolicDependency) : List ResolvedDependencyEdge :=
  (p.candidates node fact.reason fact.name).map fun target ↦
    ⟨fact.fromNode, target.key, fact.name, fact.reason⟩

/-- The edges of a node. -/
def resolvedFor (node : Node) : Except PlanError (List ResolvedDependencyEdge) := do
  let symbolic ← p.symbolicFor node
  .ok (symbolic.flatMap (p.resolveFact node))

/-! ### Both functions name the same nodes -/

/-- Every node's source is one of the sources its package's component was made of. -/
def Described : Prop :=
  ∀ node ∈ p.nodes, ∃ instance' ∈ p.components,
    (p.components.find? fun other ↦ other.packageName = node.package) = some instance' ∧
      node.source ∈ instance'.nodes

instance : Decidable p.Described :=
  inferInstanceAs (Decidable (∀ node ∈ p.nodes, ∃ instance' ∈ p.components,
    (p.components.find? fun other ↦ other.packageName = node.package) = some instance' ∧
      node.source ∈ instance'.nodes))

variable {p} {node target : Node}

theorem mem_lookup {name : Text} :
    target ∈ p.lookup name ↔ target ∈ p.nodes ∧ target.logicalName = name :=
  BuildPlan.mem_lookup

theorem lookup_subset (name : Text) : p.lookup name ⊆ p.nodes := fun _ h ↦ (mem_lookup.mp h).1

theorem signatureCompanionDeps_subset (node : Node) : p.signatureCompanionDeps node ⊆ p.nodes := by
  intro target htarget
  unfold signatureCompanionDeps at htarget
  split at htarget
  · exact lookup_subset _ (List.mem_of_mem_filter htarget)
  · exact absurd htarget List.not_mem_nil

/-- A signature companion is another node. -/
theorem kind_of_mem_signatureCompanionDeps (h : target ∈ p.signatureCompanionDeps node) :
    node.source.kind = .sml ∧ target.source.kind = .sig ∧ target.package = node.package ∧
      target.logicalName = node.logicalName := by
  unfold signatureCompanionDeps at h
  split at h
  next hkind =>
    obtain ⟨hmem, hcond⟩ := List.mem_filter.mp h
    rw [Bool.and_eq_true, decide_eq_true_eq, decide_eq_true_eq] at hcond
    exact ⟨hkind, hcond.2, hcond.1, (mem_lookup.mp hmem).2⟩
  next => exact absurd h List.not_mem_nil

/-- The dependency of a fact, where `componentFact` does not raise. -/
def factDependency (fromNode : Text) : SymbolicFact → SymbolicDependency
  | .logicalReference _ name .declaredDependency => ⟨fromNode, name, .declaredActionDependency⟩
  | .logicalReference _ name .declaredLoad => ⟨fromNode, name, .declaredActionLoad⟩
  | .logicalReference _ name .signatureCompanion => ⟨fromNode, name, .signatureCompanionReason⟩
  | .logicalReference _ name .declaredExtraInput => ⟨fromNode, name, .declaredExtraInput⟩
  | .inputReference _ path _ => ⟨fromNode, path, .declaredExtraInput⟩

/-- The facts of a component never name a logical name as an extra input. -/
theorem componentFact_eq_ok {nodes : List Source} {source : Source} {fact : SymbolicFact}
    (h : fact ∈ factsForNode nodes source) (fromNode : Text) :
    componentFact fromNode fact = .ok (factDependency fromNode fact) := by
  simp only [factsForNode, List.mem_append, List.mem_map] at h
  rcases h with ((⟨name, -, rfl⟩ | ⟨name, -, rfl⟩) | hcompanion) | ⟨path, -, rfl⟩
  · rfl
  · rfl
  · split at hcompanion
    · rw [List.mem_singleton.mp hcompanion]
      rfl
    · exact absurd hcompanion List.not_mem_nil
  · rfl

/-- What planning finds of a node: the facts of its component, all of which stand for dependencies,
and among them one for the signature companions, if there are any. -/
theorem exists_facts (hdescribed : p.Described) (hnode : node ∈ p.nodes) :
    ∃ facts, componentSymbolicFacts p.components node.source = .ok facts ∧
      (∀ fact ∈ facts, componentFact node.key fact = .ok (factDependency node.key fact)) ∧
      (p.signatureCompanionDeps node ≠ [] →
        .logicalReference node.source.id node.logicalName .signatureCompanion ∈ facts) := by
  obtain ⟨instance', -, hfind, hmem⟩ := hdescribed node hnode
  refine ⟨instance'.symbolicFacts.filter fun fact ↦ fact.fromNode = node.source.id, ?_, ?_, ?_⟩
  · rw [componentSymbolicFacts]
    have hfind' : (p.components.find? fun other ↦ other.packageName = node.source.package) =
        some instance' := hfind
    rw [hfind']
  · intro fact hfact
    obtain ⟨source, -, hsource⟩ := List.mem_flatMap.mp (List.mem_of_mem_filter hfact)
    exact componentFact_eq_ok hsource node.key
  · intro hne
    obtain ⟨companion, hcompanion⟩ := List.exists_mem_of_ne_nil _ hne
    obtain ⟨hsml, hsig, hpackage, hname⟩ := kind_of_mem_signatureCompanionDeps hcompanion
    obtain ⟨other, -, hfindOther, hmemOther⟩ :=
      hdescribed companion (signatureCompanionDeps_subset node hcompanion)
    -- the companion's component is the structure's: both are the first of their package
    rw [hpackage, hfind, Option.some.injEq] at hfindOther
    subst hfindOther
    have hmatching : matchingSignature instance'.nodes node.source = true := by
      rw [matchingSignature, Bool.and_eq_true, List.any_eq_true]
      refine ⟨decide_eq_true hsml, companion.source, hmemOther, ?_⟩
      rw [Bool.and_eq_true]
      exact ⟨decide_eq_true hsig, decide_eq_true hname⟩
    refine List.mem_filter.mpr ⟨List.mem_flatMap.mpr ⟨node.source, hmem, ?_⟩, ?_⟩
    · simp [factsForNode, hmatching, Node.logicalName]
    · exact decide_eq_true rfl

/-- The other nodes a node loads, mentions or declares, by name. -/
def Names (facts : List SymbolicFact) (p : Planner) (node target : Node) : Prop :=
  target.key ≠ node.key ∧ target ∈ p.nodes ∧
    (target.logicalName ∈ (p.depsOf node).loads ∨
      target.logicalName ∈ (p.depsOf node).holdepMentions ∨
        target.logicalName ∈ facts.filterMap declaredName)

theorem mem_bootstrapProjectDeps (hkeys : (p.nodes.map Node.key).Nodup) {facts : List SymbolicFact}
    (hfacts : componentSymbolicFacts p.components node.source = .ok facts) :
    ∃ deps, p.bootstrapProjectDeps node = .ok deps ∧
      ∀ target, target ∈ deps ↔ target ∈ p.signatureCompanionDeps node ∧ target.key ≠ node.key ∨
        Names facts p node target := by
  have hunique := eq_of_key_eq hkeys
  have hnames : p.bootstrapDependencyNames node =
      .ok (uniqueStrings ((p.depsOf node).loads ++ facts.filterMap declaredName)) := by
    rw [bootstrapDependencyNames, hfacts]
    rfl
  have hmentioned : ∀ target, target ∈ p.bootstrapHoldepProjectDeps node ↔
      target.key ≠ node.key ∧ target ∈ p.nodes ∧
        target.logicalName ∈ (p.depsOf node).holdepMentions := by
    intro target
    rw [bootstrapHoldepProjectDeps, mem_uniqueNodes hunique]
    · simp only [List.mem_filter, List.mem_flatMap, mem_lookup, decide_eq_true_eq]
      constructor
      · rintro ⟨⟨name, hname, hmem, rfl⟩, hne⟩
        exact ⟨hne, hmem, hname⟩
      · rintro ⟨hne, hmem, hname⟩
        exact ⟨⟨_, hname, hmem, rfl⟩, hne⟩
    · intro target htarget
      obtain ⟨name, -, hmem⟩ := List.mem_flatMap.mp (List.mem_of_mem_filter htarget)
      exact lookup_subset name hmem
  refine ⟨_, by rw [bootstrapProjectDeps, hnames]; rfl, fun target ↦ ?_⟩
  rw [mem_uniqueNodes hunique]
  · simp only [List.mem_filter, List.mem_append, List.mem_flatMap, mem_lookup, hmentioned,
      mem_uniqueStrings, decide_eq_true_eq, Names]
    constructor
    · rintro ⟨(hcompanion | ⟨name, hname, hmem, rfl⟩) | hmention, hne⟩
      · exact .inl ⟨hcompanion, hne⟩
      · rcases hname with hload | hdeclared
        · exact .inr ⟨hne, hmem, .inl hload⟩
        · exact .inr ⟨hne, hmem, .inr (.inr hdeclared)⟩
      · exact .inr ⟨hne, hmention.2.1, .inr (.inl hmention.2.2)⟩
    · rintro (⟨hcompanion, hne⟩ | ⟨hne, hmem, hload | hmention | hdeclared⟩)
      · exact ⟨.inl (.inl hcompanion), hne⟩
      · exact ⟨.inl (.inr ⟨_, .inl hload, hmem, rfl⟩), hne⟩
      · exact ⟨.inr ⟨hne, hmem, hmention⟩, hne⟩
      · exact ⟨.inl (.inr ⟨_, .inr hdeclared, hmem, rfl⟩), hne⟩
  · intro target htarget
    rcases List.mem_append.mp (List.mem_of_mem_filter htarget) with htarget | hmention
    · rcases List.mem_append.mp htarget with hcompanion | hnamed
      · exact signatureCompanionDeps_subset node hcompanion
      · obtain ⟨name, -, hmem⟩ := List.mem_flatMap.mp hnamed
        exact lookup_subset name hmem
    · exact ((hmentioned target).mp hmention).2.1

theorem candidates_subset (node : Node) (reason : DependencyReason) (name : Text) :
    p.candidates node reason name ⊆ p.nodes := by
  intro target htarget
  cases reason with
  | signatureCompanionReason => exact signatureCompanionDeps_subset node htarget
  | declaredExtraInput => exact absurd htarget List.not_mem_nil
  | extractedLoad | extractedHoldepMention | declaredActionDependency | declaredActionLoad =>
    exact lookup_subset name (List.mem_of_mem_filter htarget)

/-- The candidates of a fact are the signature companions, or other nodes the fact declares. -/
theorem mem_candidates_factDependency {fact : SymbolicFact} {fromNode : Text} :
    target ∈ p.candidates node (factDependency fromNode fact).reason
        (factDependency fromNode fact).name ↔
      (∃ source name, fact = .logicalReference source name .signatureCompanion) ∧
          target ∈ p.signatureCompanionDeps node ∨
        declaredName fact = some target.logicalName ∧ target ∈ p.nodes ∧ target.key ≠ node.key := by
  have hnamed : ∀ name, target ∈ (p.lookup name).filter (fun candidate ↦ candidate.key ≠ node.key) ↔
      name = target.logicalName ∧ target ∈ p.nodes ∧ target.key ≠ node.key := by
    intro name
    rw [List.mem_filter, mem_lookup, decide_eq_true_eq]
    constructor
    · rintro ⟨⟨hmem, hname⟩, hne⟩
      exact ⟨hname.symm, hmem, hne⟩
    · rintro ⟨hname, hmem, hne⟩
      exact ⟨⟨hmem, hname.symm⟩, hne⟩
  match fact with
  | .logicalReference source name .declaredDependency
  | .logicalReference source name .declaredLoad =>
    simpa [factDependency, candidates, declaredName] using hnamed name
  | .logicalReference source name .signatureCompanion =>
    simp [factDependency, candidates, declaredName]
  | .logicalReference source name .declaredExtraInput | .inputReference source path reason =>
    simp [factDependency, candidates, declaredName]

/-- What a node names, given the facts of its component. -/
def symbolicOf (facts : List SymbolicFact) (p : Planner) (node : Node) : List SymbolicDependency :=
  (p.depsOf node).loads.map (fun name ↦ ⟨node.key, name, .extractedLoad⟩) ++
    (p.depsOf node).holdepMentions.map (fun name ↦ ⟨node.key, name, .extractedHoldepMention⟩) ++
      facts.map (factDependency node.key)

/-- The edges of a node lead to its signature companions and to the other nodes it names. -/
theorem mem_targets_resolvedFor {facts : List SymbolicFact}
    (hfacts : componentSymbolicFacts p.components node.source = .ok facts)
    (hok : ∀ fact ∈ facts, componentFact node.key fact = .ok (factDependency node.key fact))
    (hcompanion : p.signatureCompanionDeps node ≠ [] →
      .logicalReference node.source.id node.logicalName .signatureCompanion ∈ facts) :
    ∃ edges, ∃ targets : List Node, p.resolvedFor node = .ok edges ∧
      edges.map ResolvedDependencyEdge.toNode = targets.map Node.key ∧
      ∀ target, target ∈ targets ↔
        target ∈ p.signatureCompanionDeps node ∨ Names facts p node target := by
  have hsymbolic : p.symbolicFor node = .ok (symbolicOf facts p node) := by
    rw [symbolicFor, hfacts]
    show (do let declared ← facts.mapM (componentFact node.key); _) = _
    rw [mapM_eq_ok hok]
    rfl
  refine ⟨_, (symbolicOf facts p node).flatMap fun fact ↦ p.candidates node fact.reason fact.name,
    by rw [resolvedFor, hsymbolic]; rfl, ?_, fun target ↦ ?_⟩
  · rw [List.map_flatMap, List.map_flatMap]
    refine List.flatMap_congr fun fact _ ↦ ?_
    rw [resolveFact, List.map_map]
    rfl
  · simp only [symbolicOf, List.flatMap_append, List.mem_append, List.mem_flatMap, List.mem_map,
      exists_exists_and_eq_and, mem_candidates_factDependency]
    have hnamed : ∀ name reason, reason = .extractedLoad ∨ reason = .extractedHoldepMention →
        (target ∈ p.candidates node reason name ↔
          name = target.logicalName ∧ target ∈ p.nodes ∧ target.key ≠ node.key) := by
      intro name reason hreason
      have hfilter : p.candidates node reason name =
          (p.lookup name).filter fun candidate ↦ candidate.key ≠ node.key := by
        rcases hreason with rfl | rfl <;> rfl
      rw [hfilter, List.mem_filter, mem_lookup, decide_eq_true_eq]
      constructor
      · rintro ⟨⟨hmem, hname⟩, hne⟩
        exact ⟨hname.symm, hmem, hne⟩
      · rintro ⟨hname, hmem, hne⟩
        exact ⟨⟨hmem, hname.symm⟩, hne⟩
    constructor
    · rintro ((⟨name, hname, hmem⟩ | ⟨name, hname, hmem⟩) |
        ⟨fact, hfact, ⟨-, htarget⟩ | ⟨hname, hmem, hne⟩⟩)
      · obtain ⟨rfl, hnode, hne⟩ := (hnamed _ _ (.inl rfl)).mp hmem
        exact .inr ⟨hne, hnode, .inl hname⟩
      · obtain ⟨rfl, hnode, hne⟩ := (hnamed _ _ (.inr rfl)).mp hmem
        exact .inr ⟨hne, hnode, .inr (.inl hname)⟩
      · exact .inl htarget
      · exact .inr ⟨hne, hmem, .inr (.inr (List.mem_filterMap.mpr ⟨fact, hfact, hname⟩))⟩
    · rintro (htarget | ⟨hne, hmem, hload | hmention | hdeclared⟩)
      · exact .inr ⟨_, hcompanion (List.ne_nil_of_mem htarget), .inl ⟨⟨_, _, rfl⟩, htarget⟩⟩
      · exact .inl (.inl ⟨_, hload, (hnamed _ _ (.inl rfl)).mpr ⟨rfl, hmem, hne⟩⟩)
      · exact .inl (.inr ⟨_, hmention, (hnamed _ _ (.inr rfl)).mpr ⟨rfl, hmem, hne⟩⟩)
      · obtain ⟨fact, hfact, hname⟩ := List.mem_filterMap.mp hdeclared
        exact .inr ⟨fact, hfact, .inr ⟨hname, hmem, hne⟩⟩

/-- Assumes: distinct keys, and components made of the nodes' sources. The bootstrap dependencies of a
node are the targets of its resolved edges. -/
theorem resolvedFor_eq_bootstrapProjectDeps (hkeys : (p.nodes.map Node.key).Nodup)
    (hdescribed : p.Described) (hnode : node ∈ p.nodes) :
    ∃ deps edges, ∃ targets : List Node, p.bootstrapProjectDeps node = .ok deps ∧
      p.resolvedFor node = .ok edges ∧ edges.map ResolvedDependencyEdge.toNode = targets.map Node.key ∧
      deps ⊆ p.nodes ∧ ∀ target, target ∈ targets ↔ target ∈ deps := by
  obtain ⟨facts, hfacts, hok, hcompanion⟩ := exists_facts hdescribed hnode
  obtain ⟨deps, hdeps, hmemDeps⟩ := mem_bootstrapProjectDeps hkeys hfacts
  obtain ⟨edges, targets, hedges, htargets, hmem⟩ := mem_targets_resolvedFor hfacts hok hcompanion
  refine ⟨deps, edges, targets, hdeps, hedges, htargets, ?_, fun target ↦ ?_⟩
  · intro target htarget
    rcases (hmemDeps target).mp htarget with ⟨hcompanion, -⟩ | hnames
    · exact signatureCompanionDeps_subset node hcompanion
    · exact hnames.2.1
  · rw [hmem, hmemDeps]
    refine or_congr_left (and_iff_left_of_imp fun hcompanion hkey ↦ ?_).symm
    -- a signature is not the structure it accompanies
    obtain ⟨hsml, hsig, -⟩ := kind_of_mem_signatureCompanionDeps hcompanion
    have hsame := eq_of_key_eq hkeys _ (signatureCompanionDeps_subset node hcompanion) _ hnode hkey
    rw [hsame, hsml] at hsig
    exact absurd hsig (by decide)

end Planner

end Holbuild.BuildPlan
