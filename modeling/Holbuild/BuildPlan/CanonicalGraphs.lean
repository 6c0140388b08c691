import Holbuild.BuildPlan.PlanningOrder
import Holbuild.Library.Frames

/-!
# The canonical text of a selected graph

`selectedGraphText` frames six sorted sections: the bound ids of the nodes, and the texts of the
symbolic, resolved, external, unresolved and reverse dependencies, in which the bound id of a node
stands for its key. `selectedPlanText` frames the graph's id with the roots and the selected order.

The order in which nodes and dependencies are listed does not matter (`selectedGraphText_perm`), and a
text determines its sections as multisets (`sameGraph_of_selectedGraphText`).
-/

set_option autoImplicit false
set_option relaxedAutoImplicit false

namespace Holbuild.BuildPlan

open Library

def dependencyReasonText : DependencyReason → Text
  | .extractedLoad => "extracted-load".toList
  | .extractedHoldepMention => "holdep-mention".toList
  | .declaredActionDependency => "declared-dependency".toList
  | .declaredActionLoad => "declared-load".toList
  | .declaredExtraInput => "extra-input".toList
  | .signatureCompanionReason => "signature-companion".toList

def externalKindText : ExternalDependencyKind → Text
  | .externalTheory => "theory".toList
  | .externalLibrary => "library".toList
  | .externalInput => "input".toList

/-- The values of an index, key by key. -/
def vectorValues {α : Type} (vector : List (Text × List α)) : List α := vector.flatMap Prod.snd

section Texts

variable (hash : Text → Text)

/-- What stands for a node in a canonical text. -/
def boundNodeId (node : Node) : Text :=
  hash (canonicalFields ["holbuild-resolved-node-v1".toList, node.package, node.source.id])

/-- The positions of the nodes by key, with the bound ids by position. -/
structure CanonicalNodeIndex where
  keyIndex : List (Text × ℕ)
  boundIds : List Text

def buildCanonicalNodeIndex (nodes : List Node) : CanonicalNodeIndex :=
  ⟨buildKeyIndex nodes, nodes.map (boundNodeId hash)⟩

def canonicalNodeFor (index : CanonicalNodeIndex) (nodeKey : Text) : Except PlanError Text := do
  let id ← indexedKeyId index.keyIndex nodeKey
  match index.boundIds[id]? with
  | some boundId => .ok boundId
  | none => .error (.internal "Subscript".toList)

def symbolicText (index : CanonicalNodeIndex) (fact : SymbolicDependency) : Except PlanError Text := do
  let fromId ← canonicalNodeFor index fact.fromNode
  .ok (canonicalFields [fromId, dependencyReasonText fact.reason, fact.name])

def resolvedEdgeText (index : CanonicalNodeIndex) (edge : ResolvedDependencyEdge) :
    Except PlanError Text := do
  let fromId ← canonicalNodeFor index edge.fromNode
  let toId ← canonicalNodeFor index edge.toNode
  .ok (canonicalFields [fromId, toId, dependencyReasonText edge.reason, edge.symbolicName])

def externalEdgeText (index : CanonicalNodeIndex) (dependency : ExternalDependency) :
    Except PlanError Text := do
  let fromId ← canonicalNodeFor index dependency.fromNode
  .ok (canonicalFields [fromId, externalKindText dependency.kind, dependencyReasonText dependency.reason,
    dependency.name])

def unresolvedEdgeText (index : CanonicalNodeIndex) (dependency : UnresolvedDependency) :
    Except PlanError Text := do
  let fromId ← canonicalNodeFor index dependency.fromNode
  .ok (canonicalFields [fromId, dependencyReasonText dependency.reason, dependency.name])

def selectedGraphText (nodes : List Node) (graph : ResolvedDependencyGraph) : Except PlanError Text := do
  let index := buildCanonicalNodeIndex hash nodes
  let symbolic ← (vectorValues graph.symbolic).mapM (symbolicText index)
  let resolved ← (vectorValues graph.resolved).mapM (resolvedEdgeText index)
  let external ← (vectorValues graph.external).mapM (externalEdgeText index)
  let unresolved ← (vectorValues graph.unresolved).mapM (unresolvedEdgeText index)
  let reverse ← (vectorValues graph.reverse).mapM (resolvedEdgeText index)
  .ok (canonicalFields (["holbuild-selected-dependency-graph-v1".toList] ++
    canonicalList "nodes".toList (canonicalSort index.boundIds) ++
    canonicalList "symbolic".toList (canonicalSort symbolic) ++
    canonicalList "resolved".toList (canonicalSort resolved) ++
    canonicalList "external".toList (canonicalSort external) ++
    canonicalList "unresolved".toList (canonicalSort unresolved) ++
    canonicalList "reverse".toList (canonicalSort reverse)))

def selectedPlanText (graphId : Text) (roots selected : List Node) : Text :=
  canonicalFields (["holbuild-selected-plan-v1".toList, graphId] ++
    canonicalList "roots".toList (roots.map (boundNodeId hash)) ++
    canonicalList "order".toList (selected.map (boundNodeId hash)))

end Texts

/-! ### Bound ids of keys -/

variable {hash : Text → Text} {nodes nodes' : List Node}

/-- Assumes: distinct keys. The id found for a key is that of the node with the key. -/
theorem canonicalNodeFor_eq_ok_iff (hkeys : (nodes.map Node.key).Nodup) {nodeKey boundId : Text} :
    canonicalNodeFor (buildCanonicalNodeIndex hash nodes) nodeKey = .ok boundId ↔
      ∃ node ∈ nodes, node.key = nodeKey ∧ boundNodeId hash node = boundId := by
  constructor
  · intro h
    obtain ⟨id, hid, h⟩ := bind_eq_ok_iff.mp h
    rw [indexedKeyId] at hid
    split at hid
    · rename_i found hfind
      obtain rfl := Except.ok.inj hid
      obtain ⟨node, hnode, hkey⟩ := (findKeyId_eq_some_iff hkeys).mp hfind
      have hbound : (buildCanonicalNodeIndex hash nodes).boundIds[found]? =
          some (boundNodeId hash node) := by
        rw [buildCanonicalNodeIndex, List.getElem?_map, hnode]
        rfl
      rw [hbound] at h
      exact ⟨node, List.mem_of_getElem? hnode, hkey, Except.ok.inj h⟩
    · cases hid
  · rintro ⟨node, hnode, rfl, rfl⟩
    refine bind_eq_ok_iff.mpr ⟨nodes.idxOf node, indexedKeyId_of_mem hkeys hnode, ?_⟩
    have hbound : (buildCanonicalNodeIndex hash nodes).boundIds[nodes.idxOf node]? =
        some (boundNodeId hash node) := by
      rw [buildCanonicalNodeIndex, List.getElem?_map, List.getElem?_idxOf hnode]
      rfl
    rw [hbound]

/-! ### The order does not matter -/

/-- The sections of two graphs have the same values equally often. -/
structure SameValues (graph graph' : ResolvedDependencyGraph) : Prop where
  symbolic : (vectorValues graph.symbolic).Perm (vectorValues graph'.symbolic)
  resolved : (vectorValues graph.resolved).Perm (vectorValues graph'.resolved)
  external : (vectorValues graph.external).Perm (vectorValues graph'.external)
  unresolved : (vectorValues graph.unresolved).Perm (vectorValues graph'.unresolved)
  reverse : (vectorValues graph.reverse).Perm (vectorValues graph'.reverse)

theorem canonicalNodeFor_perm (hkeys : (nodes.map Node.key).Nodup) (hperm : nodes.Perm nodes')
    {nodeKey boundId : Text}
    (h : canonicalNodeFor (buildCanonicalNodeIndex hash nodes) nodeKey = .ok boundId) :
    canonicalNodeFor (buildCanonicalNodeIndex hash nodes') nodeKey = .ok boundId := by
  obtain ⟨node, hnode, hkey, hbound⟩ := (canonicalNodeFor_eq_ok_iff hkeys).mp h
  have hkeys' : (nodes'.map Node.key).Nodup := (hperm.map Node.key).nodup_iff.mp hkeys
  exact (canonicalNodeFor_eq_ok_iff hkeys').mpr ⟨node, hperm.mem_iff.mp hnode, hkey, hbound⟩

/-- Assumes: distinct keys. Nodes and dependencies in another order have the same text. -/
theorem selectedGraphText_perm (hkeys : (nodes.map Node.key).Nodup) (hperm : nodes.Perm nodes')
    {graph graph' : ResolvedDependencyGraph} (hgraph : SameValues graph graph') {text : Text}
    (h : selectedGraphText hash nodes graph = .ok text) :
    selectedGraphText hash nodes' graph' = .ok text := by
  have hnode : ∀ nodeKey boundId,
      canonicalNodeFor (buildCanonicalNodeIndex hash nodes) nodeKey = .ok boundId →
        canonicalNodeFor (buildCanonicalNodeIndex hash nodes') nodeKey = .ok boundId :=
    fun _ _ ↦ canonicalNodeFor_perm hkeys hperm
  have hresolvedText : ∀ edge text,
      resolvedEdgeText (buildCanonicalNodeIndex hash nodes) edge = .ok text →
        resolvedEdgeText (buildCanonicalNodeIndex hash nodes') edge = .ok text := by
    intro edge text h
    obtain ⟨fromId, hfrom, h⟩ := bind_eq_ok_iff.mp h
    obtain ⟨toId, hto, h⟩ := bind_eq_ok_iff.mp h
    exact bind_eq_ok_iff.mpr ⟨fromId, hnode _ _ hfrom, bind_eq_ok_iff.mpr ⟨toId, hnode _ _ hto, h⟩⟩
  obtain ⟨symbolic, hsymbolic, h⟩ := bind_eq_ok_iff.mp h
  obtain ⟨resolved, hresolved, h⟩ := bind_eq_ok_iff.mp h
  obtain ⟨external, hexternal, h⟩ := bind_eq_ok_iff.mp h
  obtain ⟨unresolved, hunresolved, h⟩ := bind_eq_ok_iff.mp h
  obtain ⟨reverse, hreverse, h⟩ := bind_eq_ok_iff.mp h
  obtain ⟨symbolic', hsymbolic', hpermSymbolic⟩ := mapM_perm (fun fact text h ↦ by
    obtain ⟨fromId, hfrom, h⟩ := bind_eq_ok_iff.mp h
    exact bind_eq_ok_iff.mpr ⟨fromId, hnode _ _ hfrom, h⟩) hsymbolic hgraph.symbolic
  obtain ⟨resolved', hresolved', hpermResolved⟩ := mapM_perm hresolvedText hresolved hgraph.resolved
  obtain ⟨external', hexternal', hpermExternal⟩ := mapM_perm (fun dependency text h ↦ by
    obtain ⟨fromId, hfrom, h⟩ := bind_eq_ok_iff.mp h
    exact bind_eq_ok_iff.mpr ⟨fromId, hnode _ _ hfrom, h⟩) hexternal hgraph.external
  obtain ⟨unresolved', hunresolved', hpermUnresolved⟩ := mapM_perm (fun dependency text h ↦ by
    obtain ⟨fromId, hfrom, h⟩ := bind_eq_ok_iff.mp h
    exact bind_eq_ok_iff.mpr ⟨fromId, hnode _ _ hfrom, h⟩) hunresolved hgraph.unresolved
  obtain ⟨reverse', hreverse', hpermReverse⟩ := mapM_perm hresolvedText hreverse hgraph.reverse
  refine bind_eq_ok_iff.mpr ⟨symbolic', hsymbolic', bind_eq_ok_iff.mpr ⟨resolved', hresolved',
    bind_eq_ok_iff.mpr ⟨external', hexternal', bind_eq_ok_iff.mpr ⟨unresolved', hunresolved',
      bind_eq_ok_iff.mpr ⟨reverse', hreverse', ?_⟩⟩⟩⟩⟩
  have hids : canonicalSort (buildCanonicalNodeIndex hash nodes').boundIds =
      canonicalSort (buildCanonicalNodeIndex hash nodes).boundIds :=
    canonicalSort_eq_iff.mpr (hperm.symm.map (boundNodeId hash))
  rw [← h, hids, canonicalSort_eq_iff.mpr hpermSymbolic, canonicalSort_eq_iff.mpr hpermResolved,
    canonicalSort_eq_iff.mpr hpermExternal, canonicalSort_eq_iff.mpr hpermUnresolved,
    canonicalSort_eq_iff.mpr hpermReverse]

/-! ### A text determines its graph -/

theorem dependencyReasonText_injective : Function.Injective dependencyReasonText := by
  intro a b h
  cases a <;> cases b <;> first | rfl | exact absurd h (by decide)

theorem externalKindText_injective : Function.Injective externalKindText := by
  intro a b h
  cases a <;> cases b <;> first | rfl | exact absurd h (by decide)

section Injective

variable (hkeys : (nodes.map Node.key).Nodup) (hkeys' : (nodes'.map Node.key).Nodup)
  (hbound : ∀ a ∈ nodes, ∀ b ∈ nodes', boundNodeId hash a = boundNodeId hash b → a.key = b.key)

include hkeys hkeys' hbound

/-- Keys of one bound id are the same. -/
theorem eq_of_canonicalNodeFor {nodeKey nodeKey' boundId : Text}
    (h : canonicalNodeFor (buildCanonicalNodeIndex hash nodes) nodeKey = .ok boundId)
    (h' : canonicalNodeFor (buildCanonicalNodeIndex hash nodes') nodeKey' = .ok boundId) :
    nodeKey = nodeKey' := by
  obtain ⟨node, hnode, rfl, hid⟩ := (canonicalNodeFor_eq_ok_iff hkeys).mp h
  obtain ⟨node', hnode', rfl, hid'⟩ := (canonicalNodeFor_eq_ok_iff hkeys').mp h'
  exact hbound node hnode node' hnode' (hid.trans hid'.symm)

theorem eq_of_symbolicText {fact fact' : SymbolicDependency} {text : Text}
    (h : symbolicText (buildCanonicalNodeIndex hash nodes) fact = .ok text)
    (h' : symbolicText (buildCanonicalNodeIndex hash nodes') fact' = .ok text) : fact = fact' := by
  obtain ⟨fromId, hfrom, h⟩ := bind_eq_ok_iff.mp h
  obtain ⟨fromId', hfrom', h'⟩ := bind_eq_ok_iff.mp h'
  have hfields := canonicalFields_injective (Except.ok.inj (h.trans h'.symm))
  simp only [List.cons.injEq, and_true] at hfields
  obtain ⟨rfl, hreason, hname⟩ := hfields
  have hkey := eq_of_canonicalNodeFor hkeys hkeys' hbound hfrom hfrom'
  have hsame := dependencyReasonText_injective hreason
  cases fact
  cases fact'
  dsimp only at hkey hname hsame
  rw [hkey, hname, hsame]

theorem eq_of_unresolvedEdgeText {dependency dependency' : UnresolvedDependency} {text : Text}
    (h : unresolvedEdgeText (buildCanonicalNodeIndex hash nodes) dependency = .ok text)
    (h' : unresolvedEdgeText (buildCanonicalNodeIndex hash nodes') dependency' = .ok text) :
    dependency = dependency' := by
  obtain ⟨fromId, hfrom, h⟩ := bind_eq_ok_iff.mp h
  obtain ⟨fromId', hfrom', h'⟩ := bind_eq_ok_iff.mp h'
  have hfields := canonicalFields_injective (Except.ok.inj (h.trans h'.symm))
  simp only [List.cons.injEq, and_true] at hfields
  obtain ⟨rfl, hreason, hname⟩ := hfields
  have hkey := eq_of_canonicalNodeFor hkeys hkeys' hbound hfrom hfrom'
  have hsame := dependencyReasonText_injective hreason
  cases dependency
  cases dependency'
  dsimp only at hkey hname hsame
  rw [hkey, hname, hsame]

theorem eq_of_externalEdgeText {dependency dependency' : ExternalDependency} {text : Text}
    (h : externalEdgeText (buildCanonicalNodeIndex hash nodes) dependency = .ok text)
    (h' : externalEdgeText (buildCanonicalNodeIndex hash nodes') dependency' = .ok text) :
    dependency = dependency' := by
  obtain ⟨fromId, hfrom, h⟩ := bind_eq_ok_iff.mp h
  obtain ⟨fromId', hfrom', h'⟩ := bind_eq_ok_iff.mp h'
  have hfields := canonicalFields_injective (Except.ok.inj (h.trans h'.symm))
  simp only [List.cons.injEq, and_true] at hfields
  obtain ⟨rfl, hkind, hreason, hname⟩ := hfields
  have hkey := eq_of_canonicalNodeFor hkeys hkeys' hbound hfrom hfrom'
  have hsame := dependencyReasonText_injective hreason
  have hsameKind := externalKindText_injective hkind
  cases dependency
  cases dependency'
  dsimp only at hkey hname hsame hsameKind
  rw [hkey, hname, hsame, hsameKind]

theorem eq_of_resolvedEdgeText {edge edge' : ResolvedDependencyEdge} {text : Text}
    (h : resolvedEdgeText (buildCanonicalNodeIndex hash nodes) edge = .ok text)
    (h' : resolvedEdgeText (buildCanonicalNodeIndex hash nodes') edge' = .ok text) :
    edge = edge' := by
  obtain ⟨fromId, hfrom, h⟩ := bind_eq_ok_iff.mp h
  obtain ⟨toId, hto, h⟩ := bind_eq_ok_iff.mp h
  obtain ⟨fromId', hfrom', h'⟩ := bind_eq_ok_iff.mp h'
  obtain ⟨toId', hto', h'⟩ := bind_eq_ok_iff.mp h'
  have hfields := canonicalFields_injective (Except.ok.inj (h.trans h'.symm))
  simp only [List.cons.injEq, and_true] at hfields
  obtain ⟨rfl, rfl, hreason, hname⟩ := hfields
  have hfromKey := eq_of_canonicalNodeFor hkeys hkeys' hbound hfrom hfrom'
  have htoKey := eq_of_canonicalNodeFor hkeys hkeys' hbound hto hto'
  have hsame := dependencyReasonText_injective hreason
  cases edge
  cases edge'
  dsimp only at hfromKey htoKey hname hsame
  rw [hfromKey, htoKey, hname, hsame]

/-- Graphs of one text have the same bound ids and the same dependencies equally often. -/
theorem sameGraph_of_selectedGraphText {graph graph' : ResolvedDependencyGraph} {text : Text}
    (h : selectedGraphText hash nodes graph = .ok text)
    (h' : selectedGraphText hash nodes' graph' = .ok text) :
    (nodes.map (boundNodeId hash)).Perm (nodes'.map (boundNodeId hash)) ∧
      SameValues graph graph' := by
  obtain ⟨symbolic, hsymbolic, h⟩ := bind_eq_ok_iff.mp h
  obtain ⟨resolved, hresolved, h⟩ := bind_eq_ok_iff.mp h
  obtain ⟨external, hexternal, h⟩ := bind_eq_ok_iff.mp h
  obtain ⟨unresolved, hunresolved, h⟩ := bind_eq_ok_iff.mp h
  obtain ⟨reverse, hreverse, h⟩ := bind_eq_ok_iff.mp h
  obtain ⟨symbolic', hsymbolic', h'⟩ := bind_eq_ok_iff.mp h'
  obtain ⟨resolved', hresolved', h'⟩ := bind_eq_ok_iff.mp h'
  obtain ⟨external', hexternal', h'⟩ := bind_eq_ok_iff.mp h'
  obtain ⟨unresolved', hunresolved', h'⟩ := bind_eq_ok_iff.mp h'
  obtain ⟨reverse', hreverse', h'⟩ := bind_eq_ok_iff.mp h'
  have hfields := canonicalFields_injective (Except.ok.inj (h.trans h'.symm))
  simp only [List.append_assoc] at hfields
  -- the sections are taken off one after another
  obtain ⟨hids, hfields⟩ := canonicalList_append_inj (List.append_cancel_left hfields)
  obtain ⟨hpermSymbolic, hfields⟩ := canonicalList_append_inj hfields
  obtain ⟨hpermResolved, hfields⟩ := canonicalList_append_inj hfields
  obtain ⟨hpermExternal, hfields⟩ := canonicalList_append_inj hfields
  obtain ⟨hpermUnresolved, hfields⟩ := canonicalList_append_inj hfields
  rw [← List.append_nil (canonicalList _ _), ← List.append_nil (canonicalList _ (canonicalSort reverse'))] at hfields
  obtain ⟨hpermReverse, -⟩ := canonicalList_append_inj hfields
  refine ⟨canonicalSort_eq_iff.mp hids, ⟨?_, ?_, ?_, ?_, ?_⟩⟩
  · exact perm_of_mapM (fun a _ b _ text ↦ eq_of_symbolicText hkeys hkeys' hbound) hsymbolic
      hsymbolic' (canonicalSort_eq_iff.mp hpermSymbolic)
  · exact perm_of_mapM (fun a _ b _ text ↦ eq_of_resolvedEdgeText hkeys hkeys' hbound) hresolved
      hresolved' (canonicalSort_eq_iff.mp hpermResolved)
  · exact perm_of_mapM (fun a _ b _ text ↦ eq_of_externalEdgeText hkeys hkeys' hbound) hexternal
      hexternal' (canonicalSort_eq_iff.mp hpermExternal)
  · exact perm_of_mapM (fun a _ b _ text ↦ eq_of_unresolvedEdgeText hkeys hkeys' hbound) hunresolved
      hunresolved' (canonicalSort_eq_iff.mp hpermUnresolved)
  · exact perm_of_mapM (fun a _ b _ text ↦ eq_of_resolvedEdgeText hkeys hkeys' hbound) hreverse
      hreverse' (canonicalSort_eq_iff.mp hpermReverse)

end Injective

/-- A plan's text determines the graph's id, the roots and the order, by their bound ids. -/
theorem selectedPlanText_inj {graphId graphId' : Text} {roots roots' selected selected' : List Node}
    (h : selectedPlanText hash graphId roots selected =
      selectedPlanText hash graphId' roots' selected') :
    graphId = graphId' ∧ roots.map (boundNodeId hash) = roots'.map (boundNodeId hash) ∧
      selected.map (boundNodeId hash) = selected'.map (boundNodeId hash) := by
  have hfields := canonicalFields_injective h
  rw [List.append_assoc, List.append_assoc] at hfields
  simp only [List.cons_append, List.nil_append, List.cons.injEq, true_and] at hfields
  obtain ⟨rfl, hfields⟩ := hfields
  obtain ⟨hroots, hfields⟩ := canonicalList_append_inj hfields
  rw [← List.append_nil (canonicalList _ (List.map _ selected)),
    ← List.append_nil (canonicalList _ (List.map _ selected'))] at hfields
  exact ⟨rfl, hroots, (canonicalList_append_inj hfields).1⟩

/-- Equal lists of bound ids are of equal lists of keys, where a bound id determines the key. -/
theorem map_key_eq_of_map_boundNodeId {nodes nodes' : List Node}
    (hbound : ∀ a ∈ nodes, ∀ b ∈ nodes', boundNodeId hash a = boundNodeId hash b → a.key = b.key)
    (h : nodes.map (boundNodeId hash) = nodes'.map (boundNodeId hash)) :
    nodes.map Node.key = nodes'.map Node.key := by
  have hlength : nodes.length = nodes'.length := by
    simpa using congrArg List.length h
  refine List.ext_getElem (by simpa using hlength) fun i hi hi' ↦ ?_
  rw [List.length_map] at hi hi'
  rw [List.getElem_map, List.getElem_map]
  refine hbound _ (List.getElem_mem _) _ (List.getElem_mem _) ?_
  have hget := congrArg (fun ids : List Text ↦ ids[i]?) h
  simpa [hi, hi'] using hget

/-! ### Graphs that planning makes -/

/-- The values of an index are those of its nodes, node by node. -/
theorem vectorValues_of_dependencyPairs {α : Type} {valuesFor : Node → Except PlanError (List α)}
    {g : Node → List α} (hvalues : ∀ node ∈ nodes, valuesFor node = .ok (g node)) :
    ∃ index, dependencyPairs nodes valuesFor = .ok index ∧
      (vectorValues index).Perm (nodes.flatMap g) := by
  refine ⟨sortPairs byKey (nodes.map fun node ↦ (node.key, g node)), ?_, ?_⟩
  · refine bind_eq_ok_iff.mpr ⟨_, mapM_eq_ok fun node hnode ↦ ?_, rfl⟩
    rw [hvalues node hnode]
    rfl
  · have hperm := (@sortPairs_perm _ byKey (nodes.map fun node ↦ (node.key, g node))).flatMap_right
      Prod.snd
    rwa [List.flatMap_map] at hperm

/-- Assumes: distinct keys. Nodes in another order have the same graph, up to the order of the reverse
edges. -/
theorem Planner.buildResolvedDependencyGraph_perm {p : Planner} (hkeys : (nodes.map Node.key).Nodup)
    (hperm : nodes.Perm nodes') {graph : ResolvedDependencyGraph}
    (h : p.buildResolvedDependencyGraph nodes = .ok graph) :
    ∃ graph', p.buildResolvedDependencyGraph nodes' = .ok graph' ∧ SameValues graph graph' := by
  have hkeys' : (nodes'.map Node.key).Nodup := (hperm.map Node.key).nodup_iff.mp hkeys
  -- an index made for the nodes in one order has the values of the one made in the other
  have hsection : ∀ {α : Type} {valuesFor : Node → Except PlanError (List α)}
      {index : List (Text × List α)}, dependencyPairs nodes valuesFor = .ok index →
      ∃ index', dependencyPairs nodes' valuesFor = .ok index' ∧
        (vectorValues index).Perm (vectorValues index') ∧
          ∀ node ∈ nodes, graphValues index' node = graphValues index node := by
    intro α valuesFor index hindex
    have hvalues := fun node hnode ↦ @graphValues_of_dependencyPairs _ _ _ _ hkeys hindex node hnode
    obtain ⟨first, hfirst, hpermFirst⟩ := vectorValues_of_dependencyPairs hvalues
    obtain rfl := Except.ok.inj (hindex.symm.trans hfirst)
    obtain ⟨index', hindex', hperm'⟩ := vectorValues_of_dependencyPairs
      fun node hnode ↦ hvalues node (hperm.mem_iff.mpr hnode)
    refine ⟨index', hindex', ?_, fun node hnode ↦ ?_⟩
    · exact hpermFirst.trans ((hperm.flatMap_right _).trans hperm'.symm)
    · have hsame := graphValues_of_dependencyPairs hkeys' hindex' (hperm.mem_iff.mp hnode)
      exact (Except.ok.inj (hsame.symm.trans (hvalues node hnode)))
  obtain ⟨symbolic, hsymbolic, h⟩ := bind_eq_ok_iff.mp h
  obtain ⟨resolved, hresolved, h⟩ := bind_eq_ok_iff.mp h
  obtain ⟨external, hexternal, h⟩ := bind_eq_ok_iff.mp h
  obtain ⟨unresolved, hunresolved, h⟩ := bind_eq_ok_iff.mp h
  obtain ⟨reverse, hreverse, h⟩ := bind_eq_ok_iff.mp h
  obtain ⟨symbolic', hsymbolic', hpermSymbolic, -⟩ := hsection hsymbolic
  obtain ⟨resolved', hresolved', hpermResolved, hsame⟩ := hsection hresolved
  obtain ⟨external', hexternal', hpermExternal, -⟩ := hsection hexternal
  obtain ⟨unresolved', hunresolved', hpermUnresolved, -⟩ := hsection hunresolved
  -- the edges into a node are those of all nodes, in the order of the nodes
  have hedges : (nodes.flatMap (graphValues resolved)).Perm
      (nodes'.flatMap (graphValues resolved')) := by
    have hflat : nodes.flatMap (graphValues resolved) = nodes.flatMap (graphValues resolved') :=
      List.flatMap_congr fun node hnode ↦ (hsame node hnode).symm
    rw [hflat]
    exact hperm.flatMap_right _
  let incoming := fun (edges : List ResolvedDependencyEdge) (node : Node) ↦
    edges.filter fun edge ↦ edge.toNode = node.key
  obtain ⟨first, hfirst, hpermFirst⟩ := @vectorValues_of_dependencyPairs nodes _
    (fun node ↦ .ok (incoming (nodes.flatMap (graphValues resolved)) node)) _ fun _ _ ↦ rfl
  obtain rfl := Except.ok.inj (hreverse.symm.trans hfirst)
  obtain ⟨reverse', hreverse', hpermReverse⟩ := @vectorValues_of_dependencyPairs nodes' _
    (fun node ↦ .ok (incoming (nodes'.flatMap (graphValues resolved')) node)) _ fun _ _ ↦ rfl
  refine ⟨⟨symbolic', resolved', external', unresolved', reverse'⟩, ?_, ?_⟩
  · exact bind_eq_ok_iff.mpr ⟨_, hsymbolic', bind_eq_ok_iff.mpr ⟨_, hresolved',
      bind_eq_ok_iff.mpr ⟨_, hexternal', bind_eq_ok_iff.mpr ⟨_, hunresolved',
        bind_eq_ok_iff.mpr ⟨_, hreverse', rfl⟩⟩⟩⟩⟩
  · rw [← Except.ok.inj h]
    refine ⟨hpermSymbolic, hpermResolved, hpermExternal, hpermUnresolved, ?_⟩
    refine hpermFirst.trans (((hperm.flatMap_right _).trans ?_).trans hpermReverse.symm)
    exact List.Perm.flatMap_left nodes' fun node _ ↦ hedges.filter _

/-- Assumes: distinct keys. The text of a selected graph is the same for every order of its nodes and
dependencies, and determines both as multisets if bound ids distinguish the nodes; so does the text
of a plan for its graph's id, its roots and its order. -/
theorem canonical_identity (hash : Text → Text) :
    (∀ (nodes nodes' : List Node) (graph graph' : ResolvedDependencyGraph) (text : Text),
      (nodes.map Node.key).Nodup → nodes.Perm nodes' → SameValues graph graph' →
        selectedGraphText hash nodes graph = .ok text →
          selectedGraphText hash nodes' graph' = .ok text) ∧
    (∀ (p : Planner) (nodes nodes' : List Node) (graph : ResolvedDependencyGraph) (text : Text),
      (nodes.map Node.key).Nodup → nodes.Perm nodes' →
        p.buildResolvedDependencyGraph nodes = .ok graph →
          selectedGraphText hash nodes graph = .ok text →
            ∃ graph', p.buildResolvedDependencyGraph nodes' = .ok graph' ∧
              selectedGraphText hash nodes' graph' = .ok text) ∧
    (∀ (nodes nodes' : List Node) (graph graph' : ResolvedDependencyGraph) (text : Text),
      (nodes.map Node.key).Nodup → (nodes'.map Node.key).Nodup →
        (∀ a ∈ nodes, ∀ b ∈ nodes', boundNodeId hash a = boundNodeId hash b → a.key = b.key) →
          selectedGraphText hash nodes graph = .ok text →
            selectedGraphText hash nodes' graph' = .ok text →
              (nodes.map (boundNodeId hash)).Perm (nodes'.map (boundNodeId hash)) ∧
                SameValues graph graph') ∧
    ∀ (graphId graphId' : Text) (roots roots' selected selected' : List Node),
      selectedPlanText hash graphId roots selected =
          selectedPlanText hash graphId' roots' selected' →
        (graphId = graphId' ∧ roots.map (boundNodeId hash) = roots'.map (boundNodeId hash) ∧
          selected.map (boundNodeId hash) = selected'.map (boundNodeId hash)) ∧
        ((∀ a ∈ roots ++ selected, ∀ b ∈ roots' ++ selected',
            boundNodeId hash a = boundNodeId hash b → a.key = b.key) →
          roots.map Node.key = roots'.map Node.key ∧
            selected.map Node.key = selected'.map Node.key) := by
  refine ⟨fun nodes nodes' graph graph' text hkeys hperm hgraph h ↦
    selectedGraphText_perm hkeys hperm hgraph h, ?_, ?_, ?_⟩
  · intro p nodes nodes' graph text hkeys hperm hbuild h
    obtain ⟨graph', hbuild', hgraph⟩ := Planner.buildResolvedDependencyGraph_perm hkeys hperm hbuild
    exact ⟨graph', hbuild', selectedGraphText_perm hkeys hperm hgraph h⟩
  · intro nodes nodes' graph graph' text hkeys hkeys' hbound h h'
    exact sameGraph_of_selectedGraphText hkeys hkeys' hbound h h'
  · intro graphId graphId' roots roots' selected selected' h
    obtain ⟨hid, hroots, hselected⟩ := selectedPlanText_inj h
    refine ⟨⟨hid, hroots, hselected⟩, fun hbound ↦ ⟨?_, ?_⟩⟩
    · exact map_key_eq_of_map_boundNodeId (fun a ha b hb ↦ hbound a (List.mem_append_left _ ha) b
        (List.mem_append_left _ hb)) hroots
    · exact map_key_eq_of_map_boundNodeId (fun a ha b hb ↦ hbound a (List.mem_append_right _ ha) b
        (List.mem_append_right _ hb)) hselected

/-! ### A graph with its nodes in another order -/

/-- The sample's nodes from the last to the first. -/
def sampleReversed : List Node := (Planner.samplePlanner "b").nodes.reverse

/-- The same with another toolchain, which no bound id depends on. -/
def sampleMoved : List Node := (makeNodes "/other".toList Planner.sampleSources).reverse

theorem canonical_identity_sample : ∃ graph graph' text,
    (Planner.samplePlanner "b").buildResolvedDependencyGraph (Planner.samplePlanner "b").nodes =
      .ok graph ∧
    (Planner.samplePlanner "b").buildResolvedDependencyGraph sampleReversed = .ok graph' ∧
    selectedGraphText id (Planner.samplePlanner "b").nodes graph = .ok text ∧
    selectedGraphText id sampleReversed graph' = .ok text ∧ SameValues graph' graph ∧
    sampleReversed.map Node.key = sampleMoved.map Node.key := by
  have hbuilt : ∃ graph, (Planner.samplePlanner "b").buildResolvedDependencyGraph
      (Planner.samplePlanner "b").nodes = .ok graph ∧
      ∃ text, selectedGraphText id (Planner.samplePlanner "b").nodes graph = .ok text := by
    refine ⟨((Planner.samplePlanner "b").buildResolvedDependencyGraph
      (Planner.samplePlanner "b").nodes).toOption.getD ⟨[], [], [], [], []⟩, by decide +kernel,
      (selectedGraphText id (Planner.samplePlanner "b").nodes
        (((Planner.samplePlanner "b").buildResolvedDependencyGraph
          (Planner.samplePlanner "b").nodes).toOption.getD ⟨[], [], [], [], []⟩)).toOption.getD [],
      by decide +kernel⟩
  obtain ⟨graph, hgraph, text, htext⟩ := hbuilt
  obtain ⟨hperm, hbuild, hinj, hplan⟩ := canonical_identity id
  have hkeys : ((Planner.samplePlanner "b").nodes.map Node.key).Nodup := by decide +kernel
  have hkeys' : (sampleReversed.map Node.key).Nodup := by decide +kernel
  have hreversed : (Planner.samplePlanner "b").nodes.Perm sampleReversed :=
    (List.reverse_perm _).symm
  have hbound : ∀ a ∈ sampleReversed, ∀ b ∈ (Planner.samplePlanner "b").nodes,
      boundNodeId id a = boundNodeId id b → a.key = b.key := by decide +kernel
  obtain ⟨graph', hgraph', htext'⟩ := hbuild _ _ _ graph text hkeys hreversed hgraph htext
  have hsame := (hinj _ _ graph' graph text hkeys' hkeys hbound htext' htext).2
  refine ⟨graph, graph', text, hgraph, hgraph',
    hperm _ _ graph' graph text hkeys' hreversed.symm hsame htext', htext', hsame, ?_⟩
  have hmoved : ∀ a ∈ sampleReversed ++ sampleReversed, ∀ b ∈ sampleMoved ++ sampleMoved,
      boundNodeId id a = boundNodeId id b → a.key = b.key := by decide +kernel
  exact ((hplan text text sampleReversed sampleMoved sampleReversed sampleMoved rfl).2 hmoved).1

end Holbuild.BuildPlan
