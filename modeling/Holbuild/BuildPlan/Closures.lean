import Holbuild.BuildPlan.Invalidation
import Holbuild.Library.Literals
import Holbuild.Library.Traversals

/-!
# The dependency closures of a plan

`selectedClosure` lists what some selected nodes depend on by walking the positions that `assemble`
put into the plan, without looking for a cycle. `topoSortResolved` searches the same graph by key.

An assembled plan selects every dependency before the node that has it, so both list the same nodes
in the same order (`selectedClosure_eq_ok`), and so does every call of `transitiveProjectDeps`,
whatever was called before (`transitiveProjectDeps_eq_ok`). A plan is assembled by planning or, from
the record of an earlier planning of the same sources, by `restore`.
-/

set_option autoImplicit false
set_option relaxedAutoImplicit false

namespace Holbuild.BuildPlan

open Library

namespace Plan

variable (plan : Plan)

/-! ### The closures -/

/-- The selected nodes with the positions of their dependencies. -/
def closureTraversal : Traversal Node PlanError :=
  ⟨plan.selected.zip plan.selectedAdjacency, .internal "Subscript".toList, .exhausted⟩

/-- The nodes some roots depend on, each after its dependencies. -/
def selectedClosure (roots : List Node) : Except PlanError (List Node) := do
  let rootIds ← roots.mapM fun root ↦ indexedKeyId plan.selectedKeyIndex root.key
  plan.closureTraversal.traverse (plan.selected.length + 1) rootIds

/-- The nodes a node's edges lead to. -/
def directProjectDeps (node : Node) : Except PlanError (List Node) := do
  let targets ← (graphValues plan.dependencyGraph.resolved node).mapM fun edge ↦ do
    let id ← indexedKeyId plan.selectedKeyIndex edge.toNode
    match plan.selected[id]? with
    | some target => .ok target
    | none => .error (.internal "Subscript".toList)
  .ok (uniqueNodes targets)

/-- The closures computed so far, by position. -/
abbrev ClosureCache := ℕ → Option (List Node)

/-- The nodes a node depends on, directly or not, remembered for the next call. -/
def transitiveProjectDeps (cache : ClosureCache) (node : Node) :
    Except PlanError (List Node × ClosureCache) := do
  let id ← indexedKeyId plan.selectedKeyIndex node.key
  match cache id with
  | some dependencies => .ok (dependencies, cache)
  | none => do
    let direct ← plan.directProjectDeps node
    let dependencies ← plan.selectedClosure direct
    .ok (dependencies, Function.update cache id (some dependencies))

/-- The caches that calls for selected nodes lead to. -/
inductive CacheReached : ClosureCache → Prop
  | initial : CacheReached fun _ ↦ none
  | call {cache cache' : ClosureCache} {node : Node} {dependencies : List Node}
      (h : CacheReached cache) (hnode : node ∈ plan.selected)
      (hcall : plan.transitiveProjectDeps cache node = .ok (dependencies, cache')) :
      CacheReached cache'

/-! ### Assembled plans -/

/-- A well-formed plan with the positions of its nodes' dependencies. -/
structure Assembled : Prop where
  wellFormed : plan.WellFormed
  adjacency : buildSelectedAdjacency plan.selectedKeyIndex plan.selected plan.dependencyGraph =
    .ok plan.selectedAdjacency

/-- The closures of a plan are what the search by key lists: from any selected roots, and for each
selected node from its direct dependencies, whatever was called before. -/
def ClosuresAgree : Prop :=
  (∀ roots, (∀ root ∈ roots, root ∈ plan.selected) → ∃ order,
    topoSortResolved plan.selected roots plan.dependencyGraph = .ok order ∧
      plan.selectedClosure roots = .ok order) ∧
  ∀ cache, plan.CacheReached cache → ∀ node ∈ plan.selected, ∃ direct order cache',
    plan.directProjectDeps node = .ok direct ∧
      topoSortResolved plan.selected direct plan.dependencyGraph = .ok order ∧
        plan.transitiveProjectDeps cache node = .ok (order, cache')

variable {plan} {node : Node}

/-- Where the edges of the selected nodes lead. -/
theorem WellFormed.exists_target (hplan : plan.WellFormed) :
    ∃ target : Node → ResolvedDependencyEdge → Node, ∀ node ∈ plan.selected,
      ∀ edge ∈ graphValues plan.dependencyGraph.resolved node,
        target node edge ∈ plan.selected ∧ (target node edge).key = edge.toNode ∧
          plan.selected.idxOf (target node edge) < plan.selected.idxOf node := by
  by_cases hempty : plan.selected = []
  · exact ⟨fun node _ ↦ node, fun node hnode ↦ absurd (hempty ▸ hnode) List.not_mem_nil⟩
  · obtain ⟨first, -⟩ := List.exists_mem_of_ne_nil _ hempty
    have : Nonempty Node := ⟨first⟩
    choose! target htarget using hplan.ordered
    exact ⟨target, htarget⟩

/-- The closure of selected nodes is what the search by key lists from them. -/
theorem selectedClosure_eq_ok (hplan : plan.Assembled) {roots : List Node}
    (hroots : ∀ root ∈ roots, root ∈ plan.selected) :
    ∃ order, topoSortResolved plan.selected roots plan.dependencyGraph = .ok order ∧
      plan.selectedClosure roots = .ok order := by
  have hkeys := hplan.wellFormed.keys
  have hindex := hplan.wellFormed.keyIndex
  obtain ⟨target, htarget⟩ := hplan.wellFormed.exists_target
  let next := fun node ↦ (graphValues plan.dependencyGraph.resolved node).map (target node)
  have hnext : ∀ node ∈ plan.selected, ∀ dep ∈ next node,
      dep ∈ plan.selected ∧ plan.selected.idxOf dep < plan.selected.idxOf node := by
    intro node hnode dep hdep
    obtain ⟨edge, hedge, rfl⟩ := List.mem_map.mp hdep
    exact ⟨(htarget node hnode edge hedge).1, (htarget node hnode edge hedge).2.2⟩
  have hsound : (resolvedSorter plan.selected plan.dependencyGraph).Sound plan.selected
      plan.selected.idxOf next := by
    refine ⟨fun v hv ↦ indexedKeyId_of_mem hkeys hv, fun v hv w _ hvw ↦ (List.idxOf_inj hv).mp hvw,
      fun v hv ↦ mapM_eq_ok fun edge hedge ↦ ?_, fun v hv w hw ↦ (hnext v hv w hw).1⟩
    obtain ⟨hmem, hkey, -⟩ := htarget v hv edge hedge
    have hfind : findKeyId (buildKeyIndex plan.selected) (target v edge).key =
        some (plan.selected.idxOf (target v edge)) := by
      rw [findKeyId_eq_some_iff hkeys]
      exact ⟨_, List.getElem?_idxOf hmem, rfl⟩
    rw [edgeTarget, ← hkey, hfind, Option.bind_some, List.getElem?_idxOf hmem]
  -- the positions in the plan are those of the targets
  have hadjacency : plan.selectedAdjacency =
      plan.selected.map fun node ↦ (next node).map plan.selected.idxOf := by
    have hrows : buildSelectedAdjacency plan.selectedKeyIndex plan.selected plan.dependencyGraph =
        .ok (plan.selected.map fun node ↦ (next node).map plan.selected.idxOf) := by
      refine mapM_eq_ok fun node hnode ↦ ?_
      rw [List.map_map]
      refine mapM_eq_ok fun edge hedge ↦ ?_
      obtain ⟨hmem, hkey, -⟩ := htarget node hnode edge hedge
      rw [hindex, ← hkey, indexedKeyId_of_mem hkeys hmem]
      rfl
    exact Except.ok.inj (hplan.adjacency.symm.trans hrows)
  have htraversal : plan.closureTraversal =
      .of plan.selected next (.internal "Subscript".toList) .exhausted := by
    rw [closureTraversal, hadjacency, Traversal.of, List.map_prod_left_eq_zip]
  obtain ⟨order, hsort, htraverse⟩ := Traversal.traverse_eq_sort hsound
    (fun v hv w hw ↦ (hnext v hv w hw).2) hroots (Nat.le_succ _) (Nat.le_succ _)
  refine ⟨order, hsort, bind_eq_ok_iff.mpr ⟨roots.map plan.selected.idxOf, ?_, ?_⟩⟩
  · refine mapM_eq_ok fun root hroot ↦ ?_
    rw [hindex, indexedKeyId_of_mem hkeys (hroots root hroot)]
  · rw [htraversal]
    exact htraverse

/-- The direct dependencies of a selected node are selected. -/
theorem directProjectDeps_eq_ok (hplan : plan.WellFormed) (hnode : node ∈ plan.selected) :
    ∃ direct, plan.directProjectDeps node = .ok direct ∧ ∀ dep ∈ direct, dep ∈ plan.selected := by
  obtain ⟨target, htarget⟩ := hplan.exists_target
  have hsub : (graphValues plan.dependencyGraph.resolved node).map (target node) ⊆
      plan.selected := by
    intro dep hdep
    obtain ⟨edge, hedge, rfl⟩ := List.mem_map.mp hdep
    exact (htarget node hnode edge hedge).1
  refine ⟨_, bind_eq_ok_iff.mpr ⟨(graphValues plan.dependencyGraph.resolved node).map (target node),
    mapM_eq_ok fun edge hedge ↦ ?_, rfl⟩, fun dep hdep ↦ ?_⟩
  · obtain ⟨hmem, hkey, -⟩ := htarget node hnode edge hedge
    refine bind_eq_ok_iff.mpr ⟨plan.selected.idxOf (target node edge), ?_, ?_⟩
    · rw [hplan.keyIndex, ← hkey, indexedKeyId_of_mem hplan.keys hmem]
    · rw [List.getElem?_idxOf hmem]
  · exact hsub ((mem_uniqueNodes (eq_of_key_eq hplan.keys) hsub).mp hdep)

/-- What a cache holds of selected nodes is what the search by key lists from their direct
dependencies. -/
def Remembers (plan : Plan) (cache : ClosureCache) : Prop :=
  ∀ node ∈ plan.selected, ∀ dependencies, cache (plan.selected.idxOf node) = some dependencies →
    ∃ direct, plan.directProjectDeps node = .ok direct ∧
      topoSortResolved plan.selected direct plan.dependencyGraph = .ok dependencies

/-- A call for a selected node returns what the search lists, and keeps what the cache holds right. -/
theorem transitiveProjectDeps_eq_ok (hplan : plan.Assembled) {cache : ClosureCache}
    (hcache : plan.Remembers cache) (hnode : node ∈ plan.selected) :
    ∃ direct order cache', plan.directProjectDeps node = .ok direct ∧
      topoSortResolved plan.selected direct plan.dependencyGraph = .ok order ∧
        plan.transitiveProjectDeps cache node = .ok (order, cache') ∧ plan.Remembers cache' := by
  have hid : indexedKeyId plan.selectedKeyIndex node.key = .ok (plan.selected.idxOf node) := by
    rw [hplan.wellFormed.keyIndex, indexedKeyId_of_mem hplan.wellFormed.keys hnode]
  cases hknown : cache (plan.selected.idxOf node) with
  | some dependencies =>
    obtain ⟨direct, hdirect, hsort⟩ := hcache node hnode dependencies hknown
    refine ⟨direct, dependencies, cache, hdirect, hsort, ?_, hcache⟩
    refine bind_eq_ok_iff.mpr ⟨_, hid, ?_⟩
    rw [hknown]
  | none =>
    obtain ⟨direct, hdirect, hmem⟩ := directProjectDeps_eq_ok hplan.wellFormed hnode
    obtain ⟨order, hsort, hclosure⟩ := selectedClosure_eq_ok hplan hmem
    refine ⟨direct, order, Function.update cache (plan.selected.idxOf node) (some order), hdirect,
      hsort, bind_eq_ok_iff.mpr ⟨_, hid, ?_⟩, ?_⟩
    · rw [hknown]
      exact bind_eq_ok_iff.mpr ⟨direct, hdirect, bind_eq_ok_iff.mpr ⟨order, hclosure, rfl⟩⟩
    · intro other hother dependencies hentry
      rcases eq_or_ne (plan.selected.idxOf other) (plan.selected.idxOf node) with hsame | hne
      · obtain rfl := (List.idxOf_inj hother).mp hsame
        rw [Function.update_self, Option.some.injEq] at hentry
        exact ⟨direct, hdirect, hentry ▸ hsort⟩
      · rw [Function.update_of_ne hne] at hentry
        exact hcache other hother dependencies hentry

/-- Every cache that calls lead to holds what the search lists. -/
theorem CacheReached.remembers (hplan : plan.Assembled) {cache : ClosureCache}
    (h : plan.CacheReached cache) : plan.Remembers cache := by
  induction h with
  | initial => exact fun _ _ _ hentry ↦ by cases hentry
  | call _ hnode hcall ih =>
    obtain ⟨-, order, cache', -, -, hok, hcache'⟩ := transitiveProjectDeps_eq_ok hplan ih hnode
    rw [hcall, Except.ok.injEq, Prod.mk.injEq] at hok
    exact hok.2 ▸ hcache'

/-- The closures of an assembled plan are what the search by key lists. -/
theorem Assembled.closuresAgree (hplan : plan.Assembled) : plan.ClosuresAgree := by
  refine ⟨fun roots hroots ↦ selectedClosure_eq_ok hplan hroots, fun cache hcache node hnode ↦ ?_⟩
  obtain ⟨direct, order, cache', hdirect, hsort, hcall, -⟩ :=
    transitiveProjectDeps_eq_ok hplan (hcache.remembers hplan) hnode
  exact ⟨direct, order, cache', hdirect, hsort, hcall⟩

end Plan

/-- The keys of a plan are computed from the direct dependencies its closures start from. -/
theorem KeyContext.directProjectDeps_eq (c : KeyContext) (node : Node) :
    c.directProjectDeps node = c.plan.directProjectDeps node := rfl

/-! ### Restored plans -/

/-- Where each discovered source stands, by its node's key, the last one first. -/
def recordPositions (index : List Source) : List (Text × ℕ) :=
  (index.zipIdx.map fun (source, i) ↦ ((⟨source, []⟩ : Node).key, i)).reverse

def positionOfKey (positions : List (Text × ℕ)) (key : Text) : Except PlanError ℕ :=
  match positions.find? fun entry ↦ entry.1 = key with
  | some entry => .ok entry.2
  | none => .error (.internal ("planned node missing from the discovered sources: ".toList ++
      stringToString key))

/-- What a record keeps of a selected node: the position of its source and its dependencies, with the
target of an edge by position. -/
structure NodeEntry where
  source : ℕ
  symbolic : List (Text × DependencyReason)
  resolved : List (ℕ × Text × DependencyReason)
  external : List (Text × ExternalDependencyKind × DependencyReason)
deriving DecidableEq, Repr

/-- What a record keeps of a plan: the discovered sources, and the roots and the selected nodes by
their positions. -/
structure PlanRecord where
  sources : List Source
  roots : List ℕ
  selected : List NodeEntry
deriving DecidableEq, Repr

/-- An edge with the position of its target. -/
def recordedEdge (positions : List (Text × ℕ)) (edge : ResolvedDependencyEdge) :
    Except PlanError (ℕ × Text × DependencyReason) := do
  let target ← positionOfKey positions edge.toNode
  .ok (target, edge.symbolicName, edge.reason)

def nodeEntry (positions : List (Text × ℕ)) (plan : Plan) (node : Node) : Except PlanError NodeEntry := do
  let resolved ← (graphValues plan.dependencyGraph.resolved node).mapM (recordedEdge positions)
  let source ← positionOfKey positions node.key
  .ok
    { source := source
      symbolic := (graphValues plan.dependencyGraph.symbolic node).map fun fact ↦ (fact.name, fact.reason)
      resolved := resolved
      external := (graphValues plan.dependencyGraph.external node).map fun dependency ↦
        (dependency.name, dependency.kind, dependency.reason) }

/-- The record of a plan over the sources discovered for it. -/
def recordOfPlan (index : List Source) (plan : Plan) : Except PlanError PlanRecord := do
  let positions := recordPositions index
  let roots ← plan.roots.mapM fun root ↦ positionOfKey positions root.key
  let selected ← plan.selected.mapM (nodeEntry positions plan)
  .ok ⟨index, roots, selected⟩

/-- The node at a position of the universe. -/
def nodeAt (nodes : List Node) (i : ℕ) : Except PlanError Node :=
  match nodes[i]? with
  | some node => .ok node
  | none => .error (.internal "Subscript".toList)

/-- A selected node with its dependencies. -/
structure SelectedEdges where
  node : Node
  symbolic : List SymbolicDependency
  resolved : List ResolvedDependencyEdge
  external : List ExternalDependency

/-- An edge from a node to the one at a position. -/
def restoredEdge (nodes : List Node) (fromNode : Node) (edge : ℕ × Text × DependencyReason) :
    Except PlanError ResolvedDependencyEdge := do
  let toNode ← nodeAt nodes edge.1
  .ok ⟨fromNode.key, toNode.key, edge.2.1, edge.2.2⟩

/-- The dependencies of an entry's node. -/
def selectedEdges (nodes : List Node) (node : Node) (entry : NodeEntry) :
    Except PlanError SelectedEdges := do
  let fromNode ← nodeAt nodes entry.source
  let resolved ← entry.resolved.mapM (restoredEdge nodes fromNode)
  .ok
    { node := node
      symbolic := entry.symbolic.map fun (name, reason) ↦ ⟨fromNode.key, name, reason⟩
      resolved := resolved
      external := entry.external.map fun (name, kind, reason) ↦ ⟨fromNode.key, name, kind, reason⟩ }

/-- The index of what each selected node has. -/
def edgePairs {α : Type} (selected : List SelectedEdges) (value : SelectedEdges → List α) :
    List (Text × List α) :=
  sortPairs byKey (selected.map fun edges ↦ (edges.node.key, value edges))

/-- The plan of a record, over the record's sources. -/
def Planner.restore (p : Planner) (holdir : Text) (record : PlanRecord) : Except PlanError Plan := do
  let nodes := makeNodes holdir record.sources
  let selectedNodes ← record.selected.mapM fun entry ↦ nodeAt nodes entry.source
  let selected ← (selectedNodes.zip record.selected).mapM fun (node, entry) ↦
    selectedEdges nodes node entry
  let resolved := edgePairs selected SelectedEdges.resolved
  let reverse ← reverseDependencyPairs selectedNodes resolved
  let graph : ResolvedDependencyGraph :=
    ⟨edgePairs selected SelectedEdges.symbolic, resolved, edgePairs selected SelectedEdges.external,
      edgePairs selected fun _ ↦ [], reverse⟩
  p.validateExtraOutputOwnership selectedNodes
  let roots ← record.roots.mapM (nodeAt nodes)
  assemble nodes roots selectedNodes graph holdir

/-! ### A restored plan is assembled -/

/-- A position found is that of a source with the key. -/
theorem exists_source_of_positionOfKey {index : List Source} {key : Text} {i : ℕ}
    (h : positionOfKey (recordPositions index) key = .ok i) :
    ∃ source, index[i]? = some source ∧ (⟨source, []⟩ : Node).key = key := by
  unfold positionOfKey at h
  split at h
  · rename_i entry hfind
    have hkey := List.find?_some hfind
    have hmem := List.mem_of_find?_eq_some hfind
    rw [recordPositions, List.mem_reverse, List.mem_map] at hmem
    obtain ⟨⟨source, j⟩, hmem, rfl⟩ := hmem
    rw [List.mem_zipIdx_iff_getElem?] at hmem
    rw [← Except.ok.inj h]
    exact ⟨source, hmem, of_decide_eq_true hkey⟩
  · cases h

/-- The node at a position found for a key has the key. -/
theorem exists_nodeAt_of_positionOfKey {holdir : Text} {index : List Source} {key : Text} {i : ℕ}
    (h : positionOfKey (recordPositions index) key = .ok i) :
    ∃ node ∈ makeNodes holdir index, nodeAt (makeNodes holdir index) i = .ok node ∧
      node.key = key := by
  obtain ⟨source, hsource, hkey⟩ := exists_source_of_positionOfKey h
  have hget : (makeNodes holdir index)[i]? =
      some ⟨source, [Path.mkCanonical (Path.append holdir "sigobj".toList)]⟩ := by
    rw [makeNodes, List.getElem?_map, hsource]
    rfl
  refine ⟨_, List.mem_of_getElem? hget, ?_, hkey⟩
  rw [nodeAt, hget]

variable {holdir : Text} {index : List Source} {plan : Plan}

/-- Edges restored from their record lead where they led. -/
theorem restoredEdges_of_recordedEdges (fromNode : Node) {edges : List ResolvedDependencyEdge}
    {resolved : List (ℕ × Text × DependencyReason)}
    (h : edges.mapM (recordedEdge (recordPositions index)) = .ok resolved) :
    ∃ edges', resolved.mapM (restoredEdge (makeNodes holdir index) fromNode) = .ok edges' ∧
      edges'.map ResolvedDependencyEdge.toNode = edges.map ResolvedDependencyEdge.toNode := by
  have hforall := mapM_eq_ok_iff.mp h
  clear h
  induction hforall with
  | nil => exact ⟨[], rfl, rfl⟩
  | @cons edge _ _ _ hhead _ ih =>
    obtain ⟨target, htarget, hhead⟩ := bind_eq_ok_iff.mp hhead
    obtain rfl := Except.ok.inj hhead
    obtain ⟨toNode, -, hto, hkey⟩ := @exists_nodeAt_of_positionOfKey holdir _ _ _ htarget
    obtain ⟨edges', hedges', hmap⟩ := ih
    refine ⟨⟨fromNode.key, toNode.key, edge.symbolicName, edge.reason⟩ :: edges', ?_, ?_⟩
    · rw [List.mapM_cons]
      refine bind_eq_ok_iff.mpr ⟨_, bind_eq_ok_iff.mpr ⟨toNode, hto, rfl⟩, ?_⟩
      exact bind_eq_ok_iff.mpr ⟨edges', hedges', rfl⟩
    · rw [List.map_cons, List.map_cons, hmap, hkey]

/-- Assumes: the nodes are made of the discovered sources and have distinct keys. The entry of a node
stands for the node, and its edges lead where the node's edges lead. -/
theorem selectedEdges_of_nodeEntry (hkeys : ((makeNodes holdir index).map Node.key).Nodup)
    {node : Node} (hnode : node ∈ makeNodes holdir index) {entry : NodeEntry}
    (h : nodeEntry (recordPositions index) plan node = .ok entry) :
    nodeAt (makeNodes holdir index) entry.source = .ok node ∧
      ∃ edges, selectedEdges (makeNodes holdir index) node entry = .ok edges ∧ edges.node = node ∧
        edges.resolved.map ResolvedDependencyEdge.toNode =
          (graphValues plan.dependencyGraph.resolved node).map ResolvedDependencyEdge.toNode := by
  obtain ⟨resolved, hresolved, h⟩ := bind_eq_ok_iff.mp h
  obtain ⟨i, hposition, h⟩ := bind_eq_ok_iff.mp h
  obtain rfl := Except.ok.inj h
  obtain ⟨other, hother, hat, hkey⟩ := @exists_nodeAt_of_positionOfKey holdir _ _ _ hposition
  obtain rfl := eq_of_key_eq hkeys other hother node hnode hkey
  refine ⟨hat, ?_⟩
  obtain ⟨edges, hedges, hmap⟩ := restoredEdges_of_recordedEdges other hresolved
  refine ⟨_, bind_eq_ok_iff.mpr ⟨other, hat, bind_eq_ok_iff.mpr ⟨edges, hedges, rfl⟩⟩, rfl, hmap⟩

/-- Assumes: the same of every selected node. The entries stand for the selected nodes in order, and
their edges lead where the nodes' edges lead. -/
theorem selectedEdges_of_entries (hkeys : ((makeNodes holdir index).map Node.key).Nodup)
    {nodes : List Node} (hnodes : ∀ node ∈ nodes, node ∈ makeNodes holdir index)
    {entries : List NodeEntry}
    (h : nodes.mapM (nodeEntry (recordPositions index) plan) = .ok entries) :
    (entries.mapM fun entry ↦ nodeAt (makeNodes holdir index) entry.source) = .ok nodes ∧
      ∃ selected, ((nodes.zip entries).mapM fun (node, entry) ↦
          selectedEdges (makeNodes holdir index) node entry) = .ok selected ∧
        selected.map SelectedEdges.node = nodes ∧
        ∀ edges ∈ selected, edges.resolved.map ResolvedDependencyEdge.toNode =
          (graphValues plan.dependencyGraph.resolved edges.node).map
            ResolvedDependencyEdge.toNode := by
  have hforall := mapM_eq_ok_iff.mp h
  clear h
  induction hforall with
  | nil => exact ⟨rfl, [], rfl, rfl, fun _ h ↦ absurd h List.not_mem_nil⟩
  | cons hhead _ ih =>
    obtain ⟨hat, edges, hedges, hnode, hmap⟩ :=
      selectedEdges_of_nodeEntry hkeys (hnodes _ List.mem_cons_self) hhead
    obtain ⟨hats, selected, hselected, hnodesEq, hall⟩ :=
      ih fun node hnode ↦ hnodes node (List.mem_cons_of_mem _ hnode)
    refine ⟨?_, edges :: selected, ?_, ?_, ?_⟩
    · rw [List.mapM_cons]
      exact bind_eq_ok_iff.mpr ⟨_, hat, bind_eq_ok_iff.mpr ⟨_, hats, rfl⟩⟩
    · rw [List.zip_cons_cons, List.mapM_cons]
      exact bind_eq_ok_iff.mpr ⟨edges, hedges, bind_eq_ok_iff.mpr ⟨selected, hselected, rfl⟩⟩
    · rw [List.map_cons, hnode, hnodesEq]
    · intro other hother
      rcases List.mem_cons.mp hother with rfl | hother
      · rw [hnode]
        exact hmap
      · exact hall other hother

/-- The values of a node in an index of what the selected nodes have. -/
theorem graphValues_edgePairs {α : Type} {selected : List SelectedEdges}
    (hkeys : ((selected.map SelectedEdges.node).map Node.key).Nodup)
    (value : SelectedEdges → List α) {edges : SelectedEdges} (hedges : edges ∈ selected) :
    graphValues (edgePairs selected value) edges.node = value edges := by
  have hfst : (selected.map fun edges ↦ (edges.node.key, value edges)).map Prod.fst =
      (selected.map SelectedEdges.node).map Node.key := by
    rw [List.map_map, List.map_map]
    rfl
  have hlookup := (lookup?_sortPairs (hfst ▸ hkeys)).mpr
    (List.mem_map_of_mem (f := fun edges ↦ (edges.node.key, value edges)) hedges)
  rw [graphValues, edgePairs, hlookup]
  rfl

/-- Assumes: the plan is well formed, and its nodes are among those of the discovered sources. The plan
restored from its record selects the same nodes and is assembled. -/
theorem assembled_of_restore {p : Planner} (hkeys : ((makeNodes holdir index).map Node.key).Nodup)
    (hplan : plan.WellFormed) (hnodes : ∀ node ∈ plan.selected, node ∈ makeNodes holdir index)
    {record : PlanRecord} (hrecord : recordOfPlan index plan = .ok record) {plan' : Plan}
    (h : p.restore holdir record = .ok plan') :
    plan'.selected = plan.selected ∧ plan'.Assembled := by
  obtain ⟨roots, -, hrecord⟩ := bind_eq_ok_iff.mp hrecord
  obtain ⟨entries, hentries, hrecord⟩ := bind_eq_ok_iff.mp hrecord
  obtain rfl := Except.ok.inj hrecord
  obtain ⟨hat, selected, hselected, hnodesEq, hall⟩ :=
    selectedEdges_of_entries hkeys hnodes hentries
  obtain ⟨selectedNodes, hselectedNodes, h⟩ := bind_eq_ok_iff.mp h
  obtain rfl := Except.ok.inj (hselectedNodes.symm.trans hat)
  obtain ⟨selected', hselected', h⟩ := bind_eq_ok_iff.mp h
  obtain rfl := Except.ok.inj (hselected'.symm.trans hselected)
  obtain ⟨reverse, -, h⟩ := bind_eq_ok_iff.mp h
  obtain ⟨-, -, h⟩ := bind_eq_ok_iff.mp h
  obtain ⟨rootNodes, -, h⟩ := bind_eq_ok_iff.mp h
  obtain ⟨adjacency, hadjacency, h⟩ := bind_eq_ok_iff.mp h
  obtain rfl := Except.ok.inj h
  refine ⟨rfl, ⟨hplan.keys, rfl, fun node hnode edge hedge ↦ ?_⟩, hadjacency⟩
  obtain ⟨edges, hedges, rfl⟩ := List.mem_map.mp (hnodesEq ▸ hnode)
  dsimp only at hedge
  rw [graphValues_edgePairs (hnodesEq ▸ hplan.keys) SelectedEdges.resolved hedges] at hedge
  have hto : edge.toNode ∈ (graphValues plan.dependencyGraph.resolved edges.node).map
      ResolvedDependencyEdge.toNode := by
    rw [← hall edges hedges]
    exact List.mem_map_of_mem hedge
  obtain ⟨edge', hedge', hsame⟩ := List.mem_map.mp hto
  rw [← hsame]
  exact hplan.ordered edges.node hnode edge' hedge'

namespace Planner

/-- Plans that planning makes are assembled, of planned nodes. -/
theorem assembled_of_planSelection {p : Planner} (hkeys : (p.nodes.map Node.key).Nodup)
    (hdescribed : p.Described) {selection : TargetSelection}
    (h : p.planSelection holdir selection = .ok plan) :
    plan.Assembled ∧ ∀ node ∈ plan.selected, node ∈ p.nodes := by
  refine ⟨⟨wellFormed_of_planSelection hkeys hdescribed h, ?_⟩, fun node hnode ↦ ?_⟩
  · obtain ⟨roots, -, h⟩ := bind_eq_ok_iff.mp h
    obtain ⟨reachable, -, h⟩ := bind_eq_ok_iff.mp h
    obtain ⟨graph, -, h⟩ := bind_eq_ok_iff.mp h
    obtain ⟨selected, -, h⟩ := bind_eq_ok_iff.mp h
    obtain ⟨-, -, h⟩ := bind_eq_ok_iff.mp h
    obtain ⟨-, -, h⟩ := bind_eq_ok_iff.mp h
    obtain ⟨-, -, h⟩ := bind_eq_ok_iff.mp h
    obtain ⟨adjacency, hadjacency, h⟩ := bind_eq_ok_iff.mp h
    rw [← Except.ok.inj h]
    exact hadjacency
  · have houtcome := outcome_planSelection hkeys hdescribed holdir selection
    rw [h] at houtcome
    obtain ⟨hroots, -, -, -, hmem, -⟩ := houtcome
    exact ((hmem node).mp hnode).mem (targetRoots_subset hroots)

/-- Assumes: nodes with distinct keys, and components made of the nodes' sources. The closures of a
plan that planning makes are what the search by key lists, and so are those of a plan restored from
its record over the same sources. -/
theorem closures_agree (p : Planner) (hkeys : (p.nodes.map Node.key).Nodup)
    (hdescribed : p.Described) (selection : TargetSelection)
    (h : p.planSelection holdir selection = .ok plan) :
    plan.ClosuresAgree ∧
      ∀ index, p.nodes = makeNodes holdir index → ∀ record, recordOfPlan index plan = .ok record →
        ∀ (p' : Planner) (plan' : Plan), p'.restore holdir record = .ok plan' →
          plan'.ClosuresAgree := by
  obtain ⟨hplan, hnodes⟩ := assembled_of_planSelection hkeys hdescribed h
  refine ⟨hplan.closuresAgree, fun index hindex record hrecord p' plan' hrestore ↦ ?_⟩
  rw [hindex] at hkeys
  exact (assembled_of_restore hkeys hplan.wellFormed (fun node hnode ↦ hindex ▸ hnodes node hnode)
    hrecord hrestore).2.closuresAgree

/-- The plan of all targets of the sample. -/
def sampleClosurePlan : Plan :=
  ((samplePlanner "b").planSelection "/hol".toList .allTargets).toOption.getD
    ⟨[], [], [], ⟨[], [], [], [], []⟩, [], [], []⟩

/-- What a record keeps of it: the signature, the structure that has it, and the one that loads both. -/
def sampleRecord : PlanRecord where
  sources := sampleSources
  roots := [0, 1, 2]
  selected :=
    [⟨2, [], [], []⟩,
      ⟨1, [("b".toList, .signatureCompanionReason)], [(2, "b".toList, .signatureCompanionReason)], []⟩,
      ⟨0, [("b".toList, .extractedLoad)],
        [(2, "b".toList, .extractedLoad), (1, "b".toList, .extractedLoad)], []⟩]

/-- The plan restored from the record. -/
def sampleRestoredPlan : Plan :=
  ((samplePlanner "b").restore "/hol".toList sampleRecord).toOption.getD sampleClosurePlan

theorem closures_agree_sample : sampleClosurePlan.ClosuresAgree ∧
    recordOfPlan sampleSources sampleClosurePlan = .ok sampleRecord ∧
      (samplePlanner "b").restore "/hol".toList sampleRecord = .ok sampleRestoredPlan ∧
        sampleRestoredPlan.ClosuresAgree := by
  have hplan : (samplePlanner "b").planSelection "/hol".toList .allTargets =
      .ok sampleClosurePlan := by decide +kernel
  have hrecord : recordOfPlan sampleSources sampleClosurePlan = .ok sampleRecord := by
    decide +kernel
  have hrestore : (samplePlanner "b").restore "/hol".toList sampleRecord =
      .ok sampleRestoredPlan := by decide +kernel
  have hagree := closures_agree (samplePlanner "b") (by decide +kernel) (by decide +kernel)
    .allTargets hplan
  exact ⟨hagree.1, hrecord, hrestore,
    hagree.2 sampleSources rfl sampleRecord hrecord (samplePlanner "b") sampleRestoredPlan hrestore⟩

end Planner

end Holbuild.BuildPlan
