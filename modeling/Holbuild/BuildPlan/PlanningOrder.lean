import Holbuild.BuildPlan.Selection

/-!
# Planning orders exactly the nodes its roots need

The first order lists the nodes reachable from the roots along bootstrap dependencies, or finds a
cycle (`bootstrapTopoSort_spec`). The resolved graph of these nodes has the same edges, so the second
order finds every target and no cycle (`topoSortResolved_spec`). A plan is then refused only for what
one of its nodes names, uses or writes (`planSelection_order`).
-/

set_option autoImplicit false
set_option relaxedAutoImplicit false

namespace Holbuild.BuildPlan

open Library Relation

namespace Planner

/-- A node depends on another: one of its resolved edges leads there. -/
def DependsOn (p : Planner) (node target : Node) : Prop :=
  node ∈ p.nodes ∧ target ∈ p.nodes ∧ ∃ edges, p.resolvedFor node = .ok edges ∧
    ∃ edge ∈ edges, edge.toNode = target.key

/-- A node is reachable from the roots along resolved edges. -/
def Reachable (p : Planner) (roots : List Node) (node : Node) : Prop :=
  ∃ root ∈ roots, ReflTransGen p.DependsOn root node

/-- Some reachable node depends on itself, directly or not. -/
def CycleReachable (p : Planner) (roots : List Node) : Prop :=
  ∃ node, p.Reachable roots node ∧ TransGen p.DependsOn node node

/-- The bootstrap dependencies of a node, none where planning does not find them. -/
def next (p : Planner) (node : Node) : List Node :=
  if node ∈ p.nodes then (p.bootstrapProjectDeps node).toOption.getD [] else []

variable {p : Planner} {roots : List Node} {node target : Node}

/-- What is reachable from nodes is a node. -/
theorem Reachable.mem (hroots : roots ⊆ p.nodes) (h : p.Reachable roots node) : node ∈ p.nodes := by
  obtain ⟨root, hroot, hreach⟩ := h
  rcases ReflTransGen.cases_tail hreach with rfl | ⟨last, -, hlast⟩
  · exact hroots hroot
  · exact hlast.2.1

section Described

variable (hkeys : (p.nodes.map Node.key).Nodup) (hdescribed : p.Described)

include hkeys hdescribed

theorem bootstrapProjectDeps_eq_ok (hnode : node ∈ p.nodes) :
    p.bootstrapProjectDeps node = .ok (p.next node) ∧ p.next node ⊆ p.nodes := by
  obtain ⟨deps, -, -, hdeps, -, -, hsub, -⟩ :=
    resolvedFor_eq_bootstrapProjectDeps hkeys hdescribed hnode
  have hnext : p.next node = deps := by
    rw [next, if_pos hnode, hdeps]
    rfl
  exact ⟨hnext ▸ hdeps, hnext ▸ hsub⟩

/-- The edges of a node lead to its bootstrap dependencies, and to each of them one does. -/
theorem resolvedFor_eq_ok (hnode : node ∈ p.nodes) :
    ∃ edges, ∃ targets : List Node, p.resolvedFor node = .ok edges ∧
      edges.map ResolvedDependencyEdge.toNode = targets.map Node.key ∧
      ∀ target, target ∈ targets ↔ target ∈ p.next node := by
  obtain ⟨deps, edges, targets, hdeps, hedges, htargets, -, hmem⟩ :=
    resolvedFor_eq_bootstrapProjectDeps hkeys hdescribed hnode
  have hnext : p.next node = deps := by
    rw [next, if_pos hnode, hdeps]
    rfl
  exact ⟨edges, targets, hedges, htargets, hnext ▸ hmem⟩

/-- Bootstrap dependencies and resolved edges are the same relation. -/
theorem mem_next_iff : target ∈ p.next node ↔ p.DependsOn node target := by
  by_cases hnode : node ∈ p.nodes
  · obtain ⟨edges, targets, hedges, htargets, hmem⟩ := resolvedFor_eq_ok hkeys hdescribed hnode
    obtain ⟨-, hsub⟩ := bootstrapProjectDeps_eq_ok hkeys hdescribed hnode
    rw [← hmem]
    constructor
    · intro htarget
      have hedge : target.key ∈ edges.map ResolvedDependencyEdge.toNode := by
        rw [htargets]
        exact List.mem_map_of_mem htarget
      obtain ⟨edge, hedge, hkey⟩ := List.mem_map.mp hedge
      exact ⟨hnode, hsub ((hmem target).mp htarget), edges, hedges, edge, hedge, hkey⟩
    · rintro ⟨-, htarget, edges', hedges', edge, hedge, hkey⟩
      rw [hedges, Except.ok.injEq] at hedges'
      subst hedges'
      have hmapped : target.key ∈ targets.map Node.key := by
        rw [← htargets, ← hkey]
        exact List.mem_map_of_mem hedge
      obtain ⟨other, hother, hsame⟩ := List.mem_map.mp hmapped
      rwa [← eq_of_key_eq hkeys other (hsub ((hmem other).mp hother)) target htarget hsame]
  · have hnext : p.next node = [] := if_neg hnode
    rw [hnext]
    exact iff_of_false List.not_mem_nil fun h ↦ hnode h.1

theorem next_eq_dependsOn : (fun a b ↦ b ∈ p.next a) = p.DependsOn := by
  ext a b
  exact mem_next_iff hkeys hdescribed

theorem sound_bootstrapSorter : p.bootstrapSorter.Sound p.nodes p.nodes.idxOf p.next := by
  constructor
  · exact fun v hv ↦ indexedKeyId_of_mem hkeys hv
  · exact fun v hv w _ hvw ↦ (List.idxOf_inj hv).mp hvw
  · exact fun v hv ↦ (bootstrapProjectDeps_eq_ok hkeys hdescribed hv).1
  · exact fun v hv w hw ↦ (bootstrapProjectDeps_eq_ok hkeys hdescribed hv).2 hw

/-- The bootstrap order: exactly the reachable nodes, each once and after its dependencies, or a
reachable cycle. -/
theorem bootstrapTopoSort_spec (hroots : roots ⊆ p.nodes) :
    (∃ reachable, p.bootstrapTopoSort roots = .ok reachable ∧ reachable.Nodup ∧
      ReadyOrder p.next [] reachable ∧ ∀ node, node ∈ reachable ↔ p.Reachable roots node) ∨
    (∃ message, p.bootstrapTopoSort roots = .error (.cycle message)) ∧ p.CycleReachable roots := by
  have hspec := Sorter.sort_spec (sound_bootstrapSorter hkeys hdescribed) hroots
    (Nat.lt_succ_self p.nodes.length)
  rw [next_eq_dependsOn hkeys hdescribed] at hspec
  rcases hspec with ⟨order, horder, hnodup, hready, hmem⟩ |
    ⟨⟨path, v, herror⟩, root, hroot, w, hreach, hcycle⟩
  · exact .inl ⟨order, horder, hnodup, hready, hmem⟩
  · exact .inr ⟨⟨cycleMessage path v, herror⟩, w, ⟨root, hroot, hreach⟩, hcycle⟩

end Described

end Planner

/-! ### The resolved graph of the reachable nodes -/

/-- The values of a node in an index of a graph are those computed for the node. -/
theorem graphValues_of_dependencyPairs {α : Type} {nodes : List Node}
    {valuesFor : Node → Except PlanError (List α)} {index : List (Text × List α)}
    (hkeys : (nodes.map Node.key).Nodup) (hindex : dependencyPairs nodes valuesFor = .ok index)
    {node : Node} (hnode : node ∈ nodes) : valuesFor node = .ok (graphValues index node) := by
  obtain ⟨pairs, hpairs, hsorted⟩ := bind_eq_ok_iff.mp hindex
  have hforall := mapM_eq_ok_iff.mp hpairs
  have hfst : pairs.map Prod.fst = nodes.map Node.key := by
    clear hsorted hpairs hnode hkeys hindex
    induction hforall with
    | nil => rfl
    | cons hhead _ ih =>
      obtain ⟨values, -, hpair⟩ := bind_eq_ok_iff.mp hhead
      rw [List.map_cons, List.map_cons, ih, ← Except.ok.inj hpair]
  obtain ⟨i, hi, hget⟩ := List.mem_iff_getElem.mp hnode
  have hlength := hforall.length_eq
  have hpair := (List.forall₂_iff_get.mp hforall).2 i hi (hlength ▸ hi)
  obtain ⟨values, hvalues, hpair⟩ := bind_eq_ok_iff.mp hpair
  rw [List.get_eq_getElem, hget] at hvalues
  have hmem : (node.key, values) ∈ pairs := by
    have heq := Except.ok.inj hpair
    rw [List.get_eq_getElem, hget] at heq
    rw [heq]
    exact List.get_mem _ _
  have hlookup := (lookup?_sortPairs (hfst ▸ hkeys)).mpr hmem
  rw [hvalues, ← Except.ok.inj hsorted, graphValues, hlookup]
  rfl

namespace Planner

variable {p : Planner} {roots : List Node} {node target : Node}

section Described

variable (hkeys : (p.nodes.map Node.key).Nodup) (hdescribed : p.Described)

include hkeys hdescribed

/-- Assumes: the nodes of the graph are closed under dependencies and have an order in which every
node stands after its dependencies. The second sort finds every target and no cycle. -/
theorem topoSortResolved_spec {reachable : List Node} {graph : ResolvedDependencyGraph}
    (hroots : roots ⊆ p.nodes) (hnodup : reachable.Nodup) (hready : ReadyOrder p.next [] reachable)
    (hmem : ∀ node, node ∈ reachable ↔ p.Reachable roots node)
    (hgraph : ∀ node ∈ reachable, p.resolvedFor node = .ok (graphValues graph.resolved node)) :
    ∃ selected, topoSortResolved reachable roots graph = .ok selected ∧ selected.Nodup ∧
      ReadyOrder p.next [] selected ∧ ∀ node, node ∈ selected ↔ p.Reachable roots node := by
  have hsub : reachable ⊆ p.nodes := fun v hv ↦ ((hmem v).mp hv).mem hroots
  have hkeysReachable : (reachable.map Node.key).Nodup := by
    refine hnodup.map_on fun a ha b hb hab ↦ ?_
    exact eq_of_key_eq hkeys a (hsub ha) b (hsub hb) hab
  have hclosed : ∀ v ∈ reachable, ∀ w ∈ p.next v, w ∈ reachable := by
    intro v hv w hw
    obtain ⟨root, hroot, hreach⟩ := (hmem v).mp hv
    exact (hmem w).mpr ⟨root, hroot, hreach.tail ((mem_next_iff hkeys hdescribed).mp hw)⟩
  -- each edge of a reachable node leads to one of its dependencies, which the index finds
  have htargets : ∀ v ∈ reachable, ∃ targets : List Node,
      (resolvedSorter reachable graph).successors v = .ok targets ∧
        ∀ w, w ∈ targets ↔ w ∈ p.next v := by
    intro v hv
    obtain ⟨edges, targets, hedges, hkeysEq, htargets⟩ :=
      resolvedFor_eq_ok hkeys hdescribed (hsub hv)
    rw [hgraph v hv, Except.ok.injEq] at hedges
    refine ⟨targets, ?_, htargets⟩
    show (graphValues graph.resolved v).mapM _ = _
    rw [hedges, mapM_eq_ok_iff]
    have hforall : List.Forall₂ (fun edge target ↦ edge.toNode = target.key) edges targets := by
      rw [← List.forall₂_eq_eq_eq, List.forall₂_map_left_iff, List.forall₂_map_right_iff] at hkeysEq
      exact hkeysEq
    refine List.forall₂_iff_get.mpr ⟨hforall.length_eq, fun i hedge htarget ↦ ?_⟩
    have hkey := (List.forall₂_iff_get.mp hforall).2 i hedge htarget
    have htargetMem : targets.get ⟨i, htarget⟩ ∈ reachable :=
      hclosed v hv _ ((htargets _).mp (List.get_mem _ _))
    have hfind : findKeyId (buildKeyIndex reachable) (targets.get ⟨i, htarget⟩).key =
        some (reachable.idxOf (targets.get ⟨i, htarget⟩)) := by
      rw [findKeyId_eq_some_iff hkeysReachable]
      exact ⟨_, List.getElem?_idxOf htargetMem, rfl⟩
    rw [edgeTarget, hkey, hfind, Option.bind_some, List.getElem?_idxOf htargetMem]
  choose! targets hsuccessors hiff using htargets
  let next' := fun v ↦ if v ∈ reachable then targets v else p.next v
  have hnext : ∀ v w, w ∈ next' v ↔ w ∈ p.next v := by
    intro v w
    by_cases hv : v ∈ reachable
    · rw [show next' v = targets v from if_pos hv]
      exact hiff v hv w
    · rw [show next' v = p.next v from if_neg hv]
  have hsound : (resolvedSorter reachable graph).Sound reachable reachable.idxOf next' := by
    constructor
    · exact fun v hv ↦ indexedKeyId_of_mem hkeysReachable hv
    · exact fun v hv w _ hvw ↦ (List.idxOf_inj hv).mp hvw
    · intro v hv
      rw [show next' v = targets v from if_pos hv]
      exact hsuccessors v hv
    · exact fun v hv w hw ↦ hclosed v hv w ((hnext v w).mp hw)
  have hrootsReachable : ∀ root ∈ roots, root ∈ reachable :=
    fun root hroot ↦ (hmem root).mpr ⟨root, hroot, .refl⟩
  have hrelation : (fun a b ↦ b ∈ next' a) = p.DependsOn := by
    ext a b
    rw [hnext, mem_next_iff hkeys hdescribed]
  have hspec := Sorter.sort_spec hsound hrootsReachable (Nat.lt_succ_self reachable.length)
  rw [hrelation] at hspec
  rcases hspec with ⟨selected, hselected, hnodup', hready', hmem'⟩ |
    ⟨-, root, hroot, w, hreach, hcycle⟩
  · refine ⟨selected, hselected, hnodup', ?_, hmem'⟩
    exact hready'.of_subset fun v w hw ↦ (hnext v w).mpr hw
  · rw [← next_eq_dependsOn hkeys hdescribed] at hcycle
    exact absurd hcycle (hready.not_transGen ((hmem w).mpr ⟨root, hroot, hreach⟩))

end Described

end Planner

/-! ### What refuses a plan -/

namespace Planner

variable {p : Planner} {roots : List Node} {node target : Node} {e : PlanError}

theorem eq_path_of_concatPath {root relative : Text} (h : concatPath root relative = .error e) :
    e = .path := by
  unfold concatPath at h
  split at h
  · cases h
  · exact (Except.error.inj h).symm

theorem eq_path_of_externalLoadAvailable {name : Text}
    (h : p.externalLoadAvailable node name = .error e) : e = .path := by
  unfold externalLoadAvailable at h
  generalize node.externalDirs = dirs at h
  induction dirs with
  | nil => cases h
  | cons dir rest ih =>
    rw [List.anyM_cons] at h
    rcases bind_eq_error_iff.mp h with hdir | ⟨found, -, hrest⟩
    · rcases bind_eq_error_iff.mp hdir with huo | ⟨uo, -, hui⟩
      · exact eq_path_of_concatPath huo
      · split at hui
        · cases hui
        · rcases bind_eq_error_iff.mp hui with hui | ⟨ui, -, hok⟩
          · exact eq_path_of_concatPath hui
          · cases hok
    · cases found
      · exact ih hrest
      · cases hrest

theorem eq_path_of_externalFact {fact : SymbolicDependency}
    (h : p.externalFact node fact = .error e) : e = .path := by
  unfold externalFact at h
  split at h
  · cases h
  · cases h
  · split at h
    · cases h
    · split at h
      · cases h
      · rcases bind_eq_error_iff.mp h with hload | ⟨found, -, hok⟩
        · exact eq_path_of_externalLoadAvailable hload
        · cases hok
  · split at h
    · cases h
    · rcases bind_eq_error_iff.mp h with hload | ⟨found, -, hok⟩
      · exact eq_path_of_externalLoadAvailable hload
      · cases hok
  · cases h
  · cases h

theorem eq_path_of_unresolvedFact {fact : SymbolicDependency}
    (h : p.unresolvedFact node fact = .error e) : e = .path := by
  unfold unresolvedFact at h
  split at h
  · cases h
  · split at h
    · cases h
    · split at h
      · cases h
      · rcases bind_eq_error_iff.mp h with hload | ⟨found, -, hok⟩
        · exact eq_path_of_externalLoadAvailable hload
        · cases hok
    · cases h

/-- What planning accepts of the reachable nodes: each joins no absolute path, resolves every name,
uses no other source and declares valid extra outputs, and no two own one extra output. -/
structure Accepts (p : Planner) (roots : List Node) : Prop where
  external : ∀ node, p.Reachable roots node → ∃ external, p.externalFor node = .ok external
  resolved : ∀ node, p.Reachable roots node → p.unresolvedFor node = .ok []
  uses : ∀ node, p.Reachable roots node → (p.depsOf node).uses = []
  outputs : ∀ node, p.Reachable roots node → ∃ outputs, p.outputs node = .ok outputs
  owners : ∀ node, p.Reachable roots node → ∀ other, p.Reachable roots other →
    ∀ outputs, p.outputs node = .ok outputs → ∀ others, p.outputs other = .ok others →
      ∀ output ∈ outputs, ∀ output' ∈ others, output.1 = output'.1 → output.2.key = output'.2.key

end Planner

/-- No two outputs of one path have different owners. -/
def Owned (outputs : List (Text × Node)) : Prop :=
  ∀ a ∈ outputs, ∀ b ∈ outputs, a.1 = b.1 → a.2.key = b.2.key

/-- Owners are inserted exactly where no two outputs of one path have different owners. -/
theorem foldlM_insertOwner {outputs : List (Text × Node)} : ∀ {owners : List (Text × Node)},
    Owned owners → ((∃ owners', outputs.foldlM insertOwner owners = .ok owners') ↔
      Owned (owners ++ outputs)) := by
  induction outputs with
  | nil =>
    intro owners howned
    rw [List.append_nil]
    exact iff_of_true ⟨owners, rfl⟩ howned
  | cons output rest ih =>
    intro owners howned
    rw [List.foldlM_cons]
    cases hfind : owners.find? fun owner ↦ owner.1 = output.1 with
    | none =>
      have hinsert : insertOwner owners output = .ok (output :: owners) := by
        rw [insertOwner, hfind]
      have hnone : ∀ owner ∈ owners, owner.1 ≠ output.1 := by
        intro owner howner
        simpa using List.find?_eq_none.mp hfind owner howner
      have howned' : Owned (output :: owners) := by
        intro a ha b hb hab
        rcases List.mem_cons.mp ha with hae | hao <;> rcases List.mem_cons.mp hb with hbe | hbo
        · rw [hae, hbe]
        · exact absurd (hae ▸ hab.symm) (hnone b hbo)
        · exact absurd (hbe ▸ hab) (hnone a hao)
        · exact howned a hao b hbo hab
      have hperm : ∀ x, x ∈ output :: owners ++ rest ↔ x ∈ owners ++ output :: rest := by
        intro x
        rw [List.cons_append, List.mem_cons, List.mem_append, List.mem_append, List.mem_cons]
        tauto
      rw [hinsert]
      refine (ih howned').trans ?_
      simp only [Owned, hperm]
    | some existing =>
      have hexisting : existing ∈ owners := List.mem_of_find?_eq_some hfind
      have hpath : existing.1 = output.1 := by simpa using List.find?_some hfind
      by_cases hkey : existing.2.key = output.2.key
      · have hinsert : insertOwner owners output = .ok owners := by
          rw [insertOwner, hfind]
          exact if_pos hkey
        rw [hinsert]
        refine (ih howned).trans ⟨fun h ↦ ?_, fun h ↦ ?_⟩
        · -- the output has the path and the owner of one already inserted
          have hsame : ∀ x ∈ owners ++ output :: rest, ∃ y ∈ owners ++ rest,
              y.1 = x.1 ∧ y.2.key = x.2.key := by
            intro x hx
            rcases List.mem_append.mp hx with hx | hx
            · exact ⟨x, List.mem_append_left _ hx, rfl, rfl⟩
            · rcases List.mem_cons.mp hx with rfl | hx
              · exact ⟨existing, List.mem_append_left _ hexisting, hpath, hkey⟩
              · exact ⟨x, List.mem_append_right _ hx, rfl, rfl⟩
          intro a ha b hb hab
          obtain ⟨a', ha', hpathA, hkeyA⟩ := hsame a ha
          obtain ⟨b', hb', hpathB, hkeyB⟩ := hsame b hb
          rw [← hkeyA, ← hkeyB]
          exact h a' ha' b' hb' (hpathA.trans (hab.trans hpathB.symm))
        · intro a ha b hb hab
          have hmono : ∀ x ∈ owners ++ rest, x ∈ owners ++ output :: rest := by
            intro x hx
            rcases List.mem_append.mp hx with hx | hx
            · exact List.mem_append_left _ hx
            · exact List.mem_append_right _ (List.mem_cons_of_mem _ hx)
          exact h a (hmono a ha) b (hmono b hb) hab
      · have hinsert : ∃ message, insertOwner owners output = .error (.rejected message) := by
          rw [insertOwner, hfind]
          exact ⟨_, if_neg hkey⟩
        obtain ⟨message, hinsert⟩ := hinsert
        rw [hinsert]
        refine iff_of_false ?_ fun h ↦ hkey ?_
        · rintro ⟨owners', howners⟩
          cases howners
        · exact h existing (List.mem_append_left _ hexisting) output
            (List.mem_append_right _ List.mem_cons_self) hpath

/-- The errors that refuse what a node names, uses or writes. -/
def PlanError.Refusal : PlanError → Prop
  | .rejected _ | .path => True
  | _ => False

theorem refusal_of_validateExtraOutputDecl {node : Node} {path : Text} {e : PlanError}
    (h : validateExtraOutputDecl node path = .error e) : e.Refusal := by
  unfold validateExtraOutputDecl at h
  dsimp only at h
  split_ifs at h
  all_goals
    rw [← Except.error.inj h]
    trivial

theorem refusal_of_insertOwner {owners : List (Text × Node)} {output : Text × Node} {e : PlanError}
    (h : insertOwner owners output = .error e) : e.Refusal := by
  unfold insertOwner at h
  split at h
  · cases h
  · split_ifs at h
    rw [← Except.error.inj h]
    trivial

namespace Planner

variable {p : Planner} {roots selected : List Node} {node : Node} {e : PlanError}

theorem refusal_of_outputs (h : p.outputs node = .error e) : e.Refusal := by
  rcases bind_eq_error_iff.mp h with hdecl | ⟨_, -, hpaths⟩
  · obtain ⟨path, -, hpath⟩ := exists_of_forM_eq_error hdecl
    exact refusal_of_validateExtraOutputDecl hpath
  · obtain ⟨declaration, -, hdeclaration⟩ := exists_of_mapM_eq_error hpaths
    rcases bind_eq_error_iff.mp hdeclaration with hpath | ⟨path, -, hdir⟩
    · rcases bind_eq_error_iff.mp hpath with hconcat | ⟨path, -, hok⟩
      · rw [eq_path_of_concatPath hconcat]
        trivial
      · cases hok
    · split_ifs at hdir
      rw [← Except.error.inj hdir]
      trivial

/-- Extra outputs pass exactly when each node's are valid and no two nodes own one of them. -/
theorem validateExtraOutputOwnership_eq_ok_iff :
    p.validateExtraOutputOwnership selected = .ok () ↔
      (∀ node ∈ selected, ∃ outputs, p.outputs node = .ok outputs) ∧
      ∀ node ∈ selected, ∀ other ∈ selected, ∀ outputs, p.outputs node = .ok outputs →
        ∀ others, p.outputs other = .ok others → ∀ output ∈ outputs, ∀ output' ∈ others,
          output.1 = output'.1 → output.2.key = output'.2.key := by
  have howned : ∀ {outputs : List (List (Text × Node))},
      selected.mapM p.outputs = .ok outputs →
      (Owned outputs.flatten ↔ ∀ node ∈ selected, ∀ other ∈ selected, ∀ outputs,
        p.outputs node = .ok outputs → ∀ others, p.outputs other = .ok others →
          ∀ output ∈ outputs, ∀ output' ∈ others, output.1 = output'.1 →
            output.2.key = output'.2.key) := by
    intro outputs hmap
    constructor
    · intro h node hnode other hother own hown others hothers output houtput output' houtput' hpath
      obtain ⟨own', hmem, hown'⟩ := exists_result_of_mem hmap hnode
      obtain ⟨others', hmem', hothers'⟩ := exists_result_of_mem hmap hother
      rw [hown, Except.ok.injEq] at hown'
      rw [hothers, Except.ok.injEq] at hothers'
      exact h output (List.mem_flatten.mpr ⟨own, hown' ▸ hmem, houtput⟩) output'
        (List.mem_flatten.mpr ⟨others, hothers' ▸ hmem', houtput'⟩) hpath
    · intro h a ha b hb hab
      obtain ⟨own, hown, haOwn⟩ := List.mem_flatten.mp ha
      obtain ⟨others, hothers, hbOthers⟩ := List.mem_flatten.mp hb
      obtain ⟨node, hnode, hnodeOutputs⟩ := exists_of_mem_result hmap hown
      obtain ⟨other, hother, hotherOutputs⟩ := exists_of_mem_result hmap hothers
      exact h node hnode other hother own hnodeOutputs others hotherOutputs a haOwn b hbOthers hab
  constructor
  · intro h
    obtain ⟨outputs, houtputs, hrest⟩ := bind_eq_ok_iff.mp h
    obtain ⟨owners, hfold, -⟩ := bind_eq_ok_iff.mp hrest
    refine ⟨fun node hnode ↦ ?_, (howned houtputs).mp ?_⟩
    · obtain ⟨own, -, hown⟩ := exists_result_of_mem houtputs hnode
      exact ⟨own, hown⟩
    · have hempty : Owned ([] : List (Text × Node)) := fun a ha ↦ absurd ha List.not_mem_nil
      simpa using (foldlM_insertOwner hempty).mp ⟨owners, hfold⟩
  · rintro ⟨hoks, hsame⟩
    choose! own hown using hoks
    have hmap : selected.mapM p.outputs = .ok (selected.map own) := mapM_eq_ok hown
    have hempty : Owned ([] : List (Text × Node)) := fun a ha ↦ absurd ha List.not_mem_nil
    obtain ⟨owners, hfold⟩ := (foldlM_insertOwner hempty).mpr
      (by simpa using (howned hmap).mpr hsame)
    exact bind_eq_ok_iff.mpr ⟨_, hmap, bind_eq_ok_iff.mpr ⟨owners, hfold, rfl⟩⟩

theorem refusal_of_validateExtraOutputOwnership
    (h : p.validateExtraOutputOwnership selected = .error e) : e.Refusal := by
  rcases bind_eq_error_iff.mp h with houtputs | ⟨outputs, -, hrest⟩
  · obtain ⟨node, -, hnode⟩ := exists_of_mapM_eq_error houtputs
    exact refusal_of_outputs hnode
  · rcases bind_eq_error_iff.mp hrest with hfold | ⟨owners, -, hok⟩
    · obtain ⟨owners, output, -, hinsert⟩ := exists_of_foldlM_eq_error hfold
      exact refusal_of_insertOwner hinsert
    · cases hok

theorem targetRoots_subset {selection : TargetSelection} (h : p.targetRoots selection = .ok roots) :
    roots ⊆ p.nodes := by
  cases selection with
  | allTargets =>
    rw [← Except.ok.inj h]
    exact List.Subset.refl _
  | selectedTargets targets =>
    obtain ⟨found, hfound, hroots⟩ := bind_eq_ok_iff.mp h
    rw [← Except.ok.inj hroots]
    intro root hroot
    obtain ⟨named, hnamed, hmem⟩ := List.mem_flatten.mp hroot
    obtain ⟨target, -, htarget⟩ := exists_of_mem_result hfound hnamed
    unfold findTarget at htarget
    split at htarget
    · cases htarget
    · rw [← Except.ok.inj htarget] at hmem
      exact lookup_subset target hmem

/-- Only a name without nodes is no target. -/
theorem unknown_of_targetRoots {selection : TargetSelection} (h : p.targetRoots selection = .error e) :
    ∃ target, e = .unknownTarget target (p.nodes.map Node.logicalName) ∧
      ∀ node ∈ p.nodes, node.logicalName ≠ target := by
  cases selection with
  | allTargets => cases h
  | selectedTargets targets =>
    rcases bind_eq_error_iff.mp h with hfound | ⟨found, -, hok⟩
    · obtain ⟨target, -, htarget⟩ := exists_of_mapM_eq_error hfound
      refine ⟨target, ?_, fun node hnode hname ↦ ?_⟩
      · unfold findTarget at htarget
        split at htarget
        · exact (Except.error.inj htarget).symm
        · cases htarget
      · have hmem : node ∈ p.lookup target := mem_lookup.mpr ⟨hnode, hname⟩
        unfold findTarget at htarget
        split at htarget
        next hnone =>
          rw [hnone] at hmem
          exact List.not_mem_nil hmem
        next => cases htarget
    · cases hok

/-- In the graph made of nodes, each node has what was computed for it. -/
theorem graphValues_of_buildResolvedDependencyGraph {graph : ResolvedDependencyGraph}
    (hselected : (selected.map Node.key).Nodup)
    (h : p.buildResolvedDependencyGraph selected = .ok graph) (hnode : node ∈ selected) :
    p.resolvedFor node = .ok (graphValues graph.resolved node) ∧
      p.externalFor node = .ok (graphValues graph.external node) ∧
      p.unresolvedFor node = .ok (graphValues graph.unresolved node) := by
  obtain ⟨symbolic, -, h⟩ := bind_eq_ok_iff.mp h
  obtain ⟨resolved, hresolved, h⟩ := bind_eq_ok_iff.mp h
  obtain ⟨external, hexternal, h⟩ := bind_eq_ok_iff.mp h
  obtain ⟨unresolved, hunresolved, h⟩ := bind_eq_ok_iff.mp h
  obtain ⟨reverse, -, h⟩ := bind_eq_ok_iff.mp h
  rw [← Except.ok.inj h]
  exact ⟨graphValues_of_dependencyPairs hselected hresolved hnode,
    graphValues_of_dependencyPairs hselected hexternal hnode,
    graphValues_of_dependencyPairs hselected hunresolved hnode⟩

section Described

variable (hkeys : (p.nodes.map Node.key).Nodup) (hdescribed : p.Described)

include hkeys hdescribed

/-- Making the graph of nodes raises only for joining an absolute path, which one of them does. -/
theorem refused_of_buildResolvedDependencyGraph (hsub : selected ⊆ p.nodes)
    (h : p.buildResolvedDependencyGraph selected = .error e) :
    e = .path ∧ ∃ node ∈ selected, p.externalFor node = .error e ∨ p.unresolvedFor node = .error e := by
  have hraised : ∀ {α : Type} {valuesFor : Node → Except PlanError (List α)},
      dependencyPairs selected valuesFor = .error e →
        ∃ node ∈ selected, valuesFor node = .error e := by
    intro α valuesFor hpairs
    rcases bind_eq_error_iff.mp hpairs with hmap | ⟨pairs, -, hok⟩
    · obtain ⟨node, hnode, hraised⟩ := exists_of_mapM_eq_error hmap
      rcases bind_eq_error_iff.mp hraised with hvalues | ⟨values, -, hok⟩
      · exact ⟨node, hnode, hvalues⟩
      · cases hok
    · cases hok
  have hsymbolic : ∀ node ∈ selected, ∃ symbolic, p.symbolicFor node = .ok symbolic := by
    intro node hnode
    obtain ⟨edges, -, hedges, -⟩ := resolvedFor_eq_ok hkeys hdescribed (hsub hnode)
    obtain ⟨symbolic, hsymbolic, -⟩ := bind_eq_ok_iff.mp hedges
    exact ⟨symbolic, hsymbolic⟩
  rcases bind_eq_error_iff.mp h with hfail | ⟨symbolic, -, h⟩
  · obtain ⟨node, hnode, hfail⟩ := hraised hfail
    obtain ⟨symbolic, hok⟩ := hsymbolic node hnode
    rw [hok] at hfail
    cases hfail
  rcases bind_eq_error_iff.mp h with hfail | ⟨resolved, -, h⟩
  · obtain ⟨node, hnode, hfail⟩ := hraised hfail
    obtain ⟨edges, -, hedges, -⟩ := resolvedFor_eq_ok hkeys hdescribed (hsub hnode)
    rw [hedges] at hfail
    cases hfail
  rcases bind_eq_error_iff.mp h with hfail | ⟨external, -, h⟩
  · obtain ⟨node, hnode, hfail⟩ := hraised hfail
    obtain ⟨symbolic, hok⟩ := hsymbolic node hnode
    refine ⟨?_, node, hnode, .inl hfail⟩
    rcases bind_eq_error_iff.mp hfail with hnone | ⟨symbolic, -, hfacts⟩
    · rw [hok] at hnone
      cases hnone
    · rcases bind_eq_error_iff.mp hfacts with hfacts | ⟨facts, -, hok⟩
      · obtain ⟨fact, -, hfact⟩ := exists_of_mapM_eq_error hfacts
        exact eq_path_of_externalFact hfact
      · cases hok
  rcases bind_eq_error_iff.mp h with hfail | ⟨unresolved, -, h⟩
  · obtain ⟨node, hnode, hfail⟩ := hraised hfail
    obtain ⟨symbolic, hok⟩ := hsymbolic node hnode
    refine ⟨?_, node, hnode, .inr hfail⟩
    rcases bind_eq_error_iff.mp hfail with hnone | ⟨symbolic, -, hfacts⟩
    · rw [hok] at hnone
      cases hnone
    · rcases bind_eq_error_iff.mp hfacts with hfacts | ⟨facts, -, hok⟩
      · obtain ⟨fact, -, hfact⟩ := exists_of_mapM_eq_error hfacts
        exact eq_path_of_unresolvedFact hfact
      · cases hok
  rcases bind_eq_error_iff.mp h with hfail | ⟨reverse, -, h⟩
  · obtain ⟨node, -, hfail⟩ := hraised hfail
    cases hfail
  · cases h

end Described

end Planner

theorem rejectGraphUnresolved_eq_ok_iff {graph : ResolvedDependencyGraph} {selected : List Node} :
    rejectGraphUnresolved graph selected = .ok () ↔
      ∀ node ∈ selected, graphValues graph.unresolved node = [] := by
  rw [rejectGraphUnresolved, forM_eq_ok_iff]
  refine forall₂_congr fun node _ ↦ ?_
  cases graphValues graph.unresolved node <;> simp

theorem refusal_of_rejectGraphUnresolved {graph : ResolvedDependencyGraph} {selected : List Node}
    {e : PlanError} (h : rejectGraphUnresolved graph selected = .error e) : e.Refusal := by
  obtain ⟨node, -, hnode⟩ := exists_of_forM_eq_error h
  split at hnode
  · cases hnode
  · rw [← Except.error.inj hnode]
    trivial

theorem Planner.rejectSourceUses_eq_ok_iff {p : Planner} {selected : List Node} :
    p.rejectSourceUses selected = .ok () ↔ ∀ node ∈ selected, (p.depsOf node).uses = [] := by
  rw [rejectSourceUses, forM_eq_ok_iff]
  refine forall₂_congr fun node _ ↦ ?_
  cases (p.depsOf node).uses <;> simp

theorem Planner.refusal_of_rejectSourceUses {p : Planner} {selected : List Node} {e : PlanError}
    (h : p.rejectSourceUses selected = .error e) : e.Refusal := by
  obtain ⟨node, -, hnode⟩ := exists_of_forM_eq_error h
  split at hnode
  · cases hnode
  · rw [← Except.error.inj hnode]
    trivial

/-- Assumes: every edge of a selected node leads to a selected node. The plan is put together. -/
theorem assemble_eq_ok {nodes roots selected : List Node} {graph : ResolvedDependencyGraph}
    {holdir : Text} (hkeys : (selected.map Node.key).Nodup)
    (hedges : ∀ node ∈ selected, ∀ edge ∈ graphValues graph.resolved node,
      ∃ target ∈ selected, target.key = edge.toNode) :
    ∃ adjacency, assemble nodes roots selected graph holdir =
      .ok ⟨nodes, roots, selected, graph, buildKeyIndex selected, adjacency, holdir⟩ := by
  have hposition : ∀ node ∈ selected, ∃ positions,
      ((graphValues graph.resolved node).mapM fun edge ↦
        indexedKeyId (buildKeyIndex selected) edge.toNode) = .ok positions := by
    intro node hnode
    have hfound : ∀ edge ∈ graphValues graph.resolved node, ∃ i,
        indexedKeyId (buildKeyIndex selected) edge.toNode = .ok i := by
      intro edge hedge
      obtain ⟨target, htarget, hkey⟩ := hedges node hnode edge hedge
      exact ⟨_, hkey ▸ indexedKeyId_of_mem hkeys htarget⟩
    choose! position hpositions using hfound
    exact ⟨_, mapM_eq_ok hpositions⟩
  choose! positions hpositions using hposition
  exact ⟨_, bind_eq_ok_iff.mpr ⟨_, mapM_eq_ok hpositions, rfl⟩⟩

/-! ### Outcomes of planning -/

namespace Planner

/-- What planning a selection may end with. A plan selects exactly the reachable nodes, each once and
after the targets of all its edges; a cycle is raised where one is reachable, and anything else only
where planning does not accept the reachable nodes. -/
def Outcome (p : Planner) (selection : TargetSelection) : Except PlanError Plan → Prop
  | .ok plan =>
    p.targetRoots selection = .ok plan.roots ∧ ¬ p.CycleReachable plan.roots ∧
      p.Accepts plan.roots ∧ plan.selected.Nodup ∧
      (∀ node, node ∈ plan.selected ↔ p.Reachable plan.roots node) ∧
      ∀ node ∈ plan.selected,
        p.resolvedFor node = .ok (graphValues plan.dependencyGraph.resolved node) ∧
        ∀ edge ∈ graphValues plan.dependencyGraph.resolved node, ∃ target ∈ plan.selected,
          target.key = edge.toNode ∧ plan.selected.idxOf target < plan.selected.idxOf node
  | .error (.unknownTarget target _) =>
    (∀ roots, p.targetRoots selection ≠ .ok roots) ∧ ∀ node ∈ p.nodes, node.logicalName ≠ target
  | .error (.cycle _) => ∃ roots, p.targetRoots selection = .ok roots ∧ p.CycleReachable roots
  | .error (.rejected _) | .error .path =>
    ∃ roots, p.targetRoots selection = .ok roots ∧ ¬ p.CycleReachable roots ∧ ¬ p.Accepts roots
  | .error (.internal _) | .error .exhausted => False

variable {p : Planner} {selection : TargetSelection} {e : PlanError}

/-- A refusal of reachable nodes that have no cycle and are not accepted is an outcome. -/
theorem outcome_of_refusal {roots : List Node} (he : e.Refusal)
    (hroots : p.targetRoots selection = .ok roots) (hcycle : ¬ p.CycleReachable roots)
    (haccepts : ¬ p.Accepts roots) : p.Outcome selection (.error e) := by
  cases e with
  | rejected message => exact ⟨roots, hroots, hcycle, haccepts⟩
  | path => exact ⟨roots, hroots, hcycle, haccepts⟩
  | unknownTarget | cycle | internal | exhausted => exact absurd he id

theorem outcome_planSelection (hkeys : (p.nodes.map Node.key).Nodup) (hdescribed : p.Described)
    (holdir : Text) (selection : TargetSelection) :
    p.Outcome selection (p.planSelection holdir selection) := by
  cases hroots : p.targetRoots selection with
  | error e =>
    obtain ⟨target, rfl, hnames⟩ := unknown_of_targetRoots hroots
    rw [planSelection, hroots]
    refine ⟨fun roots hok ↦ ?_, hnames⟩
    rw [hroots] at hok
    cases hok
  | ok roots =>
  have hrootsSub : roots ⊆ p.nodes := targetRoots_subset hroots
  rw [planSelection, hroots]
  show p.Outcome selection (p.bootstrapTopoSort roots >>= _)
  rcases bootstrapTopoSort_spec hkeys hdescribed hrootsSub with
    ⟨reachable, hreachable, hnodup, hready, hmem⟩ | ⟨⟨message, hmessage⟩, hcycle⟩
  swap
  · rw [hmessage]
    exact ⟨roots, hroots, hcycle⟩
  have hnocycle : ¬ p.CycleReachable roots := by
    rintro ⟨node, hreach, hcycle⟩
    rw [← next_eq_dependsOn hkeys hdescribed] at hcycle
    exact hready.not_transGen ((hmem node).mpr hreach) hcycle
  have hsub : reachable ⊆ p.nodes := fun node hnode ↦ ((hmem node).mp hnode).mem hrootsSub
  have hdistinct : ∀ {nodes : List Node}, nodes.Nodup → nodes ⊆ p.nodes →
      (nodes.map Node.key).Nodup := by
    intro nodes hnodup hnodes
    exact hnodup.map_on fun a ha b hb hab ↦ eq_of_key_eq hkeys a (hnodes ha) b (hnodes hb) hab
  rw [hreachable]
  show p.Outcome selection (p.buildResolvedDependencyGraph reachable >>= _)
  cases hgraph : p.buildResolvedDependencyGraph reachable with
  | error e =>
    obtain ⟨rfl, node, hnode, hfail⟩ :=
      refused_of_buildResolvedDependencyGraph hkeys hdescribed hsub hgraph
    refine ⟨roots, hroots, hnocycle, fun haccepts ↦ ?_⟩
    have hreach := (hmem node).mp hnode
    rcases hfail with hexternal | hunresolved
    · obtain ⟨external, hok⟩ := haccepts.external node hreach
      rw [hok] at hexternal
      cases hexternal
    · rw [haccepts.resolved node hreach] at hunresolved
      cases hunresolved
  | ok graph =>
  have hvalues := fun node (hnode : node ∈ reachable) ↦
    graphValues_of_buildResolvedDependencyGraph (hdistinct hnodup hsub) hgraph hnode
  obtain ⟨selected, hselected, hnodup', hready', hmem'⟩ :=
    topoSortResolved_spec hkeys hdescribed hrootsSub hnodup hready hmem
      fun node hnode ↦ (hvalues node hnode).1
  have hsame : ∀ node, node ∈ selected ↔ node ∈ reachable := fun node ↦ (hmem' node).trans (hmem node).symm
  show p.Outcome selection (topoSortResolved reachable roots graph >>= _)
  rw [hselected]
  show p.Outcome selection (rejectGraphUnresolved graph selected >>= _)
  cases hunresolved : rejectGraphUnresolved graph selected with
  | error e =>
    refine outcome_of_refusal (refusal_of_rejectGraphUnresolved hunresolved) hroots hnocycle ?_
    intro haccepts
    have hok : rejectGraphUnresolved graph selected = .ok () := by
      rw [rejectGraphUnresolved_eq_ok_iff]
      intro node hnode
      have hnone := haccepts.resolved node ((hmem' node).mp hnode)
      rw [(hvalues node ((hsame node).mp hnode)).2.2] at hnone
      exact Except.ok.inj hnone
    rw [hok] at hunresolved
    cases hunresolved
  | ok _ =>
  show p.Outcome selection (p.rejectSourceUses selected >>= _)
  cases huses : p.rejectSourceUses selected with
  | error e =>
    refine outcome_of_refusal (refusal_of_rejectSourceUses huses) hroots hnocycle ?_
    intro haccepts
    rw [rejectSourceUses_eq_ok_iff.mpr fun node hnode ↦
      haccepts.uses node ((hmem' node).mp hnode)] at huses
    cases huses
  | ok _ =>
  show p.Outcome selection (p.validateExtraOutputOwnership selected >>= _)
  cases houtputs : p.validateExtraOutputOwnership selected with
  | error e =>
    refine outcome_of_refusal (refusal_of_validateExtraOutputOwnership houtputs) hroots hnocycle ?_
    intro haccepts
    have hok : p.validateExtraOutputOwnership selected = .ok () := by
      rw [validateExtraOutputOwnership_eq_ok_iff]
      exact ⟨fun node hnode ↦ haccepts.outputs node ((hmem' node).mp hnode),
        fun node hnode other hother ↦ haccepts.owners node ((hmem' node).mp hnode) other
          ((hmem' other).mp hother)⟩
    rw [hok] at houtputs
    cases houtputs
  | ok _ =>
  have hedges : ∀ node ∈ selected, ∀ edge ∈ graphValues graph.resolved node,
      ∃ target ∈ selected, target.key = edge.toNode ∧ selected.idxOf target < selected.idxOf node := by
    intro node hnode edge hedge
    obtain ⟨edges, targets, hresolved, hkeysEq, htargets⟩ :=
      resolvedFor_eq_ok hkeys hdescribed (hsub ((hsame node).mp hnode))
    rw [(hvalues node ((hsame node).mp hnode)).1, Except.ok.injEq] at hresolved
    have hkey : edge.toNode ∈ targets.map Node.key := by
      rw [← hkeysEq, ← hresolved]
      exact List.mem_map_of_mem hedge
    obtain ⟨target, htarget, hkey⟩ := List.mem_map.mp hkey
    have hlt := (hready'.idxOf_lt hnode ((htargets target).mp htarget)).resolve_left List.not_mem_nil
    have hmemTarget := List.idxOf_lt_length_iff.mp
      (hlt.trans (List.idxOf_lt_length_iff.mpr hnode))
    exact ⟨target, hmemTarget, hkey, hlt⟩
  have hkeysSelected : (selected.map Node.key).Nodup :=
    hdistinct hnodup' fun node hnode ↦ hsub ((hsame node).mp hnode)
  obtain ⟨adjacency, hassemble⟩ := @assemble_eq_ok p.nodes roots selected graph holdir hkeysSelected
    fun node hnode edge hedge ↦ by
      obtain ⟨target, htarget, hkey, -⟩ := hedges node hnode edge hedge
      exact ⟨target, htarget, hkey⟩
  show p.Outcome selection (assemble p.nodes roots selected graph holdir)
  rw [hassemble]
  refine ⟨hroots, hnocycle, ⟨fun node hnode ↦ ?_, fun node hnode ↦ ?_, fun node hnode ↦ ?_,
    fun node hnode ↦ ?_, fun node hnode other hother ↦ ?_⟩, hnodup', hmem', fun node hnode ↦ ?_⟩
  · exact ⟨_, (hvalues node ((hmem node).mpr hnode)).2.1⟩
  · rw [(hvalues node ((hmem node).mpr hnode)).2.2,
      rejectGraphUnresolved_eq_ok_iff.mp hunresolved node ((hmem' node).mpr hnode)]
  · exact rejectSourceUses_eq_ok_iff.mp huses node ((hmem' node).mpr hnode)
  · exact (validateExtraOutputOwnership_eq_ok_iff.mp houtputs).1 node ((hmem' node).mpr hnode)
  · exact (validateExtraOutputOwnership_eq_ok_iff.mp houtputs).2 node ((hmem' node).mpr hnode) other
      ((hmem' other).mpr hother)
  · exact ⟨(hvalues node ((hsame node).mp hnode)).1, hedges node hnode⟩

/-- Assumes: nodes with distinct keys, and components made of the nodes' sources. Planning a selection
ends as `Outcome` says, with a cycle error exactly where a cycle is reachable from the roots, and the
bootstrap dependencies of each node are the targets of its resolved edges. -/
theorem planSelection_order (p : Planner) (hkeys : (p.nodes.map Node.key).Nodup)
    (hdescribed : p.Described) (holdir : Text) (selection : TargetSelection) :
    p.Outcome selection (p.planSelection holdir selection) ∧
      ((∃ message, p.planSelection holdir selection = .error (.cycle message)) ↔
        ∃ roots, p.targetRoots selection = .ok roots ∧ p.CycleReachable roots) ∧
      ∀ node ∈ p.nodes, ∃ deps edges, p.bootstrapProjectDeps node = .ok deps ∧
        p.resolvedFor node = .ok edges ∧ (∀ target, target ∈ deps ↔ p.DependsOn node target) ∧
          ∀ edge ∈ edges, ∃ target ∈ deps, target.key = edge.toNode := by
  have houtcome := outcome_planSelection hkeys hdescribed holdir selection
  refine ⟨houtcome, ⟨?_, ?_⟩, fun node hnode ↦ ?_⟩
  · rintro ⟨message, hmessage⟩
    rw [hmessage] at houtcome
    exact houtcome
  · rintro ⟨roots, hroots, hcycle⟩
    cases hplan : p.planSelection holdir selection with
    | ok plan =>
      rw [hplan] at houtcome
      rw [houtcome.1, Except.ok.injEq] at hroots
      exact absurd (hroots ▸ hcycle) houtcome.2.1
    | error e =>
      rw [hplan] at houtcome
      cases e with
      | cycle message => exact ⟨message, rfl⟩
      | unknownTarget => exact absurd hroots (houtcome.1 roots)
      | rejected | path =>
        obtain ⟨roots', hroots', hnone, -⟩ := houtcome
        rw [hroots', Except.ok.injEq] at hroots
        exact absurd (hroots ▸ hcycle) hnone
      | internal | exhausted => exact absurd houtcome id
  · obtain ⟨edges, targets, hedges, hkeysEq, htargets⟩ := resolvedFor_eq_ok hkeys hdescribed hnode
    refine ⟨p.next node, edges, (bootstrapProjectDeps_eq_ok hkeys hdescribed hnode).1, hedges,
      fun target ↦ mem_next_iff hkeys hdescribed, fun edge hedge ↦ ?_⟩
    have hkey : edge.toNode ∈ targets.map Node.key := by
      rw [← hkeysEq]
      exact List.mem_map_of_mem hedge
    obtain ⟨target, htarget, hkey⟩ := List.mem_map.mp hkey
    exact ⟨target, (htargets target).mp htarget, hkey⟩

/-- A source of one package with the default policy. -/
def sampleSource (kind : Kind) (name path : String) : Source :=
  ⟨path.toList, "p".toList, "/p".toList, kind, name.toList, ("/p/" ++ path).toList, path.toList,
    ⟨[], [], [], true, false⟩⟩

/-- A structure that loads another one, which has a signature. -/
def sampleSources : List Source :=
  [sampleSource .sml "a" "a.sml", sampleSource .sml "b" "b.sml", sampleSource .sig "b" "b.sig"]

/-- The planner of these sources, where the first loads `load`. -/
def samplePlanner (load : String) : Planner where
  components := [⟨"p".toList, sampleSources⟩]
  analysis source :=
    ⟨if source.logicalName = "a".toList then [load.toList] else [], [], [], [], []⟩
  nodes := makeNodes "/hol".toList sampleSources
  readable _ := false
  isDir _ := false

example : ((samplePlanner "b").planSelection "/hol".toList (.selectedTargets ["a".toList])).toOption.map
    (fun plan ↦ plan.selected.map Node.relativePath) =
      some ["b.sig".toList, "b.sml".toList, "a.sml".toList] := by decide +kernel

theorem planSelection_order_sample : (samplePlanner "b").Outcome (.selectedTargets ["a".toList])
    ((samplePlanner "b").planSelection "/hol".toList (.selectedTargets ["a".toList])) :=
  (planSelection_order (samplePlanner "b") (by decide +kernel) (by decide +kernel) "/hol".toList
    (.selectedTargets ["a".toList])).1

/-- Planning does not always end in a plan or a cycle: it refuses a load that nothing resolves. -/
theorem planSelection_refuses_unresolved_load : ¬ ∀ (p : Planner) (holdir : Text)
    (selection : TargetSelection), (p.nodes.map Node.key).Nodup → p.Described →
      (∃ message, p.planSelection holdir selection = .error (.cycle message)) ∨
        ∃ plan, p.planSelection holdir selection = .ok plan := by
  intro hclaim
  have hrun : (samplePlanner "missing").planSelection "/hol".toList .allTargets =
      .error (.rejected "unresolved load missing in p:a.sml".toList) := by decide +kernel
  rcases hclaim (samplePlanner "missing") "/hol".toList .allTargets (by decide +kernel)
    (by decide +kernel) with ⟨message, hcycle⟩ | ⟨plan, hplan⟩
  · rw [hrun] at hcycle
    cases hcycle
  · rw [hrun] at hplan
    cases hplan

end Planner

end Holbuild.BuildPlan
