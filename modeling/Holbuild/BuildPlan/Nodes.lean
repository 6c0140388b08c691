import Holbuild.Library.Paths
import Holbuild.Library.SortedIndex
import Mathlib.Data.List.Lex
import Mathlib.Data.Char
import Mathlib.Data.List.NodupEquivFin

/-!
# Nodes of a build plan and their indexes

A node is a discovered source with the directories of the toolchain its loads may come from. Its key
is its package, its path and its logical name. A plan looks nodes up by name in a sorted index of all
nodes (`lookup`, `mem_lookup`) and by key in a sorted index of their positions (`findKeyId`,
`findKeyId_eq_some_iff`).
-/

set_option autoImplicit false
set_option relaxedAutoImplicit false

namespace Holbuild.BuildPlan

open Library

/-- What a source is: a theory script, a structure or a signature. -/
inductive Kind
  | theoryScript | sml | sig
deriving DecidableEq, Repr

/-- What a manifest declares for the action of a source. -/
structure ActionPolicy where
  deps : List Text
  loads : List Text
  extraInputs : List Text
  cache : Bool
  alwaysReexecute : Bool
deriving DecidableEq, Repr

/-- A discovered source. `id` identifies it in the facts of its package's component. -/
structure Source where
  id : Text
  package : Text
  packageRoot : Text
  kind : Kind
  logicalName : Text
  sourcePath : Text
  relativePath : Text
  policy : ActionPolicy
deriving DecidableEq, Repr

/-- The facts the analyser extracts from a source. -/
structure Dependencies where
  loads : List Text
  uses : List Text
  extraDeps : List Text
  extraOutputs : List Text
  holdepMentions : List Text
deriving DecidableEq, Repr

/-- A source with the toolchain directories its loads may come from. -/
structure Node where
  source : Source
  externalDirs : List Text
deriving DecidableEq, Repr

namespace Node

def logicalName (node : Node) : Text := node.source.logicalName

def package (node : Node) : Text := node.source.package

def relativePath (node : Node) : Text := node.source.relativePath

/-- What identifies a node in the indexes and edges of a plan. -/
def key (node : Node) : Text :=
  node.package ++ '\x00' :: node.relativePath ++ '\x00' :: node.logicalName

end Node

/-- What planning raises: an unknown target, an error of one of three kinds, or `path` for joining an
absolute path to another. `exhausted` has no counterpart in the source: the model's searches have
fuel, which never runs out. -/
inductive PlanError
  | unknownTarget (target : Text) (candidates : List Text)
  | cycle (message : Text)
  | rejected (message : Text)
  | internal (message : Text)
  | path
  | exhausted
deriving DecidableEq, Repr

/-! ### Unique nodes and names -/

/-- Keeps a node unless one of its key was seen. -/
def addUniqueNode (state : List Text × List Node) (node : Node) : List Text × List Node :=
  if node.key ∈ state.1 then state else (node.key :: state.1, node :: state.2)

/-- Keeps the first of the nodes of each key. -/
def uniqueNodes (nodes : List Node) : List Node :=
  (nodes.foldl addUniqueNode ([], [])).2.reverse

/-- Keeps the first of equal texts. -/
def uniqueStrings (texts : List Text) : List Text :=
  (texts.foldl (fun kept text ↦ if text ∈ kept then kept else text :: kept) []).reverse

theorem mem_uniqueStrings {texts : List Text} {text : Text} :
    text ∈ uniqueStrings texts ↔ text ∈ texts := by
  have hfold : ∀ (texts kept : List Text), text ∈ texts.foldl
      (fun kept text ↦ if text ∈ kept then kept else text :: kept) kept ↔
        text ∈ kept ∨ text ∈ texts := by
    intro texts
    induction texts with
    | nil => simp
    | cons first rest ih =>
      intro kept
      rw [List.foldl_cons, ih]
      by_cases hfirst : first ∈ kept
      · rw [if_pos hfirst, List.mem_cons]
        constructor
        · rintro (h | h)
          · exact .inl h
          · exact .inr (.inr h)
        · rintro (h | rfl | h)
          · exact .inl h
          · exact .inl hfirst
          · exact .inr h
      · rw [if_neg hfirst, List.mem_cons, List.mem_cons]
        tauto
  rw [uniqueStrings, List.mem_reverse, hfold]
  simp

theorem mem_foldl_addUniqueNode {known nodes : List Node} {node : Node}
    (hkeys : ∀ a ∈ known, ∀ b ∈ known, a.key = b.key → a = b) (hsub : nodes ⊆ known) :
    ∀ {kept : List Node}, kept ⊆ known →
      (node ∈ (nodes.foldl addUniqueNode (kept.map Node.key, kept)).2 ↔
        node ∈ kept ∨ node ∈ nodes) := by
  induction nodes with
  | nil => simp
  | cons first rest ih =>
    intro kept hkept
    have hrest : rest ⊆ known := fun n hn ↦ hsub (List.mem_cons_of_mem _ hn)
    have hfirst : first ∈ known := hsub List.mem_cons_self
    rw [List.foldl_cons, addUniqueNode]
    by_cases hmem : first.key ∈ kept.map Node.key
    · have hknown : first ∈ kept := by
        obtain ⟨other, hother, hkey⟩ := List.mem_map.mp hmem
        rwa [← hkeys other (hkept hother) first hfirst hkey]
      rw [if_pos hmem, ih hrest hkept, List.mem_cons]
      constructor
      · rintro (h | h)
        · exact .inl h
        · exact .inr (.inr h)
      · rintro (h | rfl | h)
        · exact .inl h
        · exact .inl hknown
        · exact .inr h
    · rw [if_neg hmem]
      show node ∈ (rest.foldl addUniqueNode ((first :: kept).map Node.key, first :: kept)).2 ↔ _
      rw [ih hrest (List.cons_subset.mpr ⟨hfirst, hkept⟩), List.mem_cons, List.mem_cons]
      tauto

/-- Assumes: known nodes with distinct keys, so that a key names one of them. The unique nodes are the
nodes. -/
theorem mem_uniqueNodes {known nodes : List Node} {node : Node}
    (hkeys : ∀ a ∈ known, ∀ b ∈ known, a.key = b.key → a = b) (hsub : nodes ⊆ known) :
    node ∈ uniqueNodes nodes ↔ node ∈ nodes := by
  have hfold := @mem_foldl_addUniqueNode _ _ node hkeys hsub _ (List.nil_subset known)
  rw [uniqueNodes, List.mem_reverse]
  simpa using hfold

theorem nodup_uniqueNodes (nodes : List Node) : (uniqueNodes nodes).Nodup := by
  have hfold : ∀ (nodes : List Node) (state : List Text × List Node),
      state.1 = state.2.map Node.key → state.1.Nodup →
        (nodes.foldl addUniqueNode state).1 = (nodes.foldl addUniqueNode state).2.map Node.key ∧
          (nodes.foldl addUniqueNode state).1.Nodup := by
    intro nodes
    induction nodes with
    | nil => exact fun state hkeys hnodup ↦ ⟨hkeys, hnodup⟩
    | cons node rest ih =>
      intro state hkeys hnodup
      rw [List.foldl_cons, addUniqueNode]
      split
      · exact ih state hkeys hnodup
      · rename_i hnew
        refine ih _ ?_ (List.nodup_cons.mpr ⟨hnew, hnodup⟩)
        rw [List.map_cons, hkeys]
  obtain ⟨hkeys, hnodup⟩ := hfold nodes ([], []) rfl List.nodup_nil
  rw [hkeys] at hnodup
  exact List.nodup_reverse.mpr (List.Nodup.of_map Node.key hnodup)

/-! ### The index of names -/

/-- The nodes of each logical name, sorted by name. -/
def buildNameIndex (nodes : List Node) : List (Text × List Node) :=
  group (sortPairs (byKeys Node.key) (nodes.map fun node ↦ (node.logicalName, node)))

def indexedNodesNamed (index : List (Text × List Node)) (name : Text) : List Node :=
  (lookup? index name).getD []

/-- The nodes with a logical name, as planning looks them up. -/
def lookup (nodes : List Node) (name : Text) : List Node :=
  indexedNodesNamed (buildNameIndex nodes) name

/-- A lookup finds the nodes of the name. -/
theorem mem_lookup {nodes : List Node} {name : Text} {node : Node} :
    node ∈ lookup nodes name ↔ node ∈ nodes ∧ node.logicalName = name := by
  rw [lookup, indexedNodesNamed, buildNameIndex, lookup?_group (pairwise_byKeys _ _), valuesOf]
  simp [(sortPairs_perm _).mem_iff]

/-! ### The index of keys -/

/-- The position of each key, sorted by key. -/
def buildKeyIndex (nodes : List Node) : List (Text × ℕ) :=
  sortPairs byKey (nodes.zipIdx.map fun (node, i) ↦ (node.key, i))

def findKeyId (index : List (Text × ℕ)) (key : Text) : Option ℕ := lookup? index key

def indexedKeyId (index : List (Text × ℕ)) (key : Text) : Except PlanError ℕ :=
  match findKeyId index key with
  | some id => .ok id
  | none => .error (.internal ("internal missing node key: ".toList ++ key))

/-- Assumes: distinct keys. A key is found at the position of its node. -/
theorem findKeyId_eq_some_iff {nodes : List Node} (hkeys : (nodes.map Node.key).Nodup) {key : Text}
    {i : ℕ} : findKeyId (buildKeyIndex nodes) key = some i ↔ ∃ node, nodes[i]? = some node ∧
      node.key = key := by
  have hnodup : ((nodes.zipIdx.map fun (node, i) ↦ (node.key, i)).map Prod.fst).Nodup := by
    rw [List.map_map]
    have hfst : (Prod.fst ∘ fun (entry : Node × ℕ) ↦ (entry.1.key, entry.2)) =
        Node.key ∘ Prod.fst := rfl
    have hmap : nodes.zipIdx.map (Node.key ∘ Prod.fst) = nodes.map Node.key := by
      rw [← List.map_map, List.zipIdx_map_fst]
    show (nodes.zipIdx.map (Prod.fst ∘ fun (entry : Node × ℕ) ↦ (entry.1.key, entry.2))).Nodup
    rw [hfst, hmap]
    exact hkeys
  rw [findKeyId, buildKeyIndex, lookup?_sortPairs hnodup, List.mem_map]
  constructor
  · rintro ⟨⟨node, j⟩, hmem, heq⟩
    rw [List.mem_zipIdx_iff_getElem?] at hmem
    rw [Prod.mk.injEq] at heq
    exact ⟨node, heq.2 ▸ hmem, heq.1⟩
  · rintro ⟨node, hnode, rfl⟩
    exact ⟨(node, i), List.mem_zipIdx_iff_getElem?.mpr hnode, rfl⟩

/-- Distinct keys name distinct nodes. -/
theorem eq_of_key_eq {nodes : List Node} (hkeys : (nodes.map Node.key).Nodup) :
    ∀ a ∈ nodes, ∀ b ∈ nodes, a.key = b.key → a = b :=
  fun _ ha _ hb hab ↦ List.inj_on_of_nodup_map hkeys ha hb hab

/-- Assumes: distinct keys. The key of a node of the list is found at the node's position. -/
theorem indexedKeyId_of_mem {nodes : List Node} (hkeys : (nodes.map Node.key).Nodup) {node : Node}
    (hnode : node ∈ nodes) : indexedKeyId (buildKeyIndex nodes) node.key = .ok (nodes.idxOf node) := by
  have hfind : findKeyId (buildKeyIndex nodes) node.key = some (nodes.idxOf node) := by
    rw [findKeyId_eq_some_iff hkeys]
    exact ⟨node, List.getElem?_idxOf hnode, rfl⟩
  rw [indexedKeyId, hfind]

end Holbuild.BuildPlan
