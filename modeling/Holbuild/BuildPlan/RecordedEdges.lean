import Holbuild.BuildPlan.PlanningOrder

/-!
# The edges of a plan record

A record keeps the dependencies of a node against its symbolic ones, of which the first are the loads
and mentions the analyser extracted: an external dependency as one letter for each symbolic one, and a
resolved edge as a position among them with its target (`compactEdges`).

Nothing is lost (`expandEdges_eq_ok`): each dependency is written at some symbolic one of its name and
reason, so reading it there gives it back, whichever of several equal names was taken. Planning makes
the dependencies of a node from its symbolic ones in order, each at most one external, so they have a
place among them (`Planner.compactEdges_eq_ok`).
-/

set_option autoImplicit false
set_option relaxedAutoImplicit false

namespace Holbuild.BuildPlan

open Library

/-! ### Writing and reading edges -/

/-- A name with the reason of a dependency. -/
abbrev NamedReason := Text × DependencyReason

/-- Raised for dependencies that cannot be written, and for a record that cannot be read. -/
inductive EdgeError
  | irregular
  | bad (what : Text)
deriving DecidableEq, Repr

/-- The dependencies the analyser extracted. -/
def extractedSymbolic (deps : Dependencies) : List NamedReason :=
  deps.loads.map (fun name ↦ (name, .extractedLoad)) ++
    deps.holdepMentions.map fun name ↦ (name, .extractedHoldepMention)

def externalKindChar : ExternalDependencyKind → Char
  | .externalTheory => 't'
  | .externalLibrary => 'l'
  | .externalInput => 'i'

/-- One letter for each symbolic dependency, `-` for one without an external dependency. -/
def externalCodes : List NamedReason → List (Text × ExternalDependencyKind × DependencyReason) →
    Except EdgeError Text
  | [], [] => .ok []
  | [], _ :: _ => .error .irregular
  | dep :: deps, (name, kind, reason) :: rest =>
    if (name, reason) = dep then do
      let codes ← externalCodes deps rest
      .ok (externalKindChar kind :: codes)
    else do
      let codes ← externalCodes deps ((name, kind, reason) :: rest)
      .ok ('-' :: codes)
  | _ :: deps, [] => do
    let codes ← externalCodes deps []
    .ok ('-' :: codes)

/-- What a record keeps of a node's dependencies; `τ` is what it keeps of an edge's target. -/
structure CompactEdges (τ : Type) where
  declared : List NamedReason
  external : Text
  resolved : List (ℕ × τ)

/-- The dependencies of a node. -/
structure NodeEdges (τ : Type) where
  symbolic : List NamedReason
  resolved : List (τ × Text × DependencyReason)
  external : List (Text × ExternalDependencyKind × DependencyReason)

section Targets

variable {τ : Type}

/-- Each edge with the position of a symbolic dependency, where the first of `deps` is at `i`. -/
def edgePositions (i : ℕ) : List NamedReason → List (τ × Text × DependencyReason) →
    Except EdgeError (List (ℕ × τ))
  | _, [] => .ok []
  | [], _ :: _ => .error .irregular
  | dep :: deps, (target, name, reason) :: rest =>
    if (name, reason) = dep then do
      let positions ← edgePositions i (dep :: deps) rest
      .ok ((i, target) :: positions)
    else edgePositions (i + 1) deps ((target, name, reason) :: rest)
termination_by deps edges => deps.length + edges.length

/-- The symbolic dependencies after the extracted ones. -/
def declaredSymbolic (extracted symbolic : List NamedReason) : Except EdgeError (List NamedReason) :=
  if symbolic.length < extracted.length then .error .irregular
  else if symbolic.take extracted.length = extracted then .ok (symbolic.drop extracted.length)
  else .error .irregular

def compactEdges (deps : Dependencies) (edges : NodeEdges τ) : Except EdgeError (CompactEdges τ) := do
  let declared ← declaredSymbolic (extractedSymbolic deps) edges.symbolic
  let external ← externalCodes edges.symbolic edges.external
  let resolved ← edgePositions 0 edges.symbolic edges.resolved
  .ok ⟨declared, external, resolved⟩

/-- The external dependency a letter stands for, if any. -/
def externalAt : NamedReason × Char →
    Except EdgeError (Option (Text × ExternalDependencyKind × DependencyReason))
  | ((name, reason), c) =>
    if c = '-' then .ok none
    else if c = 't' then .ok (some (name, .externalTheory, reason))
    else if c = 'l' then .ok (some (name, .externalLibrary, reason))
    else if c = 'i' then .ok (some (name, .externalInput, reason))
    else .error (.bad "external edge kind".toList)

/-- The edge at a position of the symbolic dependencies. -/
def resolvedAt (symbolic : List NamedReason) (edge : ℕ × τ) :
    Except EdgeError (τ × Text × DependencyReason) :=
  match symbolic[edge.1]? with
  | some (name, reason) => .ok (edge.2, name, reason)
  | none => .error (.bad "resolved edge".toList)

def expandEdges (deps : Dependencies) (declared : List NamedReason) (externalCodes : Text)
    (resolved : List (ℕ × τ)) : Except EdgeError (NodeEdges τ) :=
  let symbolic := extractedSymbolic deps ++ declared
  if externalCodes.length = symbolic.length then do
    let external ← (symbolic.zip externalCodes).mapM externalAt
    let edges ← resolved.mapM (resolvedAt symbolic)
    .ok ⟨symbolic, edges, external.filterMap id⟩
  else .error (.bad "external edges".toList)

/-! ### What is written can be read -/

variable {deps : Dependencies} {symbolic declared : List NamedReason}
  {external : List (Text × ExternalDependencyKind × DependencyReason)}

theorem extracted_append_of_declaredSymbolic {extracted : List NamedReason}
    (h : declaredSymbolic extracted symbolic = .ok declared) : extracted ++ declared = symbolic := by
  unfold declaredSymbolic at h
  split at h
  · cases h
  · split at h
    · next htake =>
      calc
        extracted ++ declared = symbolic.take extracted.length ++ symbolic.drop extracted.length := by
          rw [htake, Except.ok.inj h]
        _ = symbolic := List.take_append_drop _ _
    · cases h

/-- The letter of a kind stands for a dependency of this kind. -/
theorem externalAt_externalKindChar (name : Text) (kind : ExternalDependencyKind)
    (reason : DependencyReason) :
    externalAt ((name, reason), externalKindChar kind) = .ok (some (name, kind, reason)) := by
  cases kind <;> rfl

/-- The letters, one for each symbolic dependency, stand for the external dependencies in order. -/
theorem externalAt_of_externalCodes {codes : Text} (h : externalCodes symbolic external = .ok codes) :
    codes.length = symbolic.length ∧ ∃ found, (symbolic.zip codes).mapM externalAt = .ok found ∧
      found.filterMap id = external := by
  fun_induction externalCodes symbolic external generalizing codes with
  | case1 =>
    obtain rfl := Except.ok.inj h
    exact ⟨rfl, [], rfl, rfl⟩
  | case2 => cases h
  | case3 deps name kind reason rest ih =>
    obtain ⟨codes', hcodes, h⟩ := bind_eq_ok_iff.mp h
    obtain rfl := Except.ok.inj h
    obtain ⟨hlength, found, hfound, hexternal⟩ := ih hcodes
    refine ⟨congrArg Nat.succ hlength, some (name, kind, reason) :: found, ?_, ?_⟩
    · rw [List.zip_cons_cons, List.mapM_cons]
      refine bind_eq_ok_iff.mpr ⟨_, externalAt_externalKindChar name kind reason, ?_⟩
      exact bind_eq_ok_iff.mpr ⟨found, hfound, rfl⟩
    · rw [← hexternal]
      rfl
  | case4 dep deps name kind reason rest _ ih =>
    obtain ⟨codes', hcodes, h⟩ := bind_eq_ok_iff.mp h
    obtain rfl := Except.ok.inj h
    obtain ⟨hlength, found, hfound, hexternal⟩ := ih hcodes
    refine ⟨congrArg Nat.succ hlength, none :: found, ?_, hexternal⟩
    rw [List.zip_cons_cons, List.mapM_cons]
    exact bind_eq_ok_iff.mpr ⟨none, rfl, bind_eq_ok_iff.mpr ⟨found, hfound, rfl⟩⟩
  | case5 dep deps ih =>
    obtain ⟨codes', hcodes, h⟩ := bind_eq_ok_iff.mp h
    obtain rfl := Except.ok.inj h
    obtain ⟨hlength, found, hfound, hexternal⟩ := ih hcodes
    refine ⟨congrArg Nat.succ hlength, none :: found, ?_, hexternal⟩
    rw [List.zip_cons_cons, List.mapM_cons]
    exact bind_eq_ok_iff.mpr ⟨none, rfl, bind_eq_ok_iff.mpr ⟨found, hfound, rfl⟩⟩

/-- The positions, counted from `i` on, stand for the resolved edges in order. -/
theorem resolvedAt_of_edgePositions {i : ℕ} {rest : List NamedReason}
    {edges : List (τ × Text × DependencyReason)} {positions : List (ℕ × τ)}
    (h : edgePositions i rest edges = .ok positions) (hrest : symbolic.drop i = rest) :
    positions.mapM (resolvedAt symbolic) = .ok edges := by
  fun_induction edgePositions i rest edges generalizing positions with
  | case1 =>
    obtain rfl := Except.ok.inj h
    rfl
  | case2 => cases h
  | case3 i deps target name reason rest ih =>
    obtain ⟨positions', hpositions, h⟩ := bind_eq_ok_iff.mp h
    obtain rfl := Except.ok.inj h
    have hat : symbolic[i]? = some (name, reason) := by
      rw [← List.head?_drop, hrest]
      rfl
    have hfound : resolvedAt symbolic (i, target) = .ok (target, name, reason) := by
      rw [resolvedAt, hat]
    rw [List.mapM_cons]
    exact bind_eq_ok_iff.mpr ⟨_, hfound, bind_eq_ok_iff.mpr ⟨rest, ih hpositions hrest, rfl⟩⟩
  | case4 i dep deps target name reason rest _ ih =>
    refine ih h ?_
    rw [← List.tail_drop, hrest]
    rfl

/-- What is written of a node's dependencies reads as these dependencies. -/
theorem expandEdges_eq_ok {edges : NodeEdges τ} {compact : CompactEdges τ}
    (h : compactEdges deps edges = .ok compact) :
    expandEdges deps compact.declared compact.external compact.resolved = .ok edges := by
  obtain ⟨declared, hdeclared, h⟩ := bind_eq_ok_iff.mp h
  obtain ⟨codes, hcodes, h⟩ := bind_eq_ok_iff.mp h
  obtain ⟨positions, hpositions, h⟩ := bind_eq_ok_iff.mp h
  obtain rfl := Except.ok.inj h
  have hsymbolic := extracted_append_of_declaredSymbolic hdeclared
  obtain ⟨hlength, found, hfound, hexternal⟩ := externalAt_of_externalCodes hcodes
  unfold expandEdges
  rw [hsymbolic, if_pos hlength]
  refine bind_eq_ok_iff.mpr ⟨found, hfound, ?_⟩
  refine bind_eq_ok_iff.mpr ⟨edges.resolved, resolvedAt_of_edgePositions hpositions rfl, ?_⟩
  rw [hexternal]

/-! ### What planning makes can be written -/

/-- Labels have places in a list, in order; several may share one. -/
inductive Placed : List NamedReason → List NamedReason → Prop
  | nil (deps : List NamedReason) : Placed deps []
  | place {dep : NamedReason} {deps labels : List NamedReason} (h : Placed (dep :: deps) labels) :
      Placed (dep :: deps) (dep :: labels)
  | skip {deps labels : List NamedReason} (dep : NamedReason) (h : Placed deps labels) :
      Placed (dep :: deps) labels

theorem Placed.tail {label : NamedReason} {rest labels : List NamedReason}
    (h : Placed rest (label :: labels)) : Placed rest labels := by
  generalize hall : label :: labels = all at h
  induction h with
  | nil => cases hall
  | place h _ =>
    obtain ⟨-, rfl⟩ := List.cons.inj hall
    exact h
  | skip dep _ ih => exact .skip dep (ih hall)

/-- Labels that repeat the first of a list have places if the labels after them do. -/
theorem Placed.replicate_append {dep : NamedReason} {deps labels : List NamedReason}
    (h : Placed deps labels) (n : ℕ) : Placed (dep :: deps) (List.replicate n dep ++ labels) := by
  induction n with
  | zero => exact .skip dep h
  | succ n ih => exact .place ih

/-- Edges whose labels have places are written: taking the first place of a label leaves the labels
after it theirs. -/
theorem edgePositions_eq_ok {i : ℕ} {rest : List NamedReason}
    {edges : List (τ × Text × DependencyReason)} (h : Placed rest (edges.map Prod.snd)) :
    ∃ positions, edgePositions i rest edges = .ok positions := by
  fun_induction edgePositions i rest edges with
  | case1 => exact ⟨[], rfl⟩
  | case2 => cases h
  | case3 i deps target name reason rest ih =>
    obtain ⟨positions, hpositions⟩ := ih h.tail
    exact ⟨(i, target) :: positions, bind_eq_ok_iff.mpr ⟨positions, hpositions, rfl⟩⟩
  | case4 i dep deps target name reason rest hne ih =>
    refine ih ?_
    rw [List.map_cons] at h ⊢
    cases h with
    | place => exact absurd rfl hne
    | skip _ h => exact h

/-- External dependencies are written if their labels are, in order, some of the symbolic ones. -/
theorem externalCodes_eq_ok (h : (external.map fun edge ↦ (edge.1, edge.2.2)).Sublist symbolic) :
    ∃ codes, externalCodes symbolic external = .ok codes := by
  fun_induction externalCodes symbolic external with
  | case1 => exact ⟨[], rfl⟩
  | case2 => cases h
  | case3 deps name kind reason rest ih =>
    obtain ⟨codes, hcodes⟩ := ih (List.cons_sublist_cons.mp h)
    exact ⟨_, bind_eq_ok_iff.mpr ⟨codes, hcodes, rfl⟩⟩
  | case4 dep deps name kind reason rest hne ih =>
    obtain ⟨codes, hcodes⟩ := ih (by
      cases h with
      | cons _ h => exact h
      | cons_cons => exact absurd rfl hne)
    exact ⟨_, bind_eq_ok_iff.mpr ⟨codes, hcodes, rfl⟩⟩
  | case5 dep deps ih =>
    obtain ⟨codes, hcodes⟩ := ih (List.nil_sublist deps)
    exact ⟨_, bind_eq_ok_iff.mpr ⟨codes, hcodes, rfl⟩⟩

/-! ### The edges of a planned node -/

namespace Planner

variable {p : Planner} {node : Node}

/-- What a record keeps of a node's dependencies, with `target` for the target of an edge. -/
def nodeEdges (target : ResolvedDependencyEdge → τ) (symbolic : List SymbolicDependency)
    (resolved : List ResolvedDependencyEdge) (external : List ExternalDependency) : NodeEdges τ where
  symbolic := symbolic.map fun fact ↦ (fact.name, fact.reason)
  resolved := resolved.map fun edge ↦ (target edge, edge.symbolicName, edge.reason)
  external := external.map fun dependency ↦ (dependency.name, dependency.kind, dependency.reason)

/-- The names a node depends on start with those the analyser extracted. -/
theorem exists_declared_of_symbolicFor {symbolic : List SymbolicDependency}
    (h : p.symbolicFor node = .ok symbolic) : ∃ declared : List NamedReason,
      (symbolic.map fun fact ↦ (fact.name, fact.reason)) =
        extractedSymbolic (p.depsOf node) ++ declared := by
  obtain ⟨facts, -, h⟩ := bind_eq_ok_iff.mp h
  obtain ⟨declared, -, h⟩ := bind_eq_ok_iff.mp h
  refine ⟨declared.map fun fact ↦ (fact.name, fact.reason), ?_⟩
  rw [← Except.ok.inj h, List.map_append, List.map_append, List.map_map, List.map_map]
  rfl

/-- The edges of each name have its label, so the edges of several have places among them. -/
theorem placed_resolveFact (symbolic : List SymbolicDependency) :
    Placed (symbolic.map fun fact ↦ (fact.name, fact.reason))
      ((symbolic.flatMap (p.resolveFact node)).map fun edge ↦ (edge.symbolicName, edge.reason)) := by
  induction symbolic with
  | nil => exact .nil _
  | cons fact rest ih =>
    have hlabels : ((p.resolveFact node fact).map fun edge ↦ (edge.symbolicName, edge.reason)) =
        List.replicate (p.candidates node fact.reason fact.name).length (fact.name, fact.reason) := by
      rw [resolveFact, List.map_map, List.eq_replicate_iff, List.length_map]
      refine ⟨rfl, fun label hlabel ↦ ?_⟩
      obtain ⟨_, -, rfl⟩ := List.mem_map.mp hlabel
      rfl
    rw [List.map_cons, List.flatMap_cons, List.map_append, hlabels]
    exact ih.replicate_append _

/-- A name has at most one external dependency. -/
theorem eq_nil_or_singleton_of_externalFact {fact : SymbolicDependency}
    {external : List ExternalDependency} (h : p.externalFact node fact = .ok external) :
    external = [] ∨ ∃ kind, external = [⟨fact.fromNode, fact.name, kind, fact.reason⟩] := by
  have hchoice : ∀ {c : Prop} [Decidable c] {kind : ExternalDependencyKind},
      (.ok (if c then [⟨fact.fromNode, fact.name, kind, fact.reason⟩] else []) :
        Except PlanError (List ExternalDependency)) = .ok external →
      external = [] ∨ ∃ kind, external = [⟨fact.fromNode, fact.name, kind, fact.reason⟩] := by
    intro c _ kind hok
    rw [← Except.ok.inj hok]
    by_cases hc : c
    · rw [if_pos hc]
      exact .inr ⟨kind, rfl⟩
    · rw [if_neg hc]
      exact .inl rfl
  unfold externalFact at h
  split at h
  · exact hchoice h
  · exact .inr ⟨.externalInput, (Except.ok.inj h).symm⟩
  · split at h
    · exact .inl (Except.ok.inj h).symm
    · split at h
      · exact .inr ⟨.externalTheory, (Except.ok.inj h).symm⟩
      · obtain ⟨available, -, h⟩ := bind_eq_ok_iff.mp h
        exact hchoice h
  · split at h
    · exact .inl (Except.ok.inj h).symm
    · obtain ⟨available, -, h⟩ := bind_eq_ok_iff.mp h
      exact hchoice h
  · exact .inl (Except.ok.inj h).symm
  · exact .inl (Except.ok.inj h).symm

/-- An external dependency has the label of its name. -/
theorem sublist_of_externalFact {fact : SymbolicDependency} {external : List ExternalDependency}
    (h : p.externalFact node fact = .ok external) :
    (external.map fun dependency ↦ (dependency.name, dependency.reason)).Sublist
      [(fact.name, fact.reason)] := by
  rcases eq_nil_or_singleton_of_externalFact h with rfl | ⟨kind, rfl⟩
  · exact List.nil_sublist _
  · exact List.Sublist.refl _

/-- The external dependencies of several names are, in order, some of these names. -/
theorem sublist_of_externalFacts {symbolic : List SymbolicDependency}
    {external : List (List ExternalDependency)}
    (h : symbolic.mapM (p.externalFact node) = .ok external) :
    (external.flatten.map fun dependency ↦ (dependency.name, dependency.reason)).Sublist
      (symbolic.map fun fact ↦ (fact.name, fact.reason)) := by
  have hforall := mapM_eq_ok_iff.mp h
  clear h
  induction hforall with
  | nil => exact List.Sublist.slnil
  | cons hhead _ ih =>
    rw [List.flatten_cons, List.map_append, List.map_cons, ← List.singleton_append]
    exact (sublist_of_externalFact hhead).append ih

/-- The dependencies planning makes for a node can be written. -/
theorem compactEdges_eq_ok {symbolic : List SymbolicDependency}
    {resolved : List ResolvedDependencyEdge} {external : List ExternalDependency}
    (hsymbolic : p.symbolicFor node = .ok symbolic) (hresolved : p.resolvedFor node = .ok resolved)
    (hexternal : p.externalFor node = .ok external) (target : ResolvedDependencyEdge → τ) :
    ∃ compact, compactEdges (p.depsOf node) (nodeEdges target symbolic resolved external) =
      .ok compact := by
  obtain ⟨declared, hdeclared⟩ := exists_declared_of_symbolicFor hsymbolic
  have hdeclaredSymbolic : declaredSymbolic (extractedSymbolic (p.depsOf node))
      (symbolic.map fun fact ↦ (fact.name, fact.reason)) = .ok declared := by
    have hlength : ¬ (extractedSymbolic (p.depsOf node) ++ declared).length <
        (extractedSymbolic (p.depsOf node)).length := by
      rw [List.length_append]
      omega
    rw [declaredSymbolic, hdeclared, if_neg hlength, if_pos List.take_left, List.drop_left]
  rw [resolvedFor, hsymbolic] at hresolved
  obtain rfl := Except.ok.inj hresolved
  obtain ⟨symbolic', hsymbolic', hexternal⟩ := bind_eq_ok_iff.mp hexternal
  obtain rfl := Except.ok.inj (hsymbolic.symm.trans hsymbolic')
  obtain ⟨found, hfound, hexternal⟩ := bind_eq_ok_iff.mp hexternal
  obtain rfl := Except.ok.inj hexternal
  have hcodes : ∃ codes, externalCodes (symbolic.map fun fact ↦ (fact.name, fact.reason))
      (found.flatten.map fun dependency ↦ (dependency.name, dependency.kind, dependency.reason)) =
        .ok codes := by
    refine externalCodes_eq_ok ?_
    rw [List.map_map]
    exact sublist_of_externalFacts hfound
  have hpositions : ∃ positions, edgePositions 0 (symbolic.map fun fact ↦ (fact.name, fact.reason))
      ((symbolic.flatMap (p.resolveFact node)).map fun edge ↦
        (target edge, edge.symbolicName, edge.reason)) = .ok positions := by
    refine edgePositions_eq_ok ?_
    rw [List.map_map]
    exact placed_resolveFact symbolic
  obtain ⟨codes, hcodes⟩ := hcodes
  obtain ⟨positions, hpositions⟩ := hpositions
  exact ⟨_, bind_eq_ok_iff.mpr ⟨declared, hdeclaredSymbolic,
    bind_eq_ok_iff.mpr ⟨codes, hcodes, bind_eq_ok_iff.mpr ⟨positions, hpositions, rfl⟩⟩⟩⟩

/-- What is written of dependencies reads as these dependencies. Planning makes dependencies that can
be written, of each node and in the graph of nodes with distinct keys. -/
theorem recorded_edges_lossless :
    (∀ (τ : Type) (deps : Dependencies) (edges : NodeEdges τ) (compact : CompactEdges τ),
      compactEdges deps edges = .ok compact →
        expandEdges deps compact.declared compact.external compact.resolved = .ok edges) ∧
    (∀ (p : Planner) (node : Node) (symbolic : List SymbolicDependency)
      (resolved : List ResolvedDependencyEdge) (external : List ExternalDependency),
      p.symbolicFor node = .ok symbolic → p.resolvedFor node = .ok resolved →
        p.externalFor node = .ok external → ∀ (τ : Type) (target : ResolvedDependencyEdge → τ),
          ∃ compact, compactEdges (p.depsOf node) (nodeEdges target symbolic resolved external) =
            .ok compact) ∧
    ∀ (p : Planner) (selected : List Node) (graph : ResolvedDependencyGraph),
      (selected.map Node.key).Nodup → p.buildResolvedDependencyGraph selected = .ok graph →
        ∀ node ∈ selected, ∀ (τ : Type) (target : ResolvedDependencyEdge → τ),
          ∃ compact, compactEdges (p.depsOf node) (nodeEdges target
            (graphValues graph.symbolic node) (graphValues graph.resolved node)
            (graphValues graph.external node)) = .ok compact := by
  refine ⟨fun τ deps edges compact h ↦ expandEdges_eq_ok h, ?_, ?_⟩
  · intro p node symbolic resolved external hsymbolic hresolved hexternal τ target
    exact compactEdges_eq_ok hsymbolic hresolved hexternal target
  · intro p selected graph hkeys h node hnode τ target
    obtain ⟨hresolved, hexternal, -⟩ := graphValues_of_buildResolvedDependencyGraph hkeys h hnode
    obtain ⟨symbolic, hsymbolic, h⟩ := bind_eq_ok_iff.mp h
    have hvalues : p.symbolicFor node = .ok (graphValues graph.symbolic node) := by
      obtain ⟨_, -, h⟩ := bind_eq_ok_iff.mp h
      obtain ⟨_, -, h⟩ := bind_eq_ok_iff.mp h
      obtain ⟨_, -, h⟩ := bind_eq_ok_iff.mp h
      obtain ⟨_, -, h⟩ := bind_eq_ok_iff.mp h
      rw [← Except.ok.inj h]
      exact graphValues_of_dependencyPairs hkeys hsymbolic hnode
    exact compactEdges_eq_ok hvalues hresolved hexternal target

/-- Facts with a name twice among the loads. -/
def sampleFacts : Dependencies :=
  ⟨["b".toList, "b".toList], [], [], [], ["c".toList]⟩

/-- Dependencies where this name has two targets and is declared as well. -/
def sampleNodeEdges : NodeEdges ℕ where
  symbolic := [("b".toList, .extractedLoad), ("b".toList, .extractedLoad),
    ("c".toList, .extractedHoldepMention), ("b".toList, .declaredActionLoad)]
  resolved := [(1, "b".toList, .extractedLoad), (2, "b".toList, .extractedLoad),
    (1, "b".toList, .extractedLoad), (2, "b".toList, .extractedLoad),
    (1, "b".toList, .declaredActionLoad)]
  external := [("c".toList, .externalLibrary, .extractedHoldepMention)]

/-- What is written of them: all edges of the name stand at its first place. -/
def sampleCompactEdges : CompactEdges ℕ where
  declared := [("b".toList, .declaredActionLoad)]
  external := "--l-".toList
  resolved := [(0, 1), (0, 2), (0, 1), (0, 2), (3, 1)]

theorem recorded_edges_lossless_sample :
    expandEdges sampleFacts sampleCompactEdges.declared sampleCompactEdges.external
      sampleCompactEdges.resolved = .ok sampleNodeEdges ∧
    ∃ graph, (samplePlanner "b").buildResolvedDependencyGraph (samplePlanner "b").nodes = .ok graph ∧
      ∀ node ∈ (samplePlanner "b").nodes,
        (∃ compact, compactEdges ((samplePlanner "b").depsOf node) (nodeEdges
          ResolvedDependencyEdge.toNode (graphValues graph.symbolic node)
            (graphValues graph.resolved node) (graphValues graph.external node)) = .ok compact) := by
  have hcompact : compactEdges sampleFacts sampleNodeEdges = .ok sampleCompactEdges := by
    refine bind_eq_ok_iff.mpr ⟨sampleCompactEdges.declared, by decide +kernel, ?_⟩
    refine bind_eq_ok_iff.mpr ⟨sampleCompactEdges.external, by decide +kernel, ?_⟩
    refine bind_eq_ok_iff.mpr ⟨sampleCompactEdges.resolved, ?_, rfl⟩
    simp [sampleNodeEdges, sampleCompactEdges, edgePositions, bind, Except.bind]
  refine ⟨recorded_edges_lossless.1 ℕ sampleFacts sampleNodeEdges sampleCompactEdges hcompact, ?_⟩
  have hgraph : ∃ graph,
      (samplePlanner "b").buildResolvedDependencyGraph (samplePlanner "b").nodes = .ok graph := by
    refine ⟨((samplePlanner "b").buildResolvedDependencyGraph
      (samplePlanner "b").nodes).toOption.getD ⟨[], [], [], [], []⟩, by decide +kernel⟩
  obtain ⟨graph, hgraph⟩ := hgraph
  exact ⟨graph, hgraph, fun node hnode ↦ recorded_edges_lossless.2.2 (samplePlanner "b") _ graph
    (by decide +kernel) hgraph node hnode Text ResolvedDependencyEdge.toNode⟩

end Planner

end Targets

end Holbuild.BuildPlan
