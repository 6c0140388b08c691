import Holbuild.SourceIndex.Artifacts

/-!
# Artifacts of different sources

Logical names are checked, not paths. Two sources that `byLogical` accepts share an artifact only when they are a
structure and its signature, which share the `.ui` file, unless one is a file whose whole name is `.sml` or `.sig`:
its artifacts keep that extension in their names, and so are those of a file named by one extension more
(`artifacts_separate_iff`, `hidden_source_collides`). A directory scan passes such files over; a member that names
the file, or an output that a generator declares, does not.
-/

set_option autoImplicit false
set_option relaxedAutoImplicit false

namespace Holbuild.SourceIndex

open Library BuildPlan

/-! ### Names taken apart -/

section Names

variable {package : Package} {a b : Source} {stem stem' ext ext' path : Text} {kind kind' : Kind}
  {mark mark' : Stem × Text}

def extensions : List Text := [".sig".toList, ".sml".toList, ".uo".toList, ".ui".toList, ".dat".toList]

theorem mem_extensions (h : mark ∈ marks kind) : mark.2 ∈ extensions := by
  cases kind
  · exact (by decide : ∀ mark ∈ marks .theoryScript, mark.2 ∈ extensions) mark h
  · exact (by decide : ∀ mark ∈ marks .sml, mark.2 ∈ extensions) mark h
  · exact (by decide : ∀ mark ∈ marks .sig, mark.2 ∈ extensions) mark h

/-- The last letter of an artifact's name tells its extension. -/
theorem extension_inj (hext : ext ∈ extensions) (hext' : ext' ∈ extensions) (h : stem ++ ext = stem' ++ ext') :
    stem = stem' ∧ ext = ext' := by
  have hne : ∀ e ∈ extensions, e ≠ [] := by decide
  have hlast : ∀ e ∈ extensions, ∀ e' ∈ extensions, e.getLast? = e'.getLast? → e = e' := by decide
  have hend := congrArg List.getLast? h
  rw [List.getLast?_append_of_ne_nil _ (hne _ hext), List.getLast?_append_of_ne_nil _ (hne _ hext')] at hend
  obtain rfl := hlast _ hext _ hext' hend
  exact ⟨List.append_cancel_right h, rfl⟩

/-- Artifacts in one place have one extension, and one arc of one directory. -/
theorem place_inj (A : Layout package a) (B : Layout package b) (hmark : mark ∈ marks kind)
    (hmark' : mark' ∈ marks kind') (h : A.place mark = B.place mark') :
    mark.2 = mark'.2 ∧ A.lead mark.1 = B.lead mark'.1 ∧ A.arc mark.1 = B.arc mark'.1 := by
  have hbelow := List.append_cancel_left (List.append_cancel_left h)
  rw [← List.append_assoc, ← List.append_assoc] at hbelow
  obtain ⟨hstem, hext⟩ := extension_inj (mem_extensions hmark) (mem_extensions hmark') hbelow
  have hlead : ∀ {s : Source} (layout : Layout package s) (stem : Stem), Path.Front (layout.lead stem) := by
    intro s layout stem
    cases stem
    · exact layout.outputs_front
    · exact layout.front_front
  exact ⟨hext, Path.front_inj (hlead A _) (hlead B _) (A.slash_notMem_arc _) (B.slash_notMem_arc _) hstem⟩

/-- No output of a theory is named as the object of a file. -/
theorem arc_apart (A : Layout package a) (B : Layout package b) (ha : a.kind = .theoryScript) :
    A.arc .logical ≠ B.arc .base := by
  have hnamed := A.named
  rw [ha] at hnamed
  obtain ⟨x, -, hlogical⟩ := hnamed
  have hlast : (A.arc .logical).getLast? = some 'y' := by
    show a.logicalName.getLast? = _
    simp [hlogical]
  intro heq
  rw [heq, Layout.arc] at hlast
  split_ifs at hlast with hstem
  · revert hlast
    cases b.kind <;> decide
  · have hB := B.named
    have hsuffix : "Theory".toList <:+ B.stem := ⟨x, by
      rw [← hlogical]
      exact heq.trans (if_neg hstem)⟩
    cases hkind : b.kind with
    | theoryScript =>
      rw [hkind] at hB
      obtain ⟨y, hy, -⟩ := hB
      simp [hy] at hlast
    | sml =>
      rw [hkind] at hB
      exact hB.2.1 (hB.1 ▸ hsuffix)
    | sig =>
      rw [hkind] at hB
      exact hB.2 (hB.1 ▸ hsuffix)

/-- Objects of one stem and one extension are of sources of one name. -/
theorem Named.logical_eq {logical logical' : Text} (h : Named logical stem kind) (h' : Named logical' stem kind')
    (hmark : (.base, ext) ∈ marks kind) (hmark' : (.base, ext) ∈ marks kind') : logical = logical' := by
  cases kind with
  | theoryScript =>
    obtain ⟨x, rfl, rfl⟩ := h
    cases kind' with
    | theoryScript =>
      obtain ⟨y, hy, rfl⟩ := h'
      rw [List.append_cancel_right hy]
    | sml => exact absurd ⟨x, h'.1⟩ h'.2.2
    | sig => simp_all [marks]
  | sml =>
    cases kind' with
    | theoryScript =>
      obtain ⟨y, rfl, rfl⟩ := h'
      exact absurd ⟨y, h.1⟩ h.2.2
    | sml => exact h.1.symm.trans h'.1
    | sig => exact h.1.symm.trans h'.1
  | sig =>
    cases kind' with
    | theoryScript => simp_all [marks]
    | sml => exact h.1.symm.trans h'.1
    | sig => exact h.1.symm.trans h'.1

end Names

/-! ### Sources of one logical name -/

section Names

variable {a b : Source} {sources accepted : List Source} {seen seen' : Text → List Source}

theorem compatibleSameName_comm (a b : Source) : compatibleSameName a b = compatibleSameName b a := by
  have hpackage : decide (a.package = b.package) = decide (b.package = a.package) := decide_eq_decide.mpr eq_comm
  rw [compatibleSameName, compatibleSameName, hpackage]
  cases a.kind <;> cases b.kind <;> rfl

theorem compatibleSameName_spec (h : compatibleSameName a b) :
    a.package = b.package ∧ (a.kind = .sml ∧ b.kind = .sig ∨ a.kind = .sig ∧ b.kind = .sml) := by
  rw [compatibleSameName, Bool.and_eq_true, decide_eq_true_eq] at h
  refine ⟨h.1, ?_⟩
  have hkinds := h.2
  split at hkinds
  · exact .inl ⟨‹_›, ‹_›⟩
  · exact .inr ⟨‹_›, ‹_›⟩
  · cases hkinds

/-- Each source that is noted is compatible with those noted under its name before. -/
theorem foldlM_insertSource (h : sources.foldlM insertSource seen = .ok seen') :
    sources.Pairwise (fun a b ↦ a.logicalName = b.logicalName → compatibleSameName a b) ∧
      ∀ source ∈ sources, ∀ other ∈ seen source.logicalName, compatibleSameName source other := by
  induction sources generalizing seen with
  | nil => exact ⟨.nil, fun source hsource ↦ absurd hsource List.not_mem_nil⟩
  | cons first rest ih =>
    rw [List.foldlM_cons] at h
    cases hinsert : insertSource seen first with
    | error message =>
      rw [hinsert] at h
      cases h
    | ok next =>
      rw [hinsert] at h
      obtain ⟨hpairs, hrest⟩ := ih h
      rw [insertSource] at hinsert
      split at hinsert
      · next hfind =>
        cases hinsert
        have hfirst : ∀ other ∈ seen first.logicalName, compatibleSameName first other := by
          simpa using hfind
        refine ⟨List.pairwise_cons.mpr ⟨fun b hb hname ↦ ?_, hpairs⟩, ?_⟩
        · rw [compatibleSameName_comm]
          refine hrest b hb first ?_
          rw [← hname, Function.update_self]
          exact List.mem_cons_self
        · intro source hsource other hother
          rcases List.mem_cons.mp hsource with rfl | hsource
          · exact hfirst other hother
          · refine hrest source hsource other ?_
            by_cases hname : source.logicalName = first.logicalName
            · rw [hname, Function.update_self]
              exact List.mem_cons_of_mem _ (hname ▸ hother)
            · rwa [Function.update_of_ne hname]
      · cases hinsert

/-- Different sources of one logical name are a structure and a signature of one package. -/
theorem byLogical_spec (h : byLogical sources = .ok accepted) : accepted = sources ∧ ∀ a ∈ sources,
    ∀ b ∈ sources, a ≠ b → a.logicalName = b.logicalName → compatibleSameName a b := by
  rw [byLogical] at h
  cases hfold : sources.foldlM insertSource fun _ ↦ [] with
  | error message =>
    rw [hfold] at h
    cases h
  | ok seen =>
    rw [hfold] at h
    cases h
    have : Std.Symm fun a b : Source ↦ a.logicalName = b.logicalName → compatibleSameName a b := by
      refine ⟨fun a b hab hname ↦ ?_⟩
      rw [compatibleSameName_comm]
      exact hab hname.symm
    exact ⟨rfl, fun a ha b hb hne ↦ (foldlM_insertSource hfold).1.forall ha hb hne⟩

/-- Deduplication keeps some of the sources. -/
theorem mem_of_mem_deduplicateSources (h : a ∈ deduplicateSources sources) : a ∈ sources := by
  rw [deduplicateSources] at h
  induction sources with
  | nil => exact h
  | cons first rest ih =>
    rw [List.foldr_cons, addSource] at h
    split_ifs at h
    · exact List.mem_cons_of_mem _ (ih h)
    · rcases List.mem_cons.mp h with rfl | h
      · exact List.mem_cons_self
      · exact List.mem_cons_of_mem _ (ih h)

end Names

/-! ### What sources share -/

/-- A structure and its signature in one directory, which have one `.ui` file in common. -/
def Paired (a b : Source) : Prop :=
  a.package = b.package ∧ a.logicalName = b.logicalName ∧ dirname a.relativePath = dirname b.relativePath ∧
    (a.kind = .sml ∧ b.kind = .sig ∨ a.kind = .sig ∧ b.kind = .sml) ∧
    ∃ ui, ".ui".toList <:+ ui ∧ ∀ path, path ∈ a.artifacts.paths ∧ path ∈ b.artifacts.paths ↔ path = ui

/-- Different sources share artifacts only as a structure and its signature do. -/
def Separate (sources : List Source) : Prop :=
  ∀ a ∈ sources, ∀ b ∈ sources, a ≠ b → ∀ path ∈ a.artifacts.paths, path ∈ b.artifacts.paths → Paired a b

/-- The first file's name is an extension, and the second's is that name with one more. -/
def Shadows (a b : Source) : Prop :=
  (filename a.relativePath = ".sml".toList ∨ filename a.relativePath = ".sig".toList) ∧
    (b.relativePath = a.relativePath ++ ".sml".toList ∨ b.relativePath = a.relativePath ++ ".sig".toList)

/-- No package has a file and one that it shadows. -/
def Clear (sources : List Source) : Prop :=
  ∀ a ∈ sources, ∀ b ∈ sources, a.package = b.package → ¬ Shadows a b

section Shared

variable {package : Package} {a b : Source} {path : Text}

theorem fileExt_cases (kind : Kind) : fileExt kind = ".sml".toList ∨ fileExt kind = ".sig".toList := by
  cases kind
  · exact .inl rfl
  · exact .inl rfl
  · exact .inr rfl

theorem shadows_of_stem_nil (A : Layout package a) (B : Layout package b) (hfront : A.front = B.front)
    (hnil : A.stem = []) (hstem : fileExt a.kind = B.stem) : Shadows a b := by
  have ha : a.relativePath = A.front ++ fileExt a.kind := by rw [A.rel_eq, hnil, List.nil_append]
  have hb : b.relativePath = a.relativePath ++ fileExt b.kind := by
    rw [B.rel_eq, ha, ← hfront, ← hstem, List.append_assoc]
  refine ⟨?_, ?_⟩
  · rw [A.filename_eq, hnil, List.nil_append]
    exact fileExt_cases _
  · rcases fileExt_cases b.kind with h | h
    · exact .inl (h ▸ hb)
    · exact .inr (h ▸ hb)

/-- Objects of one directory have one name before the extension when their files have, or when one file shadows
the other. -/
theorem stem_eq_or_shadows (A : Layout package a) (B : Layout package b) (hfront : A.front = B.front)
    (harc : A.arc .base = B.arc .base) : A.stem = B.stem ∨ Shadows a b ∨ Shadows b a := by
  rw [Layout.arc, Layout.arc] at harc
  split_ifs at harc with ha hb hb
  · exact .inl (ha.trans hb.symm)
  · exact .inr (.inl (shadows_of_stem_nil A B hfront ha harc))
  · exact .inr (.inr (shadows_of_stem_nil B A hfront.symm hb harc.symm))
  · exact .inl harc

/-- The marks by the logical name are those of a theory. -/
theorem kind_of_logical {kind : Kind} {ext : Text} (h : (.logical, ext) ∈ marks kind) : kind = .theoryScript := by
  cases kind
  · rfl
  · simp [marks] at h
  · simp [marks] at h

/-- Sources of one package that share an artifact have one logical name, unless one shadows the other. -/
theorem shared_cases (A : Layout package a) (B : Layout package b)
    (hA : a.artifacts.paths = (marks a.kind).map A.place) (hB : b.artifacts.paths = (marks b.kind).map B.place)
    (ha : path ∈ a.artifacts.paths) (hb : path ∈ b.artifacts.paths) :
    a.logicalName = b.logicalName ∧ (a.kind = .theoryScript ∨ A.front = B.front ∧ A.arc .base = B.arc .base ∧
      A.stem = B.stem) ∨ Shadows a b ∨ Shadows b a := by
  rw [hA, List.mem_map] at ha
  rw [hB, List.mem_map] at hb
  obtain ⟨⟨stem, ext⟩, hmark, rfl⟩ := ha
  obtain ⟨⟨stem', ext'⟩, hmark', hplace⟩ := hb
  obtain ⟨hext, hlead, harc⟩ := place_inj A B hmark hmark' hplace.symm
  obtain rfl : ext = ext' := hext
  cases stem with
  | logical =>
    cases stem' with
    | logical => exact .inl ⟨harc, .inl (kind_of_logical hmark)⟩
    | base => exact absurd harc (arc_apart A B (kind_of_logical hmark))
  | base =>
    cases stem' with
    | logical => exact absurd harc.symm (arc_apart B A (kind_of_logical hmark'))
    | base =>
      rcases stem_eq_or_shadows A B hlead harc with hstem | hshadows
      · have hname := Named.logical_eq A.named (hstem ▸ B.named) hmark hmark'
        exact .inl ⟨hname, .inr ⟨hlead, harc, hstem⟩⟩
      · exact .inr hshadows

theorem Paired.symm (h : Paired a b) : Paired b a := by
  obtain ⟨hpackage, hname, hdir, hkinds, ui, hui, hpaths⟩ := h
  exact ⟨hpackage.symm, hname.symm, hdir.symm, hkinds.symm.imp And.symm And.symm, ui, hui,
    fun path ↦ and_comm.trans (hpaths path)⟩

/-- A structure and a signature of one base share the `.ui` file. -/
theorem paired_of_base (A : Layout package a) (B : Layout package b)
    (hA : a.artifacts.paths = (marks a.kind).map A.place) (hB : b.artifacts.paths = (marks b.kind).map B.place)
    (hpackage : a.package = b.package) (hname : a.logicalName = b.logicalName) (hsml : a.kind = .sml)
    (hsig : b.kind = .sig) (hfront : A.front = B.front) (harc : A.arc .base = B.arc .base) : Paired a b := by
  have hslash : ∀ {s : Source} (layout : Layout package s), '/' ∉ layout.stem ++ fileExt s.kind := fun layout ↦ by
    rw [← layout.filename_eq]
    exact slash_notMem_filename _
  have hdir : dirname a.relativePath = dirname b.relativePath := by
    rw [A.rel_eq, B.rel_eq, dirname_front A.front_front (hslash A), dirname_front B.front_front (hslash B), hfront]
  have hplace : ∀ ext, B.place (.base, ext) = A.place (.base, ext) := fun ext ↦ by
    show package.artifactRoot ++ ("/obj/".toList ++ (B.front ++ (B.arc .base ++ ext))) = _
    rw [← hfront, ← harc]
    rfl
  refine ⟨hpackage, hname, hdir, .inl ⟨hsml, hsig⟩, A.place (.base, ".ui".toList), ?_, fun path ↦ ?_⟩
  · rw [Layout.place, ← List.append_assoc, ← List.append_assoc, ← List.append_assoc]
    exact List.suffix_append _ _
  · rw [hA, hB, hsml, hsig]
    show path ∈ [A.place (.base, ".ui".toList), A.place (.base, ".uo".toList)] ∧
      path ∈ [B.place (.base, ".ui".toList)] ↔ _
    rw [hplace, List.mem_singleton]
    exact ⟨And.right, fun h ↦ ⟨h ▸ List.mem_cons_self, h⟩⟩

/-- The artifacts of one source are different. -/
theorem nodup_paths (A : Layout package a) (hA : a.artifacts.paths = (marks a.kind).map A.place) :
    a.artifacts.paths.Nodup := by
  have hnodup : (marks a.kind).Nodup := by cases a.kind <;> decide
  rw [hA]
  refine hnodup.map_on ?_
  rintro ⟨stem, ext⟩ hmark ⟨stem', ext'⟩ hmark' hplace
  obtain ⟨hext, -, harc⟩ := place_inj A A hmark hmark' hplace
  obtain rfl : ext = ext' := hext
  cases stem with
  | logical =>
    cases stem' with
    | logical => rfl
    | base => exact absurd harc (arc_apart A A (kind_of_logical hmark))
  | base =>
    cases stem' with
    | logical => exact absurd harc.symm (arc_apart A A (kind_of_logical hmark'))
    | base => rfl

end Shared

/-! ### A graph's sources -/

section Graphs

variable {graph : Graph} {sources accepted : List Source} {a b : Source}

/-- A source of a graph, with its package and its layout there. -/
structure Placed (graph : Graph) (source : Source) where
  package : Package
  mem : package ∈ graph.packages
  name : source.package = package.name
  layout : Layout package source
  paths : source.artifacts.paths = (marks source.kind).map layout.place

theorem exists_placed {package : Package} {path : Text} (hpackage : package ∈ graph.packages)
    (h : classify package path = some (some a)) : Nonempty (Placed graph a) := by
  have hsource := IsSource.of_classify h
  obtain ⟨layout, hpaths⟩ := exists_layout (graph.ended hpackage) hsource
  exact ⟨⟨package, hpackage, hsource.name, layout, hpaths⟩⟩

/-- Sources of one package are placed below one root. -/
theorem Placed.package_eq (A : Placed graph a) (B : Placed graph b) (h : a.package = b.package) :
    A.package = B.package :=
  List.inj_on_of_nodup_map graph.names A.mem B.mem (A.name.symm.trans (h.trans B.name))

/-- Sources that share an artifact are of one package. -/
theorem Placed.package_eq_of_shared (A : Placed graph a) (B : Placed graph b) {path : Text}
    (ha : path ∈ a.artifacts.paths) (hb : path ∈ b.artifacts.paths) : a.package = b.package := by
  rw [A.paths, List.mem_map] at ha
  rw [B.paths, List.mem_map] at hb
  obtain ⟨mark, -, rfl⟩ := ha
  obtain ⟨mark', -, hplace⟩ := hb
  rw [A.name, B.name]
  exact graph.apart A.mem B.mem hplace.symm

/-- When no file shadows another, the check of logical names keeps artifacts separate. -/
theorem separate_of_clear (hplaced : ∀ source ∈ sources, Nonempty (Placed graph source))
    (hnames : ∀ a ∈ sources, ∀ b ∈ sources, a ≠ b → a.logicalName = b.logicalName → compatibleSameName a b)
    (hclear : Clear sources) : Separate sources := by
  intro a ha b hb hne path hpatha hpathb
  obtain ⟨⟨p, hp, hpname, A, hA⟩⟩ := hplaced a ha
  obtain ⟨B'⟩ := hplaced b hb
  have hpackage := Placed.package_eq_of_shared ⟨p, hp, hpname, A, hA⟩ B' hpatha hpathb
  obtain rfl : p = B'.package := Placed.package_eq ⟨p, hp, hpname, A, hA⟩ B' hpackage
  rcases shared_cases A B'.layout hA B'.paths hpatha hpathb with ⟨hname, hbase⟩ | hshadows | hshadows
  · have hkinds := (compatibleSameName_spec (hnames a ha b hb hne hname)).2
    have htheory : a.kind ≠ .theoryScript := by
      rcases hkinds with ⟨h, -⟩ | ⟨h, -⟩ <;> simp [h]
    obtain ⟨hfront, harc, -⟩ := hbase.resolve_left htheory
    rcases hkinds with ⟨hsml, hsig⟩ | ⟨hsig, hsml⟩
    · exact paired_of_base A B'.layout hA B'.paths hpackage hname hsml hsig hfront harc
    · exact (paired_of_base B'.layout A B'.paths hA hpackage.symm hname.symm hsml hsig hfront.symm harc.symm).symm
  · exact absurd hshadows (hclear a ha b hb hpackage)
  · exact absurd hshadows (hclear b hb a ha hpackage.symm)

/-- A file whose name is an extension has no stem, and what it shadows has the extension for its stem. -/
theorem stems_of_shadows {package : Package} (A : Layout package a) (B : Layout package b) (h : Shadows a b) :
    A.stem = [] ∧ B.front = A.front ∧ B.stem = fileExt a.kind := by
  obtain ⟨hfile, hrel⟩ := h
  have hlength : ∀ kind, (fileExt kind).length = 4 := by
    intro kind
    cases kind <;> rfl
  have hnil : A.stem = [] := by
    rw [A.filename_eq] at hfile
    have hfour : (A.stem ++ fileExt a.kind).length = 4 := by
      rcases hfile with hfile | hfile <;> rw [hfile] <;> rfl
    rw [List.length_append, hlength] at hfour
    exact List.length_eq_zero_iff.mp (by omega)
  have hext : ∃ ext : Text, '/' ∉ ext ∧ ext.length = 4 ∧ b.relativePath = A.front ++ (fileExt a.kind ++ ext) := by
    rw [A.rel_eq, hnil, List.nil_append, List.append_assoc, List.append_assoc] at hrel
    rcases hrel with hrel | hrel
    · exact ⟨_, by decide, rfl, hrel⟩
    · exact ⟨_, by decide, rfl, hrel⟩
  obtain ⟨ext, hslash, hfour, hb⟩ := hext
  have hsplit := Path.front_inj B.front_front A.front_front ?_ ?_ (B.rel_eq.symm.trans hb)
  · exact ⟨hnil, hsplit.1, (List.append_inj' hsplit.2 ((hlength _).trans hfour.symm)).1⟩
  · rw [← B.filename_eq]
    exact slash_notMem_filename _
  · rw [List.mem_append, not_or]
    exact ⟨slash_notMem_fileExt _, hslash⟩

/-- The logical name of a structure or a signature is the stem of its file; a theory's stem ends with `Script`. -/
theorem Named.of_stem {logical stem : Text} {kind : Kind} (h : Named logical stem kind)
    (hstem : stem.length ≤ 4) : logical = stem ∧ (.base, ".ui".toList) ∈ marks kind := by
  cases kind with
  | theoryScript =>
    obtain ⟨x, rfl, -⟩ := h
    rw [List.length_append] at hstem
    exact absurd hstem (by simp)
  | sml => exact ⟨h.1.symm, by decide⟩
  | sig => exact ⟨h.1.symm, by decide⟩

/-- A file and one that it shadows share the `.ui` file, under different logical names. -/
theorem clear_of_separate (hplaced : ∀ source ∈ sources, Nonempty (Placed graph source))
    (hseparate : Separate sources) : Clear sources := by
  intro a ha b hb hpackage hshadows
  obtain ⟨⟨p, hp, hpname, A, hA⟩⟩ := hplaced a ha
  obtain ⟨B'⟩ := hplaced b hb
  obtain rfl : p = B'.package := Placed.package_eq ⟨p, hp, hpname, A, hA⟩ B' hpackage
  obtain ⟨hnil, hfront, hstem⟩ := stems_of_shadows A B'.layout hshadows
  obtain ⟨haname, hamark⟩ := A.named.of_stem (by rw [hnil]; exact Nat.zero_le _)
  obtain ⟨hbname, hbmark⟩ := B'.layout.named.of_stem (by rw [hstem]; cases a.kind <;> decide)
  have hext : fileExt a.kind ≠ [] := by cases a.kind <;> decide
  have hplace : B'.layout.place (.base, ".ui".toList) = A.place (.base, ".ui".toList) := by
    rw [Layout.place, Layout.place, Layout.lead, Layout.lead, hfront, Layout.arc, Layout.arc, hnil, if_pos rfl,
      hstem, if_neg hext]
  have hne : a ≠ b := by
    rintro rfl
    have hlength := congrArg List.length (hbname.symm.trans (haname.trans hnil))
    rw [hstem] at hlength
    exact hext (List.length_eq_zero_iff.mp hlength)
  have hshared := hseparate a ha b hb hne (A.place (.base, ".ui".toList))
    (by rw [hA]; exact List.mem_map_of_mem hamark)
    (by rw [B'.paths, ← hplace]; exact List.mem_map_of_mem hbmark)
  have hname := hshared.2.1
  rw [haname, hbname, hnil, hstem] at hname
  exact hext hname.symm

/-- A restored source has the artifacts that its file was classified with. -/
theorem restoreSource_artifacts {package : Package} {path : Text} (h : classify package path = some (some a)) :
    ∃ restored, restoreSource package a.kind a.logicalName a.sourcePath a.relativePath = some restored ∧
      restored.artifacts = a.artifacts := by
  refine ⟨_, Option.bind_eq_some_iff.mpr ⟨_, (IsSource.of_classify h).artifacts, rfl⟩, rfl⟩

end Graphs

/-- The artifacts of the sources that `byLogical` accepts are as they should be exactly when no file shadows
another of its package. -/
theorem artifacts_separate_iff (graph : Graph) (sources accepted : List Source)
    (hsources : ∀ source ∈ sources, ∃ package ∈ graph.packages, ∃ path,
      classify package path = some (some source))
    (haccepted : byLogical (deduplicateSources sources) = .ok accepted) :
    (Separate accepted ∧ (∀ source ∈ accepted, source.artifacts.paths.Nodup) ∧
      (∀ package path source, classify package path = some (some source) → ∃ restored,
        restoreSource package source.kind source.logicalName source.sourcePath source.relativePath = some restored ∧
          restored.artifacts = source.artifacts) ∧
      ∀ rel : Text, rel.head? ≠ some '/' → Path.splitDirFile rel = (dirname rel, filename rel) ∧
        (Path.splitBaseExt rel).1 = baseOf rel) ↔ Clear accepted := by
  obtain ⟨rfl, hnames⟩ := byLogical_spec haccepted
  have hplaced : ∀ source ∈ deduplicateSources sources, Nonempty (Placed graph source) := by
    intro source hsource
    obtain ⟨package, hpackage, path, hclassify⟩ := hsources source (mem_of_mem_deduplicateSources hsource)
    exact exists_placed hpackage hclassify
  constructor
  · exact fun h ↦ clear_of_separate hplaced h.1
  · intro hclear
    refine ⟨separate_of_clear hplaced hnames hclear, fun source hsource ↦ ?_,
      fun package path source h ↦ restoreSource_artifacts h, fun rel hrel ↦ scans_agree hrel⟩
    obtain ⟨placed⟩ := hplaced source hsource
    exact nodup_paths placed.layout placed.paths

/-- A package by itself, below `/`. -/
def soleRoot : Package := ⟨"r".toList, "/r".toList, "/.holbuild".toList, []⟩

def soleGraph : Graph where
  parent := "/".toList
  root := soleRoot
  dependencies := []
  names := by decide
  safe := by decide
  root_artifacts := by decide
  dependency_artifacts := by simp

/-- A source file of the package as its name and its artifacts say. -/
def soleSource (kind : Kind) (logicalName : String) (file : String) (objects canonical : List String) : Source :=
  ⟨"r".toList, "/r".toList, kind, logicalName.toList, "/r/".toList ++ file.toList, file.toList, .declared,
    ⟨[], objects.map String.toList, []⟩, ⟨[], canonical.map String.toList, []⟩⟩

def soleSml : Source :=
  soleSource .sml "a" "a.sml" ["/.holbuild/obj/a.ui", "/.holbuild/obj/a.uo"] ["obj/a.ui", "obj/a.uo"]

def soleSig : Source := soleSource .sig "a" "a.sig" ["/.holbuild/obj/a.ui"] ["obj/a.ui"]

/-- A structure and its signature have their artifacts as they should be. -/
theorem artifacts_separate_iff_pair : Separate [soleSml, soleSig] :=
  ((artifacts_separate_iff soleGraph [soleSml, soleSig] [soleSml, soleSig]
    (by
      intro source hsource
      rcases List.mem_cons.mp hsource with rfl | hsource
      · exact ⟨soleRoot, List.mem_cons_self, "/r/a.sml".toList, by decide⟩
      · obtain rfl := List.mem_singleton.mp hsource
        exact ⟨soleRoot, List.mem_cons_self, "/r/a.sig".toList, by decide⟩)
    (by rfl)).mpr (by
      intro a ha b hb _ hshadows
      have hfile : ∀ a ∈ [soleSml, soleSig], filename a.relativePath ≠ ".sml".toList ∧
          filename a.relativePath ≠ ".sig".toList := by decide
      exact not_or.mpr (hfile a ha) hshadows.1)).1

/-- A member named `.sml`. -/
def hiddenSource : Source :=
  soleSource .sml "" ".sml" ["/.holbuild/obj/.sml.ui", "/.holbuild/obj/.sml.uo"] ["obj/.sml.ui", "obj/.sml.uo"]

/-- A member named `.sml.sml`. -/
def shadowedSource : Source :=
  soleSource .sml ".sml" ".sml.sml" ["/.holbuild/obj/.sml.ui", "/.holbuild/obj/.sml.uo"]
    ["obj/.sml.ui", "obj/.sml.uo"]

/-- Two structures of different logical names, which are accepted, have both artifacts in common. -/
theorem hidden_source_collides :
    classify soleRoot "/r/.sml".toList = some (some hiddenSource) ∧
    classify soleRoot "/r/.sml.sml".toList = some (some shadowedSource) ∧
    byLogical (deduplicateSources [hiddenSource, shadowedSource]) = .ok [hiddenSource, shadowedSource] ∧
    hiddenSource ≠ shadowedSource ∧ hiddenSource.artifacts = shadowedSource.artifacts ∧
    ¬ Separate [hiddenSource, shadowedSource] := by
  have hne : hiddenSource ≠ shadowedSource := by decide
  refine ⟨by decide, by decide, by rfl, hne, rfl, fun h ↦ ?_⟩
  obtain ⟨-, hname, -⟩ := h hiddenSource List.mem_cons_self shadowedSource
    (List.mem_cons_of_mem _ List.mem_cons_self) hne "/.holbuild/obj/.sml.ui".toList (by decide) (by decide)
  exact absurd hname (by decide)

end Holbuild.SourceIndex
