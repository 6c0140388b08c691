import Holbuild.SourceIndex.Sources
import Mathlib.Data.List.Pairwise

/-!
# Where artifacts are

The root package's artifacts are below `.holbuild`, a dependency's below `.holbuild/packages` and its name, so
that no artifact is of two packages (`Graph.apart`). Below its package's root an artifact is at the directory of
its source, and its name starts with the base of the file's name or the theory's name; `exists_layout`
says where for each kind of source.
-/

set_option autoImplicit false
set_option relaxedAutoImplicit false

namespace Holbuild.SourceIndex

open Library BuildPlan

/-! ### Packages -/

/-- Where the artifacts of the root package are. -/
def rootArtifacts (parent : Text) : Option Text := Library.Path.concat parent ".holbuild".toList

/-- Where the artifacts of a dependency are. -/
def dependencyArtifacts (parent name : Text) : Option Text := do
  let holbuild ← Library.Path.concat parent ".holbuild".toList
  let packages ← Library.Path.concat holbuild "packages".toList
  Library.Path.concat packages name

def safeName (name : Text) : Bool :=
  name ≠ [] ∧ name ≠ ".".toList ∧ name ≠ "..".toList ∧
    name.all fun c ↦ c.isAlphanum || c = '_' || c = '.' || c = '-'

/-- The root package and its dependencies, by different safe names. -/
structure Graph where
  parent : Text
  root : Package
  dependencies : List Package
  names : ((root :: dependencies).map Package.name).Nodup
  safe : ∀ package ∈ root :: dependencies, safeName package.name
  root_artifacts : rootArtifacts parent = some root.artifactRoot
  dependency_artifacts : ∀ package ∈ dependencies,
    dependencyArtifacts parent package.name = some package.artifactRoot

def Graph.packages (graph : Graph) : List Package := graph.root :: graph.dependencies

/-- A path that ends with an arc, not with a slash. -/
def Ended (path : Text) : Prop := ∃ before arc, path = before ++ arc ∧ arc ≠ [] ∧ '/' ∉ arc

theorem slash_notMem_of_safeName {name : Text} (h : safeName name) : name ≠ [] ∧ '/' ∉ name := by
  rw [safeName, decide_eq_true_eq] at h
  refine ⟨h.1, fun hmem ↦ ?_⟩
  exact absurd (List.all_eq_true.mp h.2.2.2 _ hmem) (by decide)

theorem holbuild_arc : '/' ∉ ".holbuild".toList ∧ ".holbuild".toList ≠ [] := by decide

theorem packages_arc : '/' ∉ "packages".toList ∧ "packages".toList ≠ [] := by decide

theorem rootArtifacts_eq (parent : Text) : rootArtifacts parent = some (Path.append parent ".holbuild".toList) :=
  Path.concat_arc holbuild_arc.1 holbuild_arc.2

theorem dependencyArtifacts_eq {parent name : Text} (hname : safeName name) : dependencyArtifacts parent name =
    some (Path.append parent ".holbuild".toList ++ '/' :: ("packages".toList ++ '/' :: name)) := by
  obtain ⟨hne, hslash⟩ := slash_notMem_of_safeName hname
  have hfile : Path.file (Path.append parent ".holbuild".toList) ≠ [] := by
    rw [Path.file_append_arc holbuild_arc.1 holbuild_arc.2]
    exact holbuild_arc.2
  have hpackages : Path.file (Path.append (Path.append parent ".holbuild".toList) "packages".toList) ≠ [] := by
    rw [Path.file_append_arc packages_arc.1 packages_arc.2]
    exact packages_arc.2
  rw [dependencyArtifacts, Path.concat_arc holbuild_arc.1 holbuild_arc.2]
  show (do
    let packages ← Library.Path.concat (Path.append parent ".holbuild".toList) "packages".toList
    Library.Path.concat packages name) = _
  rw [Path.concat_arc packages_arc.1 packages_arc.2]
  show Library.Path.concat _ name = _
  rw [Path.concat_arc hslash hne, Path.append_arc hpackages hslash hne,
    Path.append_arc hfile packages_arc.1 packages_arc.2]
  simp

theorem Graph.root_eq (graph : Graph) :
    graph.root.artifactRoot = Path.append graph.parent ".holbuild".toList :=
  (Option.some.inj ((rootArtifacts_eq _).symm.trans graph.root_artifacts)).symm

theorem Graph.dependency_eq (graph : Graph) {package : Package} (h : package ∈ graph.dependencies) :
    package.artifactRoot = graph.root.artifactRoot ++ '/' :: ("packages".toList ++ '/' :: package.name) := by
  have hname := graph.safe package (List.mem_cons_of_mem _ h)
  rw [graph.root_eq]
  exact (Option.some.inj ((dependencyArtifacts_eq hname).symm.trans (graph.dependency_artifacts package h))).symm

theorem Graph.ended (graph : Graph) {package : Package} (h : package ∈ graph.packages) :
    Ended package.artifactRoot := by
  rcases List.mem_cons.mp h with rfl | hdep
  · obtain ⟨before, hbefore⟩ :=
      (Path.suffix_append_arc holbuild_arc.1 holbuild_arc.2 : _ <:+ Path.append graph.parent _)
    exact ⟨before, _, by rw [graph.root_eq, hbefore], holbuild_arc.2, holbuild_arc.1⟩
  · have hname := graph.safe package h
    obtain ⟨hne, hslash⟩ := slash_notMem_of_safeName hname
    refine ⟨graph.root.artifactRoot ++ '/' :: ("packages".toList ++ ['/']), package.name, ?_, hne, hslash⟩
    rw [graph.dependency_eq hdep]
    simp

theorem Graph.root_apart (graph : Graph) {package : Package} (h : package ∈ graph.dependencies) {x y : Text} :
    graph.root.artifactRoot ++ ("/obj/".toList ++ x) ≠ package.artifactRoot ++ ("/obj/".toList ++ y) := by
  intro heq
  rw [graph.dependency_eq h, List.append_assoc] at heq
  have hrest := List.append_cancel_left heq
  exact absurd (congrArg (·[1]?) hrest) (by simp)

/-- The artifacts of different packages are in different places. -/
theorem Graph.apart (graph : Graph) {p q : Package} (hp : p ∈ graph.packages) (hq : q ∈ graph.packages)
    {x y : Text} (h : p.artifactRoot ++ ("/obj/".toList ++ x) = q.artifactRoot ++ ("/obj/".toList ++ y)) :
    p.name = q.name := by
  have hpname := (slash_notMem_of_safeName (graph.safe p hp)).2
  have hqname := (slash_notMem_of_safeName (graph.safe q hq)).2
  rcases List.mem_cons.mp hp with rfl | hp
  · rcases List.mem_cons.mp hq with rfl | hq
    · rfl
    · exact absurd h (graph.root_apart hq)
  · rcases List.mem_cons.mp hq with rfl | hq
    · exact absurd h.symm (graph.root_apart hp)
    · rw [graph.dependency_eq hp, graph.dependency_eq hq, List.append_assoc, List.append_assoc] at h
      have hbelow : "packages".toList ++ '/' :: (p.name ++ '/' :: ("obj/".toList ++ x)) =
          "packages".toList ++ '/' :: (q.name ++ '/' :: ("obj/".toList ++ y)) := by
        simpa using List.append_cancel_left h
      have hnames := (List.cons.inj (List.append_cancel_left hbelow)).2
      exact (append_sep_inj hpname hqname hnames).1

/-! ### Where artifacts are -/

section Places

variable {root rel ext path theory logical : Text} {artifacts : Artifacts} {kind : Kind}

theorem join_below (hrel : rel ≠ []) (h : join root rel = some path) : rel.head? ≠ some '/' := by
  rintro hhead
  obtain ⟨c, rest, rfl⟩ := List.exists_cons_of_ne_nil hrel
  obtain rfl : c = '/' := Option.some.inj hhead
  rw [join, if_neg hrel, if_pos (by rfl), Library.Path.concat, Path.isAbsolute, Path.fromString_slash] at h
  cases h

/-- A path without a slash at its start is put after a slash. -/
theorem join_ended (hroot : Ended root) (hrel : rel ≠ []) (hhead : rel.head? ≠ some '/') :
    join root rel = some (root ++ '/' :: rel) := by
  obtain ⟨before, arc, rfl, harc, hslash⟩ := hroot
  obtain ⟨c, rest, rfl⟩ := List.exists_cons_of_ne_nil hrel
  have hc : c ≠ '/' := fun hc ↦ hhead (by rw [hc]; rfl)
  have hends : ['/'].isSuffixOf (before ++ arc) = false := by
    rw [Bool.eq_false_iff]
    intro hsuffix
    obtain ⟨front, hfront⟩ := List.isSuffixOf_iff_suffix.mp hsuffix
    obtain ⟨init, last, rfl⟩ := (List.eq_nil_or_concat arc).resolve_left harc
    rw [List.concat_eq_append, ← List.append_assoc] at hfront
    have hlast := (List.append_inj' hfront rfl).2
    refine hslash ?_
    rw [List.concat_eq_append, ← hlast]
    exact List.mem_append_right _ (List.mem_singleton_self _)
  rw [join, if_neg hrel, if_neg (by simpa [List.isPrefixOf] using hc.symm), if_neg (by simp [harc]), hends]
  rfl

theorem join_slash {before : Text} (hrel : rel ≠ []) (hhead : rel.head? ≠ some '/') :
    join (before ++ ['/']) rel = some (before ++ ['/'] ++ rel) := by
  obtain ⟨c, rest, rfl⟩ := List.exists_cons_of_ne_nil hrel
  have hc : c ≠ '/' := fun hc ↦ hhead (by rw [hc]; rfl)
  have hends : ['/'].isSuffixOf (before ++ ['/']) = true :=
    List.isSuffixOf_iff_suffix.mpr (List.suffix_append _ _)
  rw [join, if_neg hrel, if_neg (by simpa [List.isPrefixOf] using hc.symm), if_neg (by simp), if_pos hends]

theorem obj_ended : Ended "obj".toList := ⟨[], "obj".toList, rfl, by decide, by decide⟩

theorem head_obj (below : Text) : ("obj".toList ++ below).head? ≠ some '/' := by simp

/-- An object is below `obj`. -/
theorem objPath_eq (hroot : Ended root) (hext : ext ≠ []) (h : objPath root rel ext = some path) :
    path = root ++ ("/obj/".toList ++ (baseOf rel ++ ext)) ∧ (baseOf rel ++ ext).head? ≠ some '/' := by
  obtain ⟨below, hbelow, hpath⟩ := Option.bind_eq_some_iff.mp h
  have hne : baseOf rel ++ ext ≠ [] := List.append_ne_nil_of_right_ne_nil _ hext
  have hhead := join_below hne hbelow
  rw [join_ended obj_ended hne hhead, Option.some.injEq] at hbelow
  subst hbelow
  rw [join_ended hroot (List.append_ne_nil_of_left_ne_nil (by decide) _) (head_obj _), Option.some.injEq] at hpath
  exact ⟨by rw [← hpath]; simp, hhead⟩

/-- What leads to the outputs of a theory: the place of the script's directory. -/
theorem exists_theoryDir (hroot : Ended root) {below dir : Text} (hbelow : join "obj".toList (dirname rel) = some below)
    (hdir : join root below = some dir) : ∃ front, Path.Front front ∧ ∀ name : Text, name ≠ [] →
      name.head? ≠ some '/' → join dir name = some (root ++ ("/obj/".toList ++ (front ++ name))) := by
  by_cases hnil : dirname rel = []
  · rw [hnil] at hbelow
    cases hbelow
    rw [join_ended hroot (by decide) (by decide), Option.some.injEq] at hdir
    have hended : Ended dir := ⟨root ++ ['/'], "obj".toList, by rw [← hdir]; simp, by decide, by decide⟩
    refine ⟨[], .inl rfl, fun name hne hhead ↦ ?_⟩
    rw [join_ended hended hne hhead, ← hdir]
    simp
  · rw [join_ended obj_ended hnil (join_below hnil hbelow), Option.some.injEq] at hbelow
    subst hbelow
    rw [join_ended hroot (List.append_ne_nil_of_left_ne_nil (by decide) _) (head_obj _), Option.some.injEq] at hdir
    obtain ⟨front, arc, hsplit, hfront, harc⟩ := Path.exists_front (dirname rel)
    by_cases hlast : arc = []
    · -- the directory ends with a slash
      rw [hlast, List.append_nil] at hsplit
      obtain ⟨before, hbefore⟩ := hfront.resolve_left (hsplit ▸ hnil)
      have hslash : dir = root ++ ("/obj/".toList ++ before) ++ ['/'] := by
        rw [← hdir, hsplit, hbefore]
        simp
      refine ⟨front, hfront, fun name hne hhead ↦ ?_⟩
      rw [hslash, join_slash hne hhead, hbefore]
      simp
    · have hended : Ended dir :=
        ⟨root ++ ("/obj/".toList ++ front), arc, by rw [← hdir, hsplit]; simp, hlast, harc⟩
      refine ⟨dirname rel ++ ['/'], .inr ⟨_, rfl⟩, fun name hne hhead ↦ ?_⟩
      rw [join_ended hended hne hhead, ← hdir]
      simp

end Places

/-! ### What a file's name says -/

/-- The extension of a kind's files. -/
def fileExt : Kind → Text
  | .theoryScript => ".sml".toList
  | .sml => ".sml".toList
  | .sig => ".sig".toList

/-- What the file's name is before its extension, by the source's logical name and kind. -/
def Named (logical stem : Text) : Kind → Prop
  | .theoryScript => ∃ x : Text, stem = x ++ "Script".toList ∧ logical = x ++ "Theory".toList
  | .sml => stem = logical ∧ ¬ "Theory".toList <:+ logical ∧ ¬ "Script".toList <:+ logical
  | .sig => stem = logical ∧ ¬ "Theory".toList <:+ logical

/-- A source that a package's files may give. -/
structure IsSource (package : Package) (source : Source) : Prop where
  name : source.package = package.name
  named : ∃ stem, filename source.relativePath = stem ++ fileExt source.kind ∧
    Named source.logicalName stem source.kind
  artifacts : artifactsFor package.artifactRoot source.kind source.logicalName source.relativePath =
    some source.artifacts

section Names

variable {package : Package} {path suffix text stem logical : Text} {kind : Kind} {source : Source}
  {artifacts : Artifacts}

theorem dropSuffix_eq (h : dropSuffix suffix text = some stem) : text = stem ++ suffix := by
  rw [dropSuffix] at h
  split_ifs at h with hsuffix
  obtain ⟨before, rfl⟩ := List.isSuffixOf_iff_suffix.mp hsuffix
  obtain rfl : before = stem := by simpa using h
  rfl

theorem not_suffix {end' : Text} (h : ¬ hasSuffix (suffix ++ end') (text ++ end')) : ¬ suffix <:+ text := by
  rintro ⟨before, rfl⟩
  exact h (List.isSuffixOf_iff_suffix.mpr ⟨before, (List.append_assoc ..).symm⟩)

theorem IsSource.of_makeSource {rel : Text} (h : makeSource package kind logical path rel artifacts = some source)
    (hfile : filename rel = stem ++ fileExt kind) (hnamed : Named logical stem kind)
    (hartifacts : artifactsFor package.artifactRoot kind logical rel = some artifacts) : IsSource package source := by
  obtain ⟨canonical, -, hsource⟩ := Option.bind_eq_some_iff.mp h
  cases hsource
  exact ⟨rfl, ⟨stem, hfile, hnamed⟩, hartifacts⟩

/-- A classified file is a source by its name. -/
theorem IsSource.of_classify (h : classify package path = some (some source)) : IsSource package source := by
  rw [classify] at h
  dsimp only at h
  split_ifs at h with htheory hscript hsml hsig
  · cases h
  · obtain ⟨stem, hstem, h⟩ := Option.bind_eq_some_iff.mp h
    obtain ⟨artifacts, hartifacts, h⟩ := Option.bind_eq_some_iff.mp h
    obtain ⟨made, hmade, h⟩ := Option.bind_eq_some_iff.mp h
    cases h
    have hfile : _ = stem ++ ("Script".toList ++ ".sml".toList) := dropSuffix_eq hstem
    rw [← List.append_assoc] at hfile
    exact .of_makeSource hmade hfile ⟨stem, rfl, rfl⟩ hartifacts
  · obtain ⟨logical, hlogical, h⟩ := Option.bind_eq_some_iff.mp h
    obtain ⟨artifacts, hartifacts, h⟩ := Option.bind_eq_some_iff.mp h
    obtain ⟨made, hmade, h⟩ := Option.bind_eq_some_iff.mp h
    cases h
    have hfile := dropSuffix_eq hlogical
    rw [generatedTheoryArtifact, Bool.or_eq_true, not_or, hfile] at htheory
    rw [hfile] at hscript
    exact .of_makeSource hmade hfile ⟨rfl, not_suffix htheory.1, not_suffix hscript⟩ hartifacts
  · obtain ⟨logical, hlogical, h⟩ := Option.bind_eq_some_iff.mp h
    obtain ⟨artifacts, hartifacts, h⟩ := Option.bind_eq_some_iff.mp h
    obtain ⟨made, hmade, h⟩ := Option.bind_eq_some_iff.mp h
    cases h
    have hfile := dropSuffix_eq hlogical
    rw [generatedTheoryArtifact, Bool.or_eq_true, not_or, hfile] at htheory
    exact .of_makeSource hmade hfile ⟨rfl, not_suffix htheory.2⟩ hartifacts
  · cases h

end Names

/-! ### The layout of a source's artifacts -/

/-- What an artifact's name starts with: the source's logical name, or the base of its file's name. -/
inductive Stem
  | logical | base
deriving DecidableEq

/-- How the artifacts of a kind of source are named, in the order of `Artifacts.paths`. -/
def marks : Kind → List (Stem × Text)
  | .theoryScript => [(.logical, ".sig".toList), (.logical, ".sml".toList), (.base, ".uo".toList),
      (.logical, ".ui".toList), (.logical, ".uo".toList), (.logical, ".dat".toList)]
  | .sml => [(.base, ".ui".toList), (.base, ".uo".toList)]
  | .sig => [(.base, ".ui".toList)]

/-- A source's path and its artifacts' paths, taken apart: `front` leads to its file, and `outputs` to what is
named by its logical name. -/
structure Layout (package : Package) (source : Source) where
  front : Text
  stem : Text
  outputs : Text
  front_front : Path.Front front
  outputs_front : Path.Front outputs
  slash_notMem : '/' ∉ stem
  rel_eq : source.relativePath = front ++ (stem ++ fileExt source.kind)
  named : Named source.logicalName stem source.kind

namespace Layout

variable {package : Package} {source : Source}

/-- What leads to an artifact below `obj`. -/
def lead (layout : Layout package source) : Stem → Text
  | .logical => layout.outputs
  | .base => layout.front

/-- What an artifact's name starts with; a file whose name is only an extension keeps it. -/
def arc (layout : Layout package source) : Stem → Text
  | .logical => source.logicalName
  | .base => if layout.stem = [] then fileExt source.kind else layout.stem

/-- Where an artifact is. -/
def place (layout : Layout package source) (mark : Stem × Text) : Text :=
  package.artifactRoot ++ ("/obj/".toList ++ (layout.lead mark.1 ++ (layout.arc mark.1 ++ mark.2)))

end Layout

section Layouts

variable {package : Package} {source : Source} {logical stem : Text} {kind : Kind}

theorem exists_fileExt (kind : Kind) : ∃ ext, fileExt kind = '.' :: ext ∧ '.' ∉ ext ∧ '/' ∉ ext ∧ ext ≠ [] := by
  cases kind
  · exact ⟨"sml".toList, rfl, by decide⟩
  · exact ⟨"sml".toList, rfl, by decide⟩
  · exact ⟨"sig".toList, rfl, by decide⟩

theorem Named.slash_notMem (hnamed : Named logical stem kind) (hstem : '/' ∉ stem) : '/' ∉ logical := by
  cases kind with
  | theoryScript =>
    obtain ⟨x, rfl, rfl⟩ := hnamed
    rw [List.mem_append, not_or] at hstem ⊢
    exact ⟨hstem.1, by decide⟩
  | sml => exact hnamed.1 ▸ hstem
  | sig => exact hnamed.1 ▸ hstem

theorem head_logical {ext : Text} (hlogical : '/' ∉ logical) (hext : ext.head? = some '.') :
    (logical ++ ext).head? ≠ some '/' := by
  cases logical with
  | nil => simp [hext]
  | cons c rest =>
    have hc : c ≠ '/' := fun hc ↦ hlogical (hc ▸ List.mem_cons_self)
    simpa using hc

theorem slash_notMem_filename (rel : Text) : '/' ∉ filename rel := by
  obtain ⟨front, arc, rfl, hfront, harc⟩ := Path.exists_front rel
  rwa [filename_front hfront harc]

theorem slash_notMem_fileExt (kind : Kind) : '/' ∉ fileExt kind := by cases kind <;> decide

namespace Layout

theorem slash_notMem_arc (layout : Layout package source) (stem : Stem) : '/' ∉ layout.arc stem := by
  cases stem with
  | logical => exact layout.named.slash_notMem layout.slash_notMem
  | base =>
    rw [arc]
    split_ifs
    · exact slash_notMem_fileExt _
    · exact layout.slash_notMem

theorem filename_eq (layout : Layout package source) :
    filename source.relativePath = layout.stem ++ fileExt source.kind := by
  rw [layout.rel_eq, filename_front layout.front_front]
  rw [List.mem_append, not_or]
  exact ⟨layout.slash_notMem, slash_notMem_fileExt _⟩

/-- The base of a source's path. -/
theorem base_eq (layout : Layout package source) :
    baseOf source.relativePath = layout.front ++ layout.arc .base := by
  obtain ⟨ext, hext, hdot, hslash, hne⟩ := exists_fileExt source.kind
  have harc : '/' ∉ layout.stem ++ '.' :: ext := by
    rw [← hext, ← layout.filename_eq]
    exact slash_notMem_filename _
  rw [layout.rel_eq, arc, hext, baseOf_dot layout.front_front harc hdot]
  by_cases hstem : layout.stem = []
  · rw [if_pos (.inr hstem), if_pos hstem, hstem, List.nil_append]
  · rw [if_neg (not_or.mpr ⟨hne, hstem⟩), if_neg hstem]

/-- Objects named by the base. -/
theorem place_base (layout : Layout package source) (hroot : Ended package.artifactRoot) {ext path : Text}
    (hext : ext ≠ []) (h : objPath package.artifactRoot source.relativePath ext = some path) :
    layout.place (.base, ext) = path := by
  rw [(objPath_eq hroot hext h).1, layout.base_eq, place, List.append_assoc]
  rfl

end Layout

/-- Every source has a layout, and its artifacts are where the marks of its kind say. -/
theorem exists_layout (hroot : Ended package.artifactRoot) (h : IsSource package source) :
    ∃ layout : Layout package source, source.artifacts.paths = (marks source.kind).map layout.place := by
  obtain ⟨stem, hfile, hnamed⟩ := h.named
  obtain ⟨front, arc, hrel, hfront, harc⟩ := Path.exists_front source.relativePath
  obtain rfl : arc = stem ++ fileExt source.kind := by rw [← hfile, hrel, filename_front hfront harc]
  have hstem : '/' ∉ stem := fun hmem ↦ harc (List.mem_append_left _ hmem)
  have hartifacts := h.artifacts
  cases hkind : source.kind with
  | theoryScript =>
    rw [hkind] at hartifacts hnamed
    obtain ⟨below, hbelow, hartifacts⟩ := Option.bind_eq_some_iff.mp hartifacts
    obtain ⟨dir, hdir, hartifacts⟩ := Option.bind_eq_some_iff.mp hartifacts
    obtain ⟨sig, hsig, hartifacts⟩ := Option.bind_eq_some_iff.mp hartifacts
    obtain ⟨sml, hsml, hartifacts⟩ := Option.bind_eq_some_iff.mp hartifacts
    obtain ⟨script, hscript, hartifacts⟩ := Option.bind_eq_some_iff.mp hartifacts
    obtain ⟨ui, hui, hartifacts⟩ := Option.bind_eq_some_iff.mp hartifacts
    obtain ⟨uo, huo, hartifacts⟩ := Option.bind_eq_some_iff.mp hartifacts
    obtain ⟨dat, hdat, hartifacts⟩ := Option.bind_eq_some_iff.mp hartifacts
    obtain ⟨outputs, houtputs, hjoin⟩ := exists_theoryDir hroot hbelow hdir
    have hlogical := hnamed.slash_notMem hstem
    let layout : Layout package source :=
      ⟨front, stem, outputs, hfront, houtputs, hstem, hrel, hkind ▸ hnamed⟩
    have hplace : ∀ {ext path : Text}, ext.head? = some '.' →
        join dir (source.logicalName ++ ext) = some path → layout.place (.logical, ext) = path := by
      intro ext path hext hpath
      have hne : ext ≠ [] := by
        rintro rfl
        cases hext
      rw [hjoin _ (List.append_ne_nil_of_right_ne_nil _ hne) (head_logical hlogical hext), Option.some.injEq] at hpath
      exact hpath
    refine ⟨layout, ?_⟩
    rw [← Option.some.inj hartifacts, ← hplace rfl hsig, ← hplace rfl hsml,
      ← layout.place_base hroot (by decide) hscript, ← hplace rfl hui, ← hplace rfl huo, ← hplace rfl hdat]
    rfl
  | sml =>
    rw [hkind] at hartifacts
    obtain ⟨ui, hui, hartifacts⟩ := Option.bind_eq_some_iff.mp hartifacts
    obtain ⟨uo, huo, hartifacts⟩ := Option.bind_eq_some_iff.mp hartifacts
    let layout : Layout package source := ⟨front, stem, [], hfront, .inl rfl, hstem, hrel, hnamed⟩
    refine ⟨layout, ?_⟩
    rw [← Option.some.inj hartifacts, ← layout.place_base hroot (by decide) hui,
      ← layout.place_base hroot (by decide) huo]
    rfl
  | sig =>
    rw [hkind] at hartifacts
    obtain ⟨ui, hui, hartifacts⟩ := Option.bind_eq_some_iff.mp hartifacts
    let layout : Layout package source := ⟨front, stem, [], hfront, .inl rfl, hstem, hrel, hnamed⟩
    refine ⟨layout, ?_⟩
    rw [← Option.some.inj hartifacts, ← layout.place_base hroot (by decide) hui]
    rfl

end Layouts

end Holbuild.SourceIndex
