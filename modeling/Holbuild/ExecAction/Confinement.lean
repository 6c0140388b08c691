import Holbuild.ExecAction.SpecPaths

/-!
# Where the paths of accepted specs lead

The action root and the checkpoint root are two directories of the cache. The fields that the worker
checks lead below the root they are appended to, except a path that climbs: after current and empty
arcs only, its last arc is a parent arc, which the textual test lets pass. Fields that are not checked
lead where they say. `ActionContained` and `RunContained` say which fields stay; they hold exactly when
every path derived from an accepted spec is confined.
-/

set_option autoImplicit false
set_option relaxedAutoImplicit false

namespace Holbuild.ExecAction

open Library Library.Path

variable (cache : Cache)

/-- Where the cache's directory is. -/
def cachePlace : Place := resolve cache.cwd cache.dir

def rootPlace : Place := "action".toList :: cachePlace cache

def checkpointPlace : Place := "checkpoints".toList :: cachePlace cache

/-- A place under the action root or the checkpoint root. -/
def Within (place : Place) : Prop :=
  rootPlace cache <:+ place ∨ checkpointPlace cache <:+ place

/-- A path that leads under the action root or the checkpoint root. -/
def Confined (path : Text) : Prop := Within cache (resolve cache.cwd path)

/-- The place of a theory's stage: the script's directory below the directory of the action's key. -/
def stagePlace (spec : ActionSpec) : Place :=
  follow (spec.inputKey :: "stage".toList :: ".holbuild".toList :: rootPlace cache)
    (fromString spec.source.path).arcs.dropLast

/-- Where a theory's package leads from the checkpoint root. -/
def packagePlace (spec : ActionSpec) : Place :=
  follow (checkpointPlace cache) (fromString spec.package).arcs

/-- Where a field's path leads from a directory, if it is relative. -/
def Leads (place : Place) (path : Text) : Prop :=
  Within cache (follow (if isAbsolute path then [] else place) (fromString path).arcs)

/-- What a preload loads by a path leads under the roots: an object from the action root, a HOL theory
or library with a slash in its name from the stage. -/
def LoadContained (stage : Place) : TheoryLoad → Prop
  | .theory name => '/' ∈ name → Leads cache stage name
  | .library name => '/' ∈ name → Leads cache stage name
  | .object stem => Leads cache (rootPlace cache) stem

/-- No dependency's path climbs. -/
structure DependenciesContained (libraries : List SpecFile) (deps : List DepLine)
    (libs : List LibLine) : Prop where
  libraries : ∀ file ∈ libraries, ¬Climbing file.path
  deps : ∀ dep ∈ deps, ¬Climbing dep.stem
  stems : ∀ lib ∈ libs, ¬Climbing lib.stem
  loads : ∀ load ∈ loadPaths libs, ¬Climbing load

/-- What a theory's run stages and installs: it stages nothing when its data file has no suffix or an
extra output is absolute. -/
structure OutputsContained (spec : ActionSpec) : Prop where
  sigPath : ¬Climbing spec.outputs.sigPath
  smlPath : ¬Climbing spec.outputs.smlPath
  extraOutputs : ∀ declaration ∈ spec.extraOutputs, Leads cache (stagePlace cache spec) declaration
  loads : ∀ load ∈ spec.loads, LoadContained cache (stagePlace cache spec) load

/-- Whether a theory's run stages anything. -/
def Stages (spec : ActionSpec) : Prop :=
  ".dat".toList <:+ spec.outputs.dataPath ∧
    ∀ declaration ∈ spec.extraOutputs, isAbsolute declaration = false

/-- The fields of a theory's spec stay under the roots. -/
structure ActionContained (spec : ActionSpec) : Prop where
  dependencies : DependenciesContained spec.libraries spec.deps spec.libs
  dataPath : spec.outputs.dataPath ≠ ".dat".toList
  checkpoints : Within cache (follow (packagePlace cache spec) (fromString spec.source.path).arcs) ∧
    Within cache (follow (packagePlace cache spec) (fromString spec.source.path).arcs.dropLast)
  outputs : Stages spec → OutputsContained cache spec

/-- The fields of a run's spec stay under the roots. -/
structure RunContained (spec : RunSpec) : Prop where
  dependencies : DependenciesContained spec.libraries (runSpecDeps spec) spec.libs
  contextScripts : ∀ file ∈ spec.contextScripts, ¬Climbing file.path

variable {cache} {path stem ext key name : Text}

/-! ### The roots -/

theorem resolve_root : resolve cache.cwd cache.root = rootPlace cache := by
  rw [Cache.root, resolve_append (by decide)]
  rfl

theorem resolve_checkpointRoot : resolve cache.cwd cache.checkpointRoot = checkpointPlace cache := by
  rw [Cache.checkpointRoot, resolve_append (by decide)]
  rfl

theorem below_root : Below cache.cwd (rootPlace cache) 0 cache.root := ⟨[], le_rfl, resolve_root⟩

theorem below_checkpointRoot : Below cache.cwd (checkpointPlace cache) 0 cache.checkpointRoot :=
  ⟨[], le_rfl, resolve_checkpointRoot⟩

/-- The cache's directory is under neither root. -/
theorem not_within_cachePlace : ¬Within cache (cachePlace cache) := by
  rintro (h | h)
  · exact absurd h.length_le (Nat.not_succ_le_self _)
  · exact absurd h.length_le (Nat.not_succ_le_self _)

theorem confined_of_below {n : ℕ} (h : Below cache.cwd (rootPlace cache) n path) :
    Confined cache path :=
  .inl h.suffix

theorem inRoot_of_relative {root : Text} (h : isAbsolute path = false) :
    inRoot root path = append root path := by
  rw [inRoot, h]
  rfl

/-- A field's path, appended to a directory unless it is absolute, leads where the field says. -/
theorem confined_inRoot_iff {root : Text} :
    Confined cache (inRoot root path) ↔ Leads cache (resolve cache.cwd root) path := by
  rw [Confined, Leads, inRoot]
  by_cases habs : isAbsolute path = true
  · rw [if_pos habs, if_pos habs, resolve, follows]
    rw [isAbsolute] at habs
    rw [habs]
    rfl
  · rw [if_neg habs, if_neg habs, resolve_append (by simpa using habs)]

/-- A checked field's path stays in the action root unless it climbs. -/
theorem confined_inRoot_of_guarded (h : Guarded path) :
    Confined cache (inRoot cache.root path) ↔ ¬Climbing path := by
  rw [confined_inRoot_iff, resolve_root, Leads, if_neg (by simp [h.relative])]
  constructor
  · intro hwithin hclimbing
    rw [hclimbing.follow_eq] at hwithin
    exact not_within_cachePlace hwithin
  · exact fun hclimbing ↦ .inl (h.suffix_follow hclimbing)

/-! ### Files at stems -/

/-- A name that is longer than the arcs that lead nowhere. -/
theorem name_of_length {arc : Text} (h : 2 < arc.length) : ¬Idle arc ∧ arc ≠ parentArc := by
  refine ⟨?_, ?_⟩
  · rintro (rfl | rfl)
    · exact absurd h (by decide)
    · exact absurd h (by decide)
  · rintro rfl
    exact absurd h (by decide)

theorem below_hfsRemappedPath {n : ℕ} {base : Place} (h : Below cache.cwd base n (dir path)) :
    Below cache.cwd base (n + 1) (hfsRemappedPath path) := by
  have hnamed : Named 2 ".hol/objs".toList := by decide
  have hobjs : Below cache.cwd base (n + 2) (append (dir path) ".hol/objs".toList) :=
    h.append_named hnamed
  exact hobjs.append_guarded guarded_file

/-- A path in a directory of the action root, extended to a file's name, and its remapped copy. -/
theorem confined_remapped (h : Below cache.cwd (rootPlace cache) 0 (dir path)) (hslash : '/' ∉ ext)
    (hext : 2 < ext.length) : ∀ file ∈ remapped (path ++ ext), Confined cache file := by
  have hne : ext ≠ [] := List.ne_nil_of_length_pos (by omega)
  have hdir : Below cache.cwd (rootPlace cache) 0 (dir (path ++ ext)) := by
    obtain ⟨above, hlength, hresolve⟩ := h
    exact ⟨above, hlength, (resolve_dir_extended hslash hne).trans hresolve⟩
  obtain ⟨hidle, hparent⟩ := @name_of_length (Path.file (path ++ ext)) (by
    rw [file_extended hslash hne, List.length_append]
    omega)
  intro file hfile
  simp only [remapped, List.mem_cons, List.not_mem_nil, or_false] at hfile
  rcases hfile with rfl | rfl
  · exact confined_of_below (below_of_dir hdir hidle hparent)
  · exact confined_of_below (below_hfsRemappedPath hdir)

theorem below_dir_inRoot (h : Guarded path) (hne : path ≠ []) :
    Below cache.cwd (rootPlace cache) 0 (dir (inRoot cache.root path)) := by
  rw [inRoot_of_relative h.relative]
  exact below_root.dir_append h hne

/-- A key is a single name. -/
theorem arcs_key (h : sha256Text key = true) : Guarded key ∧ (fromString key).arcs = [key] := by
  rw [sha256Text, Bool.and_eq_true, decide_eq_true_eq, List.all_eq_true] at h
  have hslash : '/' ∉ key := fun hmem ↦ absurd (h.2 _ hmem) (by decide)
  have hguarded := guarded_of_notMem hslash
  have hne : key ≠ [] := List.ne_nil_of_length_pos (by omega)
  refine ⟨hguarded, ?_⟩
  rw [fromString_of_relative hguarded.relative hne, List.splitOn_eq_singleton hslash]

theorem named_key (h : sha256Text key = true) : Named 1 key := by
  obtain ⟨hguarded, harcs⟩ := arcs_key h
  rw [sha256Text, Bool.and_eq_true, decide_eq_true_eq] at h
  refine ⟨hguarded.relative, ?_, by rw [harcs]; rfl⟩
  rw [harcs]
  intro arc harc
  rw [List.mem_singleton.mp harc]
  exact name_of_length (by omega)

/-! ### Restored theories and libraries -/

theorem isAbsolute_append_of_relative (hrel : isAbsolute path = false) (hne : path ≠ []) (rest : Text) :
    isAbsolute (path ++ rest) = false := by
  obtain ⟨c, more, rfl⟩ := List.exists_cons_of_ne_nil hne
  have hc : c ≠ '/' := by
    rintro rfl
    rw [isAbsolute, fromString_slash] at hrel
    exact absurd hrel (by simp)
  rw [List.cons_append, isAbsolute, fromString_relative hc]

/-- The arcs that a relative path's text is cut into, but for the empty one of the empty path. -/
theorem follow_splitOn {place : Place} (hrel : isAbsolute path = false) :
    follow place (path.splitOn '/') = follow place (fromString path).arcs := by
  by_cases hne : path = []
  · subst hne
    rfl
  · rw [fromString_of_relative hrel hne]

/-- A path put together from a directory of names and two guarded pieces stays in the root: each piece
goes up once at most. -/
theorem below_joined {start first second : Text} (hstart : Named 2 start) (hne : start ≠ [])
    (hfirst : Guarded first) (hsecond : Guarded second) :
    Below cache.cwd (rootPlace cache) 0
      (inRoot cache.root (mkCanonical (concatWith ['/'] [start, first, second]))) := by
  have htext : concatWith ['/'] [start, first, second] = start ++ '/' :: (first ++ '/' :: second) := by
    rw [concatWith_cons_cons, concatWith_cons_cons]
    simp [concatWith]
  have hrel : isAbsolute (concatWith ['/'] [start, first, second]) = false := by
    rw [htext]
    exact isAbsolute_append_of_relative hstart.1 hne _
  have hsplit : (concatWith ['/'] [start, first, second]).splitOn '/' =
      start.splitOn '/' ++ (first.splitOn '/' ++ second.splitOn '/') := by
    rw [htext, List.splitOn_append_cons_self, List.splitOn_append_cons_self]
  rw [inRoot_of_relative (isAbsolute_mkCanonical.trans hrel)]
  obtain ⟨above, hlength, hresolve⟩ := (@below_root cache).append_named hstart
  obtain ⟨above₁, hfollow₁, hle₁⟩ := @exists_follow (rootPlace cache) (fromString first).arcs above
    (hfirst.count_le.trans (by omega))
  have hfirstCount := hfirst.count_le
  obtain ⟨above₂, hfollow₂, hle₂⟩ := @exists_follow (rootPlace cache) (fromString second).arcs above₁
    (hsecond.count_le.trans (by omega))
  refine ⟨above₂, Nat.zero_le _, ?_⟩
  rw [resolve_append (isAbsolute_mkCanonical.trans hrel), follow_arcs_mkCanonical hrel,
    ← follow_splitOn hrel, hsplit, follow_append, follow_append, follow_splitOn hstart.1,
    follow_splitOn hfirst.relative, follow_splitOn hsecond.relative, ← resolve_append hstart.1,
    hresolve, hfollow₁, hfollow₂]

theorem confined_extraDestination (hkey : sha256Text key = true) {declaration : Text}
    (h : extraDestination cache key declaration = some path) : Confined cache path := by
  rw [extraDestination] at h
  split at h
  · exact absurd h nofun
  · next hescapes =>
    rw [← Option.some.inj h]
    have hdeclaration : Guarded declaration := guarded_of_escapes (by simpa using hescapes)
    exact confined_of_below (below_joined (by decide) (by decide) (arcs_key hkey).1 hdeclaration)

/-- The files of a theory restored at a guarded stem. -/
theorem confined_restoredPaths (hkey : sha256Text key = true) (h : Guarded stem) (hne : stem ≠ []) :
    ∀ path ∈ restoredPaths cache key stem, Confined cache path := by
  intro path hpath
  rcases List.mem_append.mp hpath with hpath | hpath
  · obtain ⟨ext, hext, hpath⟩ := List.mem_flatMap.mp hpath
    have hexts : ∀ ext ∈ [".sig", ".sml", ".dat", ".tr.gz", ".ui", ".uo"],
        '/' ∉ ext.toList ∧ 2 < ext.toList.length := by decide
    exact confined_remapped (below_dir_inRoot h hne) (hexts ext hext).1 (hexts ext hext).2 path hpath
  · obtain ⟨declaration, -, hpath⟩ := List.mem_filterMap.mp hpath
    exact confined_extraDestination hkey hpath

theorem suffixOk_spec {lib : LibLine} (h : suffixOk lib = true) :
    '/' ∉ lib.suffix ∧ 2 < lib.suffix.length := by
  rw [suffixOk, Bool.or_eq_true, decide_eq_true_eq, decide_eq_true_eq] at h
  rcases h with h | h
  · rw [h]
    decide
  · rw [h]
    decide

/-- A library's manifest. -/
theorem confined_manifest (h : Guarded stem) (hslash : '/' ∉ ext) (hext : 2 < ext.length) :
    ∀ path ∈ remapped (inRoot cache.root (stem ++ ext)), Confined cache path := by
  have hne : ext ≠ [] := List.ne_nil_of_length_pos (by omega)
  have hguarded := h.extended hslash hne
  have hdir : Below cache.cwd (rootPlace cache) 0 (dir (inRoot cache.root (stem ++ ext))) :=
    below_dir_inRoot hguarded (List.append_ne_nil_of_right_ne_nil _ hne)
  obtain ⟨hidle, hparent⟩ := @name_of_length (Path.file (inRoot cache.root (stem ++ ext))) (by
    rw [inRoot_of_relative hguarded.relative,
      file_append hguarded.relative (List.append_ne_nil_of_right_ne_nil _ hne),
      file_extended hslash hne, List.length_append]
    omega)
  intro path hpath
  simp only [remapped, List.mem_cons, List.not_mem_nil, or_false] at hpath
  rcases hpath with rfl | rfl
  · exact confined_of_below (below_of_dir hdir hidle hparent)
  · exact confined_of_below (below_hfsRemappedPath hdir)

section Dependencies

variable {libraries : List SpecFile} {deps : List DepLine} {libs : List LibLine}

theorem mem_loadPaths {load : Text} :
    load ∈ loadPaths libs ↔ ∃ lib ∈ libs, load ∈ loadPaths [lib] := by
  simp only [loadPaths, List.mem_filter, List.mem_flatMap, List.mem_singleton, exists_eq_left]
  constructor
  · rintro ⟨⟨lib, hlib, hload⟩, hslash⟩
    exact ⟨lib, hlib, hload, hslash⟩
  · rintro ⟨lib, hlib, hload, hslash⟩
    exact ⟨⟨lib, hlib, hload⟩, hslash⟩

/-- The paths of a spec's dependencies are confined exactly when none of their fields climbs. -/
theorem confined_hydratedPaths_iff (hlibraries : ∀ file ∈ libraries, Guarded file.path)
    (hstems : ∀ dep ∈ deps, Guarded dep.stem ∧ dep.stem ≠ [])
    (hkeys : ∀ dep ∈ deps, sha256Text dep.key = true) (hlibs : ∀ lib ∈ libs, Guarded lib.stem)
    (hsuffixes : ∀ lib ∈ libs, suffixOk lib = true) (hloads : ∀ load ∈ loadPaths libs, Guarded load) :
    (∀ path ∈ hydratedPaths cache libraries deps libs, Confined cache path) ↔
      DependenciesContained libraries deps libs := by
  simp only [hydratedPaths, List.mem_append, List.mem_map, List.mem_flatMap]
  constructor
  · intro h
    constructor
    · intro file hfile
      exact (confined_inRoot_of_guarded (hlibraries file hfile)).mp
        (h _ (.inl (.inl ⟨file, hfile, rfl⟩)))
    · intro dep hdep
      exact (confined_inRoot_of_guarded (hstems dep hdep).1).mp
        (h _ (.inr ⟨dep, hdep, List.mem_cons_self⟩))
    · intro lib hlib
      exact (confined_inRoot_of_guarded (hlibs lib hlib)).mp
        (h _ (.inl (.inr ⟨lib, hlib, List.mem_append_left _ List.mem_cons_self⟩)))
    · intro load hload
      obtain ⟨lib, hlib, hmem⟩ := mem_loadPaths.mp hload
      exact (confined_inRoot_of_guarded (hloads load hload)).mp
        (h _ (.inl (.inr ⟨lib, hlib, List.mem_append_right _ (List.mem_map_of_mem hmem)⟩)))
  · rintro h path ((⟨file, hfile, rfl⟩ | ⟨lib, hlib, hpath⟩) | ⟨dep, hdep, hpath⟩)
    · exact (confined_inRoot_of_guarded (hlibraries file hfile)).mpr (h.libraries file hfile)
    · rcases List.mem_append.mp hpath with hpath | hpath
      · rcases List.mem_cons.mp hpath with rfl | hpath
        · exact (confined_inRoot_of_guarded (hlibs lib hlib)).mpr (h.stems lib hlib)
        · have hsuffix := suffixOk_spec (hsuffixes lib hlib)
          exact confined_manifest (hlibs lib hlib) hsuffix.1 hsuffix.2 path hpath
      · obtain ⟨load, hload, rfl⟩ := List.mem_map.mp hpath
        have hmem : load ∈ loadPaths libs := mem_loadPaths.mpr ⟨lib, hlib, hload⟩
        exact (confined_inRoot_of_guarded (hloads load hmem)).mpr (h.loads load hmem)
    · rcases List.mem_cons.mp hpath with rfl | hpath
      · exact (confined_inRoot_of_guarded (hstems dep hdep).1).mpr (h.deps dep hdep)
      · exact confined_restoredPaths (hkeys dep hdep) (hstems dep hdep).1 (hstems dep hdep).2 path hpath

end Dependencies

/-! ### Runs -/

theorem below_runSourceDir : Below cache.cwd (rootPlace cache) 2 (inRoot cache.root runSourceDir) := by
  have hnamed : Named 2 runSourceDir := by decide
  rw [inRoot_of_relative hnamed.1]
  exact below_root.append_named hnamed

theorem below_runOutputDir : Below cache.cwd (rootPlace cache) 2 (inRoot cache.root runOutputDir) := by
  have hnamed : Named 2 runOutputDir := by decide
  rw [inRoot_of_relative hnamed.1]
  exact below_root.append_named hnamed

/-- The paths of an accepted run's spec are confined exactly when its fields stay under the roots. -/
theorem confined_runPaths_iff {worker : Worker} {text : Text} {spec : RunSpec}
    (hparse : parseRunSpec worker text = .ok spec) (hverify : verifyRunSpec worker spec = .ok ()) :
    (∀ path ∈ runPaths cache spec, Confined cache path) ↔ RunContained spec := by
  obtain ⟨hkeys, hsuffixes, houtputs, hpaths⟩ := verifiedRun hverify
  have hfilled := filled_of_parseRunSpec hparse
  simp only [runSpecPaths, List.nil_append, List.mem_append, List.mem_map] at hpaths
  have hlibs : ∀ lib ∈ spec.libs, Guarded lib.stem := fun lib hlib ↦
    hpaths _ (.inl (.inl (.inr ⟨lib, hlib, rfl⟩)))
  have hscripts : ∀ file ∈ spec.contextScripts, Guarded file.path := fun file hfile ↦
    hpaths _ (.inl (.inl (.inl (.inl (.inl ⟨file, .inr hfile, rfl⟩)))))
  have hstems : ∀ dep ∈ runSpecDeps spec, Guarded dep.stem := by
    intro dep hdep
    rcases List.mem_append.mp hdep with hdep | hdep
    · exact hpaths _ (.inl (.inl (.inl (.inr ⟨dep, hdep, rfl⟩))))
    · exact hpaths _ (.inl (.inr ⟨dep, hdep, rfl⟩))
  have hdependencies := @confined_hydratedPaths_iff cache spec.libraries (runSpecDeps spec) spec.libs
    (fun file hfile ↦ hpaths _ (.inl (.inl (.inl (.inl (.inl ⟨file, .inl hfile, rfl⟩))))))
    (fun dep hdep ↦ ⟨hstems dep hdep, hfilled dep hdep⟩) hkeys hlibs hsuffixes
    (fun load hload ↦ hpaths _ (.inr hload))
  constructor
  · intro h
    refine ⟨hdependencies.mp fun path hpath ↦ h path ?_, fun file hfile ↦ ?_⟩
    · exact List.mem_append_left _ (List.mem_append_left _ (List.mem_append_right _ hpath))
    · refine (confined_inRoot_of_guarded (hscripts file hfile)).mp (h _ ?_)
      exact List.mem_append_left _ (List.mem_append_left _ (List.mem_append_left _
        (List.mem_append_right _ (List.mem_map_of_mem hfile))))
  · intro h path hpath
    simp only [runPaths, List.mem_append] at hpath
    rcases hpath with (((hpath | hpath) | hpath) | hpath) | hpath
    · obtain ⟨file, hfile, rfl⟩ := List.mem_map.mp hpath
      have hguarded : Guarded file.path :=
        hpaths _ (.inl (.inl (.inl (.inl (.inr ⟨file, hfile, rfl⟩)))))
      exact confined_of_below (below_runSourceDir.append_guarded hguarded)
    · obtain ⟨file, hfile, rfl⟩ := List.mem_map.mp hpath
      exact (confined_inRoot_of_guarded (hscripts file hfile)).mpr (h.contextScripts file hfile)
    · exact hdependencies.mpr h.dependencies path hpath
    · obtain ⟨name, -, hload⟩ := List.mem_filterMap.mp hpath
      rw [runLoadPath] at hload
      split at hload
      · cases hload
      · obtain ⟨lib, hfind, rfl⟩ := Option.map_eq_some_iff.mp hload
        have hlib : lib ∈ spec.libs := List.mem_of_find?_eq_some hfind
        exact (confined_inRoot_of_guarded (hlibs lib hlib)).mpr (h.dependencies.stems lib hlib)
    · obtain ⟨name, hname, rfl⟩ := List.mem_map.mp hpath
      have hvalid := houtputs name hname
      have hslash : '/' ∉ name := by
        intro hmem
        simp only [validOutput, Bool.and_eq_true, List.all_eq_true] at hvalid
        exact absurd (hvalid.2 _ hmem) (by decide)
      exact confined_of_below (below_runOutputDir.append_guarded (guarded_of_notMem hslash))

/-! ### Theories -/

section Theory

variable {spec : ActionSpec}

theorem dropSuffix_eq_some_iff {suffix : Text} :
    dropSuffix suffix path = some stem ↔ path = stem ++ suffix := by
  rw [dropSuffix]
  constructor
  · intro h
    split at h
    · next hsuffix =>
      obtain ⟨front, rfl⟩ := List.isSuffixOf_iff_suffix.mp hsuffix
      rw [← Option.some.inj h]
      simp
    · exact absurd h nofun
  · rintro rfl
    rw [if_pos (List.isSuffixOf_iff_suffix.mpr (List.suffix_append _ _))]
    simp

/-- A stem's arcs are guarded when those of its file are. -/
theorem guarded_stem (h : Guarded (stem ++ ext)) (hslash : '/' ∉ ext) (hne : ext ≠ []) :
    Guarded stem := by
  obtain ⟨hrel, hinner⟩ := h
  rw [isAbsolute, fromString_extended hslash hne] at hrel
  rw [fromString_extended hslash hne, List.dropLast_concat] at hinner
  exact ⟨hrel, hinner⟩

/-- The action root extended to a name beside it is under neither root. -/
theorem not_confined_beside : ¬Confined cache (inRoot cache.root [] ++ ".sig".toList) := by
  have hfrom : fromString cache.root =
      ⟨(fromString cache.dir).isAbs, concatArcs (fromString cache.dir).arcs ["action".toList]⟩ :=
    fromString_append (by decide) (by decide)
  have hroot : inRoot cache.root [] = cache.root := by
    have harcs : concatArcs (concatArcs (fromString cache.dir).arcs ["action".toList]) [] =
        concatArcs (fromString cache.dir).arcs ["action".toList] := by
      have haction : "action".toList ≠ [] := by decide
      rw [@concatArcs_eq_append ["action".toList]]
      exact concatArcs_append_nil haction
    rw [inRoot_of_relative rfl, append, hfrom]
    exact congrArg (fun arcs ↦ Path.toString ⟨(fromString cache.dir).isAbs, arcs⟩) harcs
  have hplace : resolve cache.cwd (cache.root ++ ".sig".toList) =
      "action.sig".toList :: cachePlace cache := by
    rw [resolve_eq_followArc, resolve_dir_extended (by decide) (by decide),
      file_extended (by decide) (by decide), Cache.root, resolve_dir_append (by decide) (by decide),
      file_append (by decide) (by decide)]
    rfl
  rw [hroot, Confined, hplace]
  rintro (h | h)
  · have heq := h.eq_of_length rfl
    exact absurd (List.cons.inj heq).1 (by decide)
  · have heq := h.eq_of_length rfl
    exact absurd (List.cons.inj heq).1 (by decide)

/-- The action's own entry is confined exactly when its data file has a stem. -/
theorem confined_ownEntryPaths_iff (hkey : sha256Text spec.inputKey = true)
    (hdata : Guarded spec.outputs.dataPath) :
    (∀ path ∈ ownEntryPaths cache spec, Confined cache path) ↔
      spec.outputs.dataPath ≠ ".dat".toList := by
  rw [ownEntryPaths]
  split
  · next stem hstem =>
    rw [dropSuffix_eq_some_iff] at hstem
    constructor
    · intro h hdat
      have hnil : stem = [] := List.append_left_eq_self.mp (hstem.symm.trans hdat)
      subst hnil
      refine not_confined_beside (h _ (List.mem_cons_of_mem _ (List.mem_append_left _ ?_)))
      exact List.mem_flatMap.mpr ⟨".sig", by decide, List.mem_cons_self⟩
    · intro hdat path hpath
      have hne : stem ≠ [] := by
        rintro rfl
        exact hdat hstem
      rw [hstem] at hdata
      have hguarded := guarded_stem hdata (by decide) (by decide)
      rcases List.mem_cons.mp hpath with rfl | hpath
      · rw [hstem]
        exact confined_manifest hguarded (by decide) (by decide) _ List.mem_cons_self
      · exact confined_restoredPaths hkey hguarded hne path hpath
  · next hnone =>
    constructor
    · rintro - hdat
      rw [hdat] at hnone
      exact absurd hnone (by decide)
    · exact fun _ _ hpath ↦ absurd hpath List.not_mem_nil

theorem Within.cons {place : Place} (h : Within cache place) (name : Text) :
    Within cache (name :: place) :=
  h.imp (fun hroot ↦ hroot.trans (List.suffix_cons _ _)) fun hroot ↦
    hroot.trans (List.suffix_cons _ _)

/-- A path in a directory under the roots, extended to a file's name. -/
theorem confined_extended (h : Within cache (resolve cache.cwd (dir path))) (hslash : '/' ∉ ext)
    (hext : 2 < ext.length) : Confined cache (path ++ ext) := by
  have hne : ext ≠ [] := List.ne_nil_of_length_pos (by omega)
  obtain ⟨hidle, hparent⟩ := @name_of_length (Path.file (path ++ ext)) (by
    rw [file_extended hslash hne, List.length_append]
    omega)
  rw [Confined, resolve_eq_followArc, resolve_dir_extended hslash hne, followArc_name hidle hparent]
  exact h.cons _

theorem Confined.append_named {k : ℕ} {root : Text} (h : Confined cache root) (hnamed : Named k path) :
    Confined cache (append root path) := by
  rw [Confined, resolve_append hnamed.1, follow_names hnamed.2.1]
  exact h.imp (fun hroot ↦ hroot.trans (List.suffix_append _ _)) fun hroot ↦
    hroot.trans (List.suffix_append _ _)

/-- The paths at the checkpoint base are confined exactly when the package and the source's path,
followed from the checkpoint root, stay under the roots. -/
theorem confined_checkpointPaths_iff (hpackage : Guarded spec.package)
    (hsource : Guarded spec.source.path) (hne : spec.source.path ≠ [])
    (hdepsKey : sha256Text spec.depsKey = true) :
    (∀ path ∈ checkpointPaths cache spec, Confined cache path) ↔
      Within cache (follow (packagePlace cache spec) (fromString spec.source.path).arcs) ∧
        Within cache (follow (packagePlace cache spec) (fromString spec.source.path).arcs.dropLast) := by
  have hplace : resolve cache.cwd (append cache.checkpointRoot spec.package) =
      packagePlace cache spec := by
    rw [resolve_append hpackage.relative, resolve_checkpointRoot]
    rfl
  have hbase : resolve cache.cwd (checkpointBase cache spec) =
      follow (packagePlace cache spec) (fromString spec.source.path).arcs := by
    rw [checkpointBase, checkpointBaseIn, resolve_append hsource.relative, hplace]
  have hdir : resolve cache.cwd (dir (checkpointBase cache spec)) =
      follow (packagePlace cache spec) (fromString spec.source.path).arcs.dropLast := by
    rw [checkpointBase, checkpointBaseIn, resolve_dir_append hsource.relative hne, hplace]
  rw [← hbase, ← hdir]
  constructor
  · intro h
    exact ⟨h _ List.mem_cons_self, h _ (List.mem_cons_of_mem _ List.mem_cons_self)⟩
  · rintro ⟨hbase, hdir⟩ path hpath
    simp only [checkpointPaths, List.mem_cons, List.not_mem_nil, or_false] at hpath
    rcases hpath with rfl | rfl | rfl | rfl | rfl | rfl
    · exact hbase
    · exact hdir
    · exact confined_extended hdir (by decide) (by decide)
    · exact confined_extended hdir (by decide) (by decide)
    · exact confined_extended hdir (by decide) (by decide)
    · have hnamed : Named 1 "deps_loaded.save".toList := by decide
      have hdeps : Confined cache (checkpointBase cache spec ++ ".deps".toList) :=
        confined_extended hdir (by decide) (by decide)
      exact (hdeps.append_named (named_key hdepsKey)).append_named hnamed

theorem confined_logPaths (hpackage : Guarded spec.package) (hlogical : Guarded spec.logical) :
    ∀ path ∈ logPaths cache spec, Confined cache path := by
  have hlogs : Named 2 ".holbuild/logs".toList := by decide
  have hcurrent : Named 1 "current".toList := by decide
  have hroot : Below cache.cwd (rootPlace cache) 3
      (append (append cache.root ".holbuild/logs".toList) "current".toList) :=
    (below_root.append_named hlogs).append_named hcurrent
  have hdir : Below cache.cwd (rootPlace cache) 1
      (currentLogDir cache.root spec.package spec.logical) :=
    (hroot.append_guarded hpackage).append_guarded hlogical
  intro path hpath
  simp only [logPaths, List.mem_map] at hpath
  obtain ⟨name, hname, rfl⟩ := hpath
  have hnames : ∀ name ∈ ["build.log", "instrumented-failure.log", "proof-trace.log"],
      Named 1 name.toList := by decide
  exact confined_of_below (hdir.append_named (hnames name hname))

theorem isAbsolute_dir (h : isAbsolute path = false) : isAbsolute (dir path) = false := by
  by_cases hnil : (fromString path).arcs.dropLast = []
  · have hpath : dir path = Path.toString ⟨false, []⟩ := by
      rw [dir, hnil]
      rw [isAbsolute] at h
      rw [h]
    rw [hpath]
    rfl
  · rw [isAbsolute, dir, fromString_toString (regular_fromString path).dropLast hnil]
    exact h

theorem below_stageRoot (hkey : sha256Text spec.inputKey = true) :
    Below cache.cwd (rootPlace cache) 3 (stageRoot cache spec) := by
  have hstage : Named 2 ".holbuild/stage".toList := by decide
  exact (below_root.append_named hstage).append_named (named_key hkey)

/-- The stage is the script's directory below that of the action's key. -/
theorem resolve_actionStage (hkey : sha256Text spec.inputKey = true)
    (hsource : Guarded spec.source.path) :
    resolve cache.cwd (actionStage cache spec) = stagePlace cache spec := by
  have hrel := isAbsolute_dir hsource.relative
  have hroot : resolve cache.cwd (stageRoot cache spec) =
      spec.inputKey :: "stage".toList :: ".holbuild".toList :: rootPlace cache := by
    obtain ⟨hguarded, harcs⟩ := arcs_key hkey
    obtain ⟨-, hnames, -⟩ := named_key hkey
    rw [stageRoot, stageRootAt, resolve_append hguarded.relative, resolve_append (by decide),
      resolve_root, follow_names hnames, harcs]
    rfl
  have hdir : ∀ place : Place, follow place (fromString (dir spec.source.path)).arcs =
      follow place (fromString spec.source.path).arcs.dropLast := by
    intro place
    have h := @resolve_dir place spec.source.path
    have hfile := hsource.relative
    rw [isAbsolute] at hfile hrel
    rw [hfile, resolve, follows, hrel] at h
    exact h
  rw [actionStage, scriptDir, stagePlace, ← hroot, ← hdir]
  by_cases hnil : dir spec.source.path = []
  · rw [if_pos hnil, if_pos rfl, hnil]
    rfl
  · rw [if_neg hnil, if_neg mkCanonical_ne_nil, resolve_mkCanonical,
      resolve_append (isAbsolute_mkCanonical.trans hrel), follow_arcs_mkCanonical hrel]

theorem below_actionStage (hkey : sha256Text spec.inputKey = true)
    (hsource : Guarded spec.source.path) :
    Below cache.cwd (rootPlace cache) 3 (actionStage cache spec) := by
  obtain ⟨above, hfollow, hle⟩ := @exists_follow (rootPlace cache)
    (fromString spec.source.path).arcs.dropLast
    [spec.inputKey, "stage".toList, ".holbuild".toList]
    ((List.count_eq_zero_of_not_mem hsource.inner).trans_le (Nat.zero_le _))
  rw [List.count_eq_zero_of_not_mem hsource.inner] at hle
  exact ⟨above, hle, (resolve_actionStage hkey hsource).trans hfollow⟩

theorem confined_stagePaths (hkey : sha256Text spec.inputKey = true)
    (hsource : Guarded spec.source.path) (hlogical : Guarded spec.logical)
    (hinputs : ∀ file ∈ spec.inputs, Guarded file.path) :
    ∀ path ∈ stagePaths cache spec (actionStage cache spec), Confined cache path := by
  have hstage := @below_actionStage cache spec hkey hsource
  have hobjs : Named 2 ".hol/objs".toList := by decide
  have hexts : ∀ ext ∈ [".sig", ".sml", ".dat", ".tr.gz"], '/' ∉ ext.toList ∧ ext.toList ≠ [] := by
    decide
  intro path hpath
  simp only [stagePaths, List.mem_append, List.mem_cons, List.not_mem_nil, or_false,
    List.mem_map] at hpath
  rcases hpath with ((rfl | rfl | rfl) | ⟨ext, hext, rfl⟩) | ⟨file, hfile, rfl⟩
  · exact confined_of_below hstage
  · exact confined_of_below (hstage.append_guarded guarded_file)
  · exact confined_of_below (hstage.append_guarded (hlogical.extended (by decide) (by decide)))
  · obtain ⟨hslash, hne⟩ := hexts ext (by simpa using hext)
    exact confined_of_below ((hstage.append_named hobjs).append_guarded
      (hlogical.extended hslash hne))
  · rw [inRoot_of_relative (hinputs file hfile).relative]
    exact confined_of_below ((below_stageRoot hkey).append_guarded (hinputs file hfile)).mkCanonical

/-- The staged paths of extra outputs, when none is absolute. -/
theorem mapM_stagedExtraOutputPath {stage : Text} {declarations staged : List Text} :
    declarations.mapM (stagedExtraOutputPath stage) = some staged ↔
      (∀ declaration ∈ declarations, isAbsolute declaration = false) ∧
        staged = declarations.map fun declaration ↦ mkCanonical (append stage declaration) := by
  induction declarations generalizing staged with
  | nil =>
    rw [List.mapM_nil, List.map_nil]
    exact ⟨fun h ↦ ⟨fun _ hmem ↦ absurd hmem List.not_mem_nil, (Option.some.inj h).symm⟩,
      fun h ↦ congrArg some h.2.symm⟩
  | cons declaration declarations ih =>
    rw [List.mapM_cons, List.forall_mem_cons, List.map_cons]
    by_cases habs : isAbsolute declaration = true
    · have hnone : stagedExtraOutputPath stage declaration = none := by
        rw [stagedExtraOutputPath, Library.Path.concat, if_pos habs]
        rfl
      rw [hnone]
      constructor
      · exact fun h ↦ absurd h nofun
      · exact fun h ↦ absurd h.1.1 (by simp [habs])
    · have hsome : stagedExtraOutputPath stage declaration =
          some (mkCanonical (append stage declaration)) := by
        rw [stagedExtraOutputPath, Library.Path.concat, if_neg habs]
        rfl
      rw [hsome]
      constructor
      · intro h
        obtain ⟨_, hfirst, h⟩ := Option.bind_eq_some_iff.mp h
        obtain rfl := Option.some.inj hfirst
        obtain ⟨rest, hrest, h⟩ := Option.bind_eq_some_iff.mp h
        obtain ⟨hrelative, rfl⟩ := ih.mp hrest
        exact ⟨⟨by simpa using habs, hrelative⟩, (Option.some.inj h).symm⟩
      · rintro ⟨⟨-, hrelative⟩, rfl⟩
        exact Option.bind_eq_some_iff.mpr ⟨_, rfl,
          Option.bind_eq_some_iff.mpr ⟨_, ih.mpr ⟨hrelative, rfl⟩, rfl⟩⟩

theorem theoryPaths_of_stages (h : Stages spec) : theoryPaths cache spec =
    stagePaths cache spec (actionStage cache spec) ++
      (spec.extraOutputs.map fun declaration ↦
        mkCanonical (append (actionStage cache spec) declaration)) ++
      spec.loads.filterMap (preloadPath cache (actionStage cache spec)) ++
      outputPaths cache spec := by
  obtain ⟨⟨stem, hstem⟩, hrelative⟩ := h
  rw [theoryPaths, dropSuffix_eq_some_iff.mpr hstem.symm,
    mapM_stagedExtraOutputPath.mpr ⟨hrelative, rfl⟩]

theorem theoryPaths_of_not_stages (h : ¬Stages spec) : theoryPaths cache spec = [] := by
  rw [theoryPaths]
  split
  · next hstem hstaged =>
    rw [dropSuffix_eq_some_iff] at hstem
    exact absurd ⟨⟨_, hstem.symm⟩, (mapM_stagedExtraOutputPath.mp hstaged).1⟩ h
  · rfl

/-- A file that is installed is confined unless its path climbs; its copy always is. -/
theorem confined_output_iff (h : Guarded path) (hne : path ≠ []) :
    (∀ file ∈ remapped (inRoot cache.root path), Confined cache file) ↔ ¬Climbing path := by
  rw [← confined_inRoot_of_guarded h]
  constructor
  · exact fun hall ↦ hall _ List.mem_cons_self
  · intro hconfined file hfile
    simp only [remapped, List.mem_cons, List.not_mem_nil, or_false] at hfile
    rcases hfile with rfl | rfl
    · exact hconfined
    · exact confined_of_below (below_hfsRemappedPath (below_dir_inRoot h hne))

/-- A preload's load is confined when what it names by a path leads under the roots. -/
theorem confined_preloadPath_iff {load : TheoryLoad} {stage : Text} :
    (∀ path, preloadPath cache stage load = some path → Confined cache path) ↔
      LoadContained cache (resolve cache.cwd stage) load := by
  have hnamed : ∀ name : Text, (∀ path, (if '/' ∈ name then some (inRoot stage name) else none) =
      some path → Confined cache path) ↔
        ('/' ∈ name → Leads cache (resolve cache.cwd stage) name) := by
    intro name
    rw [← confined_inRoot_iff]
    by_cases hslash : '/' ∈ name
    · simp [hslash]
    · simp [hslash]
  cases load with
  | theory name => exact hnamed name
  | library name => exact hnamed name
  | object stem =>
    rw [LoadContained, ← resolve_root, ← confined_inRoot_iff]
    simp [preloadPath]

/-- What a run of the theory takes is confined exactly when its outputs and loads stay under the
roots. -/
theorem confined_theoryPaths_iff (hstages : Stages spec) (hkey : sha256Text spec.inputKey = true)
    (hsource : Guarded spec.source.path) (hlogical : Guarded spec.logical)
    (hinputs : ∀ file ∈ spec.inputs, Guarded file.path)
    (hdata : Guarded spec.outputs.dataPath ∧ spec.outputs.dataPath ≠ [])
    (hsig : Guarded spec.outputs.sigPath ∧ spec.outputs.sigPath ≠ [])
    (hsml : Guarded spec.outputs.smlPath ∧ spec.outputs.smlPath ≠ []) :
    (∀ path ∈ theoryPaths cache spec, Confined cache path) ↔ OutputsContained cache spec := by
  have hstage := @resolve_actionStage cache spec hkey hsource
  have hextra : ∀ declaration ∈ spec.extraOutputs,
      (Confined cache (mkCanonical (append (actionStage cache spec) declaration)) ↔
        Leads cache (stagePlace cache spec) declaration) := by
    intro declaration hmem
    have hrel := hstages.2 declaration hmem
    rw [Confined, resolve_mkCanonical, resolve_append hrel, hstage, Leads, if_neg (by simp [hrel])]
  have hclimbing : ¬Climbing spec.outputs.dataPath := by
    rintro ⟨-, hfile⟩
    obtain ⟨stem, hstem⟩ := hstages.1
    rw [← hstem, file_extended (by decide) (by decide)] at hfile
    have hlength := congrArg List.length hfile
    rw [List.length_append] at hlength
    exact absurd hlength (by simp [parentArc])
  rw [theoryPaths_of_stages hstages]
  constructor
  · intro h
    have houtput : ∀ path ∈ [spec.outputs.dataPath, spec.outputs.sigPath, spec.outputs.smlPath],
        ∀ file ∈ remapped (inRoot cache.root path), Confined cache file := fun path hpath file hfile ↦
      h file (List.mem_append_right _ (List.mem_flatMap.mpr ⟨path, hpath, hfile⟩))
    refine ⟨?_, ?_, fun declaration hmem ↦ ?_, fun load hload ↦ ?_⟩
    · exact (confined_output_iff hsig.1 hsig.2).mp (houtput _ (by simp))
    · exact (confined_output_iff hsml.1 hsml.2).mp (houtput _ (by simp))
    · refine (hextra declaration hmem).mp (h _ ?_)
      exact List.mem_append_left _ (List.mem_append_left _ (List.mem_append_right _
        (List.mem_map_of_mem hmem)))
    · rw [← hstage]
      refine confined_preloadPath_iff.mp fun path hpath ↦ h path ?_
      exact List.mem_append_left _ (List.mem_append_right _
        (List.mem_filterMap.mpr ⟨load, hload, hpath⟩))
  · rintro ⟨hsigPath, hsmlPath, hextraOutputs, hloads⟩ path hpath
    simp only [List.mem_append] at hpath
    rcases hpath with ((hpath | hpath) | hpath) | hpath
    · exact confined_stagePaths hkey hsource hlogical hinputs path hpath
    · obtain ⟨declaration, hmem, rfl⟩ := List.mem_map.mp hpath
      exact (hextra declaration hmem).mpr (hextraOutputs declaration hmem)
    · obtain ⟨load, hload, hpath⟩ := List.mem_filterMap.mp hpath
      have hcontained := hloads load hload
      rw [← hstage] at hcontained
      exact confined_preloadPath_iff.mpr hcontained path hpath
    · obtain ⟨output, houtput, hpath⟩ := List.mem_flatMap.mp hpath
      simp only [List.mem_cons, List.not_mem_nil, or_false] at houtput
      rcases houtput with rfl | rfl | rfl
      · exact (confined_output_iff hdata.1 hdata.2).mpr hclimbing path hpath
      · exact (confined_output_iff hsig.1 hsig.2).mpr hsigPath path hpath
      · exact (confined_output_iff hsml.1 hsml.2).mpr hsmlPath path hpath

/-- The paths of an accepted theory's spec are confined exactly when its fields stay under the roots. -/
theorem confined_actionPaths_iff {worker : Worker} {text : Text}
    (hparse : parseActionSpec worker text = .ok spec)
    (hverify : verifyActionSpec worker spec = .ok ()) :
    (∀ path ∈ actionPaths cache spec, Confined cache path) ↔ ActionContained cache spec := by
  obtain ⟨hkey, hdepsKey, hdepKeys, hsuffixes, hpaths⟩ := verifiedAction hverify
  obtain ⟨hsourceNe, hstems, hsigNe, hsmlNe, hdataNe⟩ := filled_of_parseActionSpec hparse
  simp only [actionSpecPaths, List.mem_append, List.mem_cons, List.mem_map, List.not_mem_nil,
    or_false] at hpaths
  have hpackage : Guarded spec.package := hpaths _ (by simp)
  have hlogical : Guarded spec.logical := hpaths _ (by simp)
  have hsource : Guarded spec.source.path := hpaths _ (by simp)
  have hinputs : ∀ file ∈ spec.inputs, Guarded file.path := fun file hfile ↦
    hpaths _ (.inl (.inl (.inl (.inl (.inr (.inr ⟨file, .inl hfile, rfl⟩))))))
  have hlibraries : ∀ file ∈ spec.libraries, Guarded file.path := fun file hfile ↦
    hpaths _ (.inl (.inl (.inl (.inl (.inr (.inr ⟨file, .inr hfile, rfl⟩))))))
  have hdeps : ∀ dep ∈ spec.deps, Guarded dep.stem := fun dep hdep ↦
    hpaths _ (.inl (.inl (.inl (.inr ⟨dep, hdep, rfl⟩))))
  have hlibs : ∀ lib ∈ spec.libs, Guarded lib.stem := fun lib hlib ↦
    hpaths _ (.inl (.inl (.inr ⟨lib, hlib, rfl⟩)))
  have hloads : ∀ load ∈ loadPaths spec.libs, Guarded load := fun load hload ↦
    hpaths _ (.inl (.inr hload))
  have hsig : Guarded spec.outputs.sigPath := hpaths _ (by simp)
  have hsml : Guarded spec.outputs.smlPath := hpaths _ (by simp)
  have hdata : Guarded spec.outputs.dataPath := hpaths _ (by simp)
  have hfetched : ∀ path ∈ (spec.source :: spec.inputs).map (fun file ↦
      inRoot cache.root (actionSourcePath spec.package file.path)), Confined cache path := by
    intro path hpath
    obtain ⟨file, hfile, rfl⟩ := List.mem_map.mp hpath
    have hguarded : Guarded file.path := by
      rcases List.mem_cons.mp hfile with rfl | hfile
      · exact hsource
      · exact hinputs file hfile
    exact confined_of_below (below_joined (by decide) (by decide) hpackage hguarded)
  have htheory : (∀ path ∈ theoryPaths cache spec, Confined cache path) ↔
      (Stages spec → OutputsContained cache spec) := by
    by_cases hstages : Stages spec
    · rw [confined_theoryPaths_iff hstages hkey hsource hlogical hinputs ⟨hdata, hdataNe⟩
        ⟨hsig, hsigNe⟩ ⟨hsml, hsmlNe⟩]
      exact ⟨fun h _ ↦ h, fun h ↦ h hstages⟩
    · rw [theoryPaths_of_not_stages hstages]
      exact ⟨fun _ h ↦ absurd h hstages, fun _ _ hpath ↦ absurd hpath List.not_mem_nil⟩
  have hhydrated := @confined_hydratedPaths_iff cache _ _ _ hlibraries
    (fun dep hdep ↦ ⟨hdeps dep hdep, hstems dep hdep⟩) hdepKeys hlibs hsuffixes hloads
  rw [actionPaths]
  simp only [List.forall_mem_append]
  rw [hhydrated, confined_ownEntryPaths_iff hkey hdata,
    confined_checkpointPaths_iff hpackage hsource hsourceNe hdepsKey, htheory]
  constructor
  · rintro ⟨⟨⟨⟨⟨-, hdependencies⟩, hdat⟩, hcheckpoints⟩, -⟩, houtputs⟩
    exact ⟨hdependencies, hdat, hcheckpoints, houtputs⟩
  · rintro ⟨hdependencies, hdat, hcheckpoints, houtputs⟩
    exact ⟨⟨⟨⟨⟨hfetched, hdependencies⟩, hdat⟩, hcheckpoints⟩, confined_logPaths hpackage hlogical⟩,
      houtputs⟩

end Theory

/-! ### A spec whose extra output leaves the action root -/

/-- The SHA-256 of the action text below. -/
def strayKey : Text := "ccb6eaca9d8b15d5c217b4b6fbcb86bf93827203f6b2b059f1d69df059eee0fc".toList

def strayWorker : Worker where
  version := "0.13.31".toList
  runtime := "d92c6a81b2ff50096bcda80885427d1f59a25b5f483f7055523504925d16ab23".toList
  hashText _ := strayKey
  sha256Text_hashText _ := by decide +kernel
  quote text := text
  parsesTimeout text := text = "none".toList

def strayActionText : Text := terminated [
  "holbuild-theory-action-v1".toList,
  "toolchain=0db3de82a739e43a2b560d166d037c3c0061601bb194866eb79b2c87045d00f2".toList,
  "package=p".toList,
  "logical=tTheory".toList,
  "source=tScript.sml".toList,
  "source-sha256=8abbd9a28a31f560dc2965b627632240948d44de39cb89e7d0a9b2de8b0e34cf".toList,
  "cache=true".toList,
  "always_reexecute=false".toList,
  "source_extra_output=../../../../x/out.txt".toList]

/-- The lines of a theory's spec that declares an extra output four directories up from its stage. -/
def straySpecLines : List Text := [
  "holbuild-version=0.13.31".toList,
  "holbuild-runtime=d92c6a81b2ff50096bcda80885427d1f59a25b5f483f7055523504925d16ab23".toList,
  "toolchain git=g rev=r kernel=stdknl".toList,
  "input-key=ccb6eaca9d8b15d5c217b4b6fbcb86bf93827203f6b2b059f1d69df059eee0fc".toList,
  "action-text-sha256=ccb6eaca9d8b15d5c217b4b6fbcb86bf93827203f6b2b059f1d69df059eee0fc".toList,
  "deps-key=f93464a48a2b9281080b555fac1081b1852154552800cbc6a2440ad1e3629033".toList,
  "target p:tTheory".toList,
  "source p tScript.sml 8abbd9a28a31f560dc2965b627632240948d44de39cb89e7d0a9b2de8b0e34cf 24".toList,
  "output sig .holbuild/obj/tTheory.sig".toList,
  "output sml .holbuild/obj/tTheory.sml".toList,
  "output dat .holbuild/obj/tTheory.dat".toList,
  "output extra ../../../../x/out.txt".toList,
  "option proof-steps=false".toList,
  "option tactic-timeout=none".toList,
  "option new-ir=false".toList]

def straySpecText : Text :=
  terminated (actionSpecHeader :: straySpecLines ++ ["action-text".toList]) ++ strayActionText

def strayCache : Cache where
  cwd := []
  dir := "/var/cache/holbuild".toList
  entryExtras _ := []

/-- What the spec above is read as. -/
def straySpec : ActionSpec where
  version := strayWorker.version
  runtime := strayWorker.runtime
  toolchain := ⟨"g".toList, "r".toList, "stdknl".toList⟩
  inputKey := strayKey
  actionTextSha256 := strayKey
  depsKey := "f93464a48a2b9281080b555fac1081b1852154552800cbc6a2440ad1e3629033".toList
  package := "p".toList
  logical := "tTheory".toList
  source := ⟨"tScript.sml".toList,
    "8abbd9a28a31f560dc2965b627632240948d44de39cb89e7d0a9b2de8b0e34cf".toList, "24".toList⟩
  inputs := []
  libraries := []
  deps := []
  libs := []
  loads := []
  outputs := ⟨".holbuild/obj/tTheory.sig".toList, ".holbuild/obj/tTheory.sml".toList,
    ".holbuild/obj/tTheory.dat".toList⟩
  extraOutputs := ["../../../../x/out.txt".toList]
  proofSteps := false
  tacticTimeout := "none".toList
  newIr := false
  theoremCheckpoints := true
  actionText := strayActionText

deriving instance DecidableEq for ActionFields

/-- What the lines of the spec above leave. -/
def strayFields : ActionFields where
  values := [
    ("option new-ir".toList, "false".toList),
    ("option tactic-timeout".toList, "none".toList),
    ("option proof-steps".toList, "false".toList),
    ("deps-key".toList, straySpec.depsKey),
    ("action-text-sha256".toList, strayKey),
    ("input-key".toList, strayKey),
    ("holbuild-runtime".toList, strayWorker.runtime),
    ("holbuild-version".toList, strayWorker.version)]
  toolchain := some straySpec.toolchain
  target := some "p:tTheory".toList
  source := some ("p".toList, straySpec.source)
  inputs := []
  libraries := []
  deps := []
  libs := []
  loads := []
  outputs := [("dat".toList, straySpec.outputs.dataPath), ("sml".toList, straySpec.outputs.smlPath),
    ("sig".toList, straySpec.outputs.sigPath)]
  extraOutputs := straySpec.extraOutputs

/-- The text above has its lines and its action text, and the lines give their fields. -/
theorem lines_stray : splitSpecText "action-text".toList straySpecText =
      .ok (concatWith ['\n'] (actionSpecHeader :: straySpecLines), strayActionText) ∧
    specLines strayWorker actionSpecHeader "an ActionSpec".toList
      (concatWith ['\n'] (actionSpecHeader :: straySpecLines)) = .ok straySpecLines ∧
    straySpecLines.foldlM actionLine .empty = .ok strayFields := by
  refine ⟨?_, ?_, ?_⟩
  · unfold straySpecText straySpecLines strayActionText actionSpecHeader
    repeat rw [String.toList_ofList]
    decide +kernel
  · unfold straySpecLines actionSpecHeader
    repeat rw [String.toList_ofList]
    decide +kernel
  · unfold straySpecLines strayFields straySpec strayKey strayWorker
    repeat rw [String.toList_ofList]
    decide +kernel

theorem values_stray :
    value strayFields.values "option tactic-timeout".toList = .ok straySpec.tacticTimeout ∧
    value strayFields.values "holbuild-version".toList = .ok straySpec.version ∧
    value strayFields.values "holbuild-runtime".toList = .ok straySpec.runtime ∧
    value strayFields.values "input-key".toList = .ok straySpec.inputKey ∧
    value strayFields.values "action-text-sha256".toList = .ok straySpec.actionTextSha256 ∧
    value strayFields.values "deps-key".toList = .ok straySpec.depsKey ∧
    value strayFields.values "option proof-steps".toList = .ok "false".toList ∧
    value strayFields.values "option new-ir".toList = .ok "false".toList := by
  unfold strayFields straySpec strayKey strayWorker
  repeat rw [String.toList_ofList]
  decide +kernel

theorem parseActionSpec_stray : parseActionSpec strayWorker straySpecText = .ok straySpec := by
  obtain ⟨htimeout, hversion, hruntime, hinputKey, htextSha256, hdepsKey, hproofSteps, hnewIr⟩ :=
    values_stray
  obtain ⟨hcut, hlines, hfields⟩ := lines_stray
  rw [parseActionSpec]
  refine bind_eq_ok_iff.mpr ⟨_, hcut, ?_⟩
  refine bind_eq_ok_iff.mpr ⟨_, hlines, ?_⟩
  refine bind_eq_ok_iff.mpr ⟨_, hfields, ?_⟩
  refine bind_eq_ok_iff.mpr ⟨"p:tTheory".toList, rfl, ?_⟩
  refine bind_eq_ok_iff.mpr ⟨("p".toList, "tTheory".toList), by decide +kernel, ?_⟩
  refine bind_eq_ok_iff.mpr ⟨("p".toList, straySpec.source), rfl, ?_⟩
  refine bind_eq_ok_iff.mpr ⟨(), by decide +kernel, ?_⟩
  refine bind_eq_ok_iff.mpr ⟨_, htimeout, ?_⟩
  refine bind_eq_ok_iff.mpr ⟨(), by decide +kernel, ?_⟩
  refine bind_eq_ok_iff.mpr ⟨_, hversion, ?_⟩
  refine bind_eq_ok_iff.mpr ⟨_, hruntime, ?_⟩
  refine bind_eq_ok_iff.mpr ⟨straySpec.toolchain, rfl, ?_⟩
  refine bind_eq_ok_iff.mpr ⟨_, hinputKey, ?_⟩
  refine bind_eq_ok_iff.mpr ⟨_, htextSha256, ?_⟩
  refine bind_eq_ok_iff.mpr ⟨_, hdepsKey, ?_⟩
  refine bind_eq_ok_iff.mpr ⟨straySpec.outputs.sigPath, by decide +kernel, ?_⟩
  refine bind_eq_ok_iff.mpr ⟨straySpec.outputs.smlPath, by decide +kernel, ?_⟩
  refine bind_eq_ok_iff.mpr ⟨straySpec.outputs.dataPath, by decide +kernel, ?_⟩
  refine bind_eq_ok_iff.mpr ⟨_, hproofSteps, ?_⟩
  refine bind_eq_ok_iff.mpr ⟨false, by decide +kernel, ?_⟩
  refine bind_eq_ok_iff.mpr ⟨_, hnewIr, ?_⟩
  refine bind_eq_ok_iff.mpr ⟨false, by decide +kernel, ?_⟩
  refine bind_eq_ok_iff.mpr ⟨true, by decide +kernel, ?_⟩
  rfl

theorem verifyActionSpec_stray : verifyActionSpec strayWorker straySpec = .ok () := by
  unfold straySpec strayActionText strayKey strayWorker
  repeat rw [String.toList_ofList]
  decide +kernel

end Holbuild.ExecAction
