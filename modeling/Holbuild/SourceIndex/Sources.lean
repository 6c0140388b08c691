import Holbuild.BuildPlan.Nodes
import Holbuild.Library.PathParts

/-!
# Sources and their artifacts

Discovery makes a source of a file whose name says that it is a theory script, a structure or a signature, with
the paths of what is built from it. The sources of all packages are deduplicated by path, and a logical name
may be that of one source, or of a structure and a signature of one package.

A path is taken apart by scanning for its last slash and its last dot, which agrees with `splitDirFile` and
`splitBaseExt` on relative paths (`scans_agree`).
-/

set_option autoImplicit false
set_option relaxedAutoImplicit false

namespace Holbuild.SourceIndex

open Library BuildPlan

/-! ### Names of files -/

/-- The scan for a character's last index, from an index on downwards. -/
def lastIndexFrom (c : Char) (text : Text) : ℕ → Option ℕ
  | 0 => none
  | i + 1 => if text[i]? = some c then some i else lastIndexFrom c text i

def lastIndex (c : Char) (text : Text) : Option ℕ := lastIndexFrom c text text.length

def dirname (rel : Text) : Text :=
  match lastIndex '/' rel with
  | none => []
  | some 0 => ['/']
  | some i => rel.take i

def filename (rel : Text) : Text :=
  match lastIndex '/' rel with
  | none => rel
  | some i => rel.drop (i + 1)

/-- A path without its extension: a final dot that neither starts nor ends the file name. -/
def baseOf (rel : Text) : Text :=
  let start := match lastIndex '/' rel with
    | none => 0
    | some i => i + 1
  match lastIndex '.' rel with
  | some i => if start < i ∧ i < rel.length - 1 then rel.take i else rel
  | none => rel

def hasSuffix (suffix text : Text) : Bool := suffix.isSuffixOf text

/-- A text without its end; `none` when it ends otherwise. -/
def dropSuffix (suffix text : Text) : Option Text :=
  if hasSuffix suffix text then some (text.take (text.length - suffix.length)) else none

/-- A path below a root; `none` for an absolute one. -/
def join (root rel : Text) : Option Text :=
  if rel = [] then some root
  else if ['/'].isPrefixOf rel then Library.Path.concat root rel
  else if root = [] then some rel
  else if ['/'].isSuffixOf root then some (root ++ rel)
  else some (root ++ '/' :: rel)

/-- The path below a root of a path, or the path. -/
def relativePath (root path : Text) : Text :=
  let root := Path.mkCanonical root
  let path := Path.mkCanonical path
  let above := if hasSuffix ['/'] root then root else root ++ ['/']
  if above.isPrefixOf path then path.drop above.length else path

/-! ### Artifacts -/

structure Artifacts where
  generated : List Text
  objects : List Text
  theoryData : List Text
deriving DecidableEq

def Artifacts.paths (artifacts : Artifacts) : List Text :=
  artifacts.generated ++ artifacts.objects ++ artifacts.theoryData

def objPath (artifactRoot rel ext : Text) : Option Text := do
  let below ← join "obj".toList (baseOf rel ++ ext)
  join artifactRoot below

def theoryArtifacts (root rel theory : Text) : Option Artifacts := do
  let below ← join "obj".toList (dirname rel)
  let dir ← join root below
  let sig ← join dir (theory ++ ".sig".toList)
  let sml ← join dir (theory ++ ".sml".toList)
  let script ← objPath root rel ".uo".toList
  let ui ← join dir (theory ++ ".ui".toList)
  let uo ← join dir (theory ++ ".uo".toList)
  let dat ← join dir (theory ++ ".dat".toList)
  some ⟨[sig, sml], [script, ui, uo], [dat]⟩

def smlArtifacts (root rel : Text) : Option Artifacts := do
  let ui ← objPath root rel ".ui".toList
  let uo ← objPath root rel ".uo".toList
  some ⟨[], [ui, uo], []⟩

def sigArtifacts (root rel : Text) : Option Artifacts := do
  let ui ← objPath root rel ".ui".toList
  some ⟨[], [ui], []⟩

/-- The artifacts of a source of a kind: those that a restored source gets, and, below no root, the canonical
ones. -/
def artifactsFor (root : Text) (kind : Kind) (logicalName rel : Text) : Option Artifacts :=
  match kind with
  | .theoryScript => theoryArtifacts root rel logicalName
  | .sml => smlArtifacts root rel
  | .sig => sigArtifacts root rel

def canonicalArtifactsFor (kind : Kind) (logicalName rel : Text) : Option Artifacts :=
  artifactsFor [] kind logicalName rel

/-! ### Sources -/

/-- What discovery reads of a package. -/
structure Package where
  name : Text
  root : Text
  artifactRoot : Text
  generatedPaths : List Text

inductive Origin
  | declared | generated
deriving DecidableEq

/-- A source, without its policy and the hashes that identify it. -/
structure Source where
  package : Text
  packageRoot : Text
  kind : Kind
  logicalName : Text
  sourcePath : Text
  relativePath : Text
  origin : Origin
  artifacts : Artifacts
  canonicalArtifacts : Artifacts
deriving DecidableEq

def sourceOrigin (generatedPaths : List Text) (rel : Text) : Origin :=
  if rel ∈ generatedPaths then .generated else .declared

def makeSource (package : Package) (kind : Kind) (logicalName sourcePath rel : Text) (artifacts : Artifacts) :
    Option Source := do
  let canonical ← canonicalArtifactsFor kind logicalName rel
  some ⟨package.name, package.root, kind, logicalName, sourcePath, rel,
    sourceOrigin package.generatedPaths rel, artifacts, canonical⟩

/-- A source as the plan record kept it. -/
def restoreSource (package : Package) (kind : Kind) (logicalName sourcePath rel : Text) : Option Source := do
  let artifacts ← artifactsFor package.artifactRoot kind logicalName rel
  some ⟨package.name, package.root, kind, logicalName, sourcePath, rel,
    sourceOrigin package.generatedPaths rel, artifacts, ⟨[], [], []⟩⟩

def generatedTheoryArtifact (file : Text) : Bool :=
  hasSuffix "Theory.sml".toList file || hasSuffix "Theory.sig".toList file

/-- The source that a file is, if any; `none` where joining paths raises. -/
def classify (package : Package) (absPath : Text) : Option (Option Source) :=
  let rel := relativePath package.root absPath
  let file := filename rel
  if generatedTheoryArtifact file then some none
  else if hasSuffix "Script.sml".toList file then do
    let stem ← dropSuffix "Script.sml".toList file
    let theory := stem ++ "Theory".toList
    let artifacts ← theoryArtifacts package.artifactRoot rel theory
    let source ← makeSource package .theoryScript theory absPath rel artifacts
    some (some source)
  else if hasSuffix ".sml".toList file then do
    let logical ← dropSuffix ".sml".toList file
    let artifacts ← smlArtifacts package.artifactRoot rel
    let source ← makeSource package .sml logical absPath rel artifacts
    some (some source)
  else if hasSuffix ".sig".toList file then do
    let logical ← dropSuffix ".sig".toList file
    let artifacts ← sigArtifacts package.artifactRoot rel
    let source ← makeSource package .sig logical absPath rel artifacts
    some (some source)
  else some none

/-! ### All sources -/

/-- Keeps a source unless one of its package and path was seen. -/
def addSource (source : Source) (state : List Text × List Source) : List Text × List Source :=
  let identity := source.package ++ '\x00' :: Path.mkCanonical source.sourcePath
  if identity ∈ state.1 then state else (identity :: state.1, source :: state.2)

def deduplicateSources (sources : List Source) : List Source := (sources.foldr addSource ([], [])).2

/-- Whether two sources of one name are a structure and a signature of one package. -/
def compatibleSameName (a b : Source) : Bool :=
  a.package = b.package && match a.kind, b.kind with
    | .sml, .sig => true
    | .sig, .sml => true
    | _, _ => false

def duplicateName (source other : Source) : Text :=
  "duplicate logical name ".toList ++ source.logicalName ++ ": ".toList ++ other.package ++ ':' ::
    other.relativePath ++ " and ".toList ++ source.package ++ ':' :: source.relativePath

/-- Notes a source under its name, unless it conflicts with one of the name. -/
def insertSource (seen : Text → List Source) (source : Source) : Except Text (Text → List Source) :=
  match (seen source.logicalName).find? fun other ↦ !compatibleSameName source other with
  | none => .ok (Function.update seen source.logicalName (source :: seen source.logicalName))
  | some other => .error (duplicateName source other)

def byLogical (sources : List Source) : Except Text (List Source) := do
  let _ ← sources.foldlM insertSource fun _ ↦ []
  return sources

/-! ### What the scans find -/

section Scans

variable {c : Char} {front arc stem ext rel before after : Text}

theorem lastIndexFrom_of_notMem (hafter : c ∉ after) : ∀ {k : ℕ}, k ≤ after.length →
    lastIndexFrom c (before ++ after) (before.length + k) = lastIndexFrom c (before ++ after) before.length := by
  intro k
  induction k with
  | zero => exact fun _ ↦ rfl
  | succ k ih =>
    intro hk
    have hne : (before ++ after)[before.length + k]? ≠ some c := by
      rw [List.getElem?_append_right (Nat.le_add_right ..), Nat.add_sub_cancel_left]
      exact fun heq ↦ hafter (List.mem_of_getElem? heq)
    rw [← Nat.add_assoc, lastIndexFrom, if_neg hne, ih (by omega)]

/-- The last index is where what follows has no such character. -/
theorem lastIndex_append (hafter : c ∉ after) : lastIndex c (before ++ c :: after) = some before.length := by
  have hscan := @lastIndexFrom_of_notMem c (before ++ [c]) after hafter _ (le_refl after.length)
  rw [lastIndex, List.append_cons, List.length_append, hscan, List.length_append, List.length_singleton,
    lastIndexFrom, if_pos]
  simp

theorem lastIndex_of_notMem (h : c ∉ rel) : lastIndex c rel = none := by
  have hscan := @lastIndexFrom_of_notMem c [] rel h _ (le_refl rel.length)
  rw [List.nil_append, List.length_nil, Nat.zero_add] at hscan
  exact hscan

theorem lastIndex_front (hfront : Path.Front front) (harc : '/' ∉ arc) :
    lastIndex '/' (front ++ arc) = if front = [] then none else some (front.length - 1) := by
  rcases hfront with rfl | ⟨path, rfl⟩
  · rw [List.nil_append, lastIndex_of_notMem harc, if_pos rfl]
  · rw [if_neg (List.append_ne_nil_of_right_ne_nil _ (List.cons_ne_nil _ _)), List.append_assoc,
      List.singleton_append, lastIndex_append harc]
    simp

/-- The last arc starts after what leads to it. -/
theorem start_front (hfront : Path.Front front) (harc : '/' ∉ arc) :
    (match lastIndex '/' (front ++ arc) with
      | none => 0
      | some i => i + 1) = front.length := by
  rw [lastIndex_front hfront harc]
  rcases front with _ | ⟨c, rest⟩
  · rfl
  · rfl

theorem filename_front (hfront : Path.Front front) (harc : '/' ∉ arc) : filename (front ++ arc) = arc := by
  rw [filename, lastIndex_front hfront harc]
  split_ifs with hnil
  · rw [hnil, List.nil_append]
  · have hlength : 0 < front.length := List.length_pos_of_ne_nil hnil
    show (front ++ arc).drop (front.length - 1 + 1) = arc
    rw [Nat.sub_add_cancel hlength, List.drop_left]

theorem dirname_front (hfront : Path.Front front) (harc : '/' ∉ arc) :
    dirname (front ++ arc) = if front = ['/'] then ['/'] else front.dropLast := by
  rw [dirname, lastIndex_front hfront harc]
  rcases hfront with rfl | ⟨path, rfl⟩
  · rfl
  · rw [if_neg (List.append_ne_nil_of_right_ne_nil _ (List.cons_ne_nil _ _)), List.dropLast_concat,
      List.length_append, List.length_singleton, Nat.add_sub_cancel]
    cases path with
    | nil => rfl
    | cons c rest => simp

/-- The base ends before the last dot of the last arc. -/
theorem baseOf_dot (hfront : Path.Front front) (harc : '/' ∉ stem ++ '.' :: ext) (hext : '.' ∉ ext) :
    baseOf (front ++ (stem ++ '.' :: ext)) =
      if ext = [] ∨ stem = [] then front ++ (stem ++ '.' :: ext) else front ++ stem := by
  have hdot : lastIndex '.' (front ++ (stem ++ '.' :: ext)) = some (front ++ stem).length := by
    rw [← List.append_assoc]
    exact lastIndex_append hext
  have htake : (front ++ (stem ++ '.' :: ext)).take (front ++ stem).length = front ++ stem := by
    rw [← List.append_assoc, List.take_left]
  rw [baseOf, start_front hfront harc, hdot]
  show (if front.length < (front ++ stem).length ∧ (front ++ stem).length <
    (front ++ (stem ++ '.' :: ext)).length - 1 then _ else _) = _
  rw [htake]
  by_cases hbase : ext = [] ∨ stem = []
  · rw [if_pos hbase, if_neg]
    rcases hbase with rfl | rfl <;> simp
  · rw [if_neg hbase, if_pos]
    obtain ⟨hext, hstem⟩ := not_or.mp hbase
    have := List.length_pos_of_ne_nil hext
    have := List.length_pos_of_ne_nil hstem
    simp only [List.length_append, List.length_cons]
    omega

/-- Without a dot in the last arc there is no extension. -/
theorem baseOf_noDot (hfront : Path.Front front) (harc : '/' ∉ arc) (hdot : '.' ∉ arc) :
    baseOf (front ++ arc) = front ++ arc := by
  rw [baseOf, start_front hfront harc]
  by_cases hmem : '.' ∈ front
  · -- a dot before the last arc
    obtain ⟨after, before, hreverse, hafter⟩ := List.eq_append_cons_of_mem (List.mem_reverse.mpr hmem)
    have hcut : front = before.reverse ++ '.' :: after.reverse := by
      simpa using congrArg List.reverse hreverse
    have hlast : lastIndex '.' (front ++ arc) = some before.reverse.length := by
      rw [hcut, List.append_assoc, List.cons_append]
      refine lastIndex_append fun hin ↦ ?_
      rcases List.mem_append.mp hin with hin | hin
      · exact hafter (List.mem_reverse.mp hin)
      · exact hdot hin
    have hlength : before.reverse.length < front.length := by
      rw [hcut, List.length_append, List.length_cons]
      omega
    rw [hlast]
    exact if_neg fun hlt ↦ by omega
  · rw [lastIndex_of_notMem]
    rw [List.mem_append, not_or]
    exact ⟨hmem, hdot⟩

/-- On relative paths the scans find what `splitDirFile` and `splitBaseExt` say. -/
theorem scans_agree (hrelative : rel.head? ≠ some '/') :
    Path.splitDirFile rel = (dirname rel, filename rel) ∧ (Path.splitBaseExt rel).1 = baseOf rel := by
  obtain ⟨front, arc, rfl, hfront, harc⟩ := Path.exists_front rel
  have hfile := Path.file_front hfront harc hrelative
  have hslash : front ≠ ['/'] := by
    rintro rfl
    exact hrelative rfl
  constructor
  · rw [Path.splitDirFile, Path.dir_front hfront harc hrelative, hfile, dirname_front hfront harc,
      if_neg hslash, filename_front hfront harc]
  · by_cases hdot : '.' ∈ arc
    · obtain ⟨ext, stem, hreverse, hext⟩ := List.eq_append_cons_of_mem (List.mem_reverse.mpr hdot)
      obtain rfl : arc = stem.reverse ++ '.' :: ext.reverse := by simpa using congrArg List.reverse hreverse
      have hext' : '.' ∉ ext.reverse := fun hin ↦ hext (List.mem_reverse.mp hin)
      rw [Path.splitBaseExt_dot hfile hext', baseOf_dot hfront harc hext']
      split_ifs
      · rfl
      · have hsum : (front ++ (stem.reverse ++ '.' :: ext.reverse)).length - (ext.reverse.length + 1) =
            (front ++ stem.reverse).length := by
          simp only [List.length_append, List.length_cons]
          omega
        rw [hsum, ← List.append_assoc, List.take_left]
    · rw [Path.splitBaseExt_noDot (by rwa [hfile]), baseOf_noDot hfront harc hdot]

end Scans

end Holbuild.SourceIndex
