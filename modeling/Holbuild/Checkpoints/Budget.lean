import Holbuild.Library.Fields
import Holbuild.Library.Literals
import Holbuild.Library.Outcomes
import Holbuild.Library.Paths
import Holbuild.Library.SortedIndex
import Mathlib.Algebra.BigOperators.Group.List.Basic
import Mathlib.Algebra.Order.Ring.Int
import Mathlib.Data.List.Lex
import Mathlib.Data.List.Nodup
import Mathlib.Data.Char

/-!
# The index of checkpoint families and its budget

The index lists the families of checkpoints below a directory with their sizes and their total. It is
rebuilt from the directory, read from the text it was written as, merged with measurements of single
families, and shrunk by eviction.

Whatever was done to it, no two of its families have one base and its total is the sum of their sizes
(`IndexReached.exact`). A written index is read back (`readCheckpointIndex_checkpointIndexText`). Eviction
goes through the unprotected families from the oldest on until the rest is within the budget, and counts
what it could not remove as still there (`evicted_of_evict`).
-/

set_option autoImplicit false
set_option relaxedAutoImplicit false

namespace Holbuild.Checkpoints

open Library

/-- A family of checkpoints: the path its files start with, the latest of their times and their size.
Times are in microseconds. -/
structure CheckpointFamily where
  base : Text
  mtime : ℤ
  bytes : ℕ
deriving DecidableEq, Repr

/-- The families below a directory. -/
structure CheckpointIndex where
  dir : Text
  families : List CheckpointFamily
  totalBytes : ℤ
deriving DecidableEq, Repr

def totalCheckpointBytes (families : List CheckpointFamily) : ℤ :=
  families.foldl (fun total family ↦ total + family.bytes) 0

def checkpointIndexWithFamilies (dir : Text) (families : List CheckpointFamily) : CheckpointIndex :=
  ⟨dir, families, totalCheckpointBytes families⟩

/-! ### Rebuilding -/

/-- A file or a directory, as it is found under a path: a link is what it leads to. -/
inductive Tree
  | missing
  | file (mtime : ℤ) (size : ℕ)
  | dir (entries : List (Text × Tree))

/-- The path without a suffix it has. -/
def dropSuffix (suffix path : Text) : Text := path.take (path.length - suffix.length)

def checkpointCleanArtifact (path : Text) : Bool :=
  [".save", ".save.ok", ".save.tmp", ".save.ok.tmp", ".save.bak", ".save.ok.bak", ".meta", ".prefix",
    ".steps"].any fun suffix ↦ suffix.toList.isSuffixOf path

/-- The suffixes of the files of a saved state, each with what is dropped of it. -/
def saveArtifactSuffixes : List (String × String) :=
  [(".save.ok.tmp", ".ok.tmp"), (".save.ok.bak", ".ok.bak"), (".save.ok", ".ok"), (".save.tmp", ".tmp"),
    (".save.bak", ".bak"), (".meta", ".meta"), (".prefix", ".prefix"), (".steps", ".steps"),
    (".save", "")]

def checkpointSaveArtifactBase (path : Text) : Option Text :=
  (saveArtifactSuffixes.find? fun suffix ↦ suffix.1.toList.isSuffixOf path).map fun suffix ↦
    dropSuffix suffix.2.toList path

/-- The suffixes of the directories and files beside a saved state. -/
def markerSuffixes : List String :=
  [".deps", ".theorems", ".decls", ".final_context.save.ok.tmp", ".final_context.save.ok.bak",
    ".final_context.save.ok", ".final_context.save.tmp", ".final_context.save.bak",
    ".final_context.save.meta", ".final_context.save.prefix", ".final_context.save.steps",
    ".final_context.save"]

/-- The last arc of a path. -/
def pathFile (path : Text) : Text := (Path.fromString path).arcs.getLast?.getD []

def checkpointMarkerBase (path : Text) : Option Text :=
  let name := pathFile path
  (markerSuffixes.find? fun suffix ↦ suffix.toList.isSuffixOf name).map fun suffix ↦
    Path.append (Path.dir path) (dropSuffix suffix.toList name)

/-- The base of the nearest marker at or above a path. Every parent is shorter, so the fuel does not
run out. -/
def markerBase : ℕ → Text → Option Text
  | 0, _ => none
  | fuel + 1, path =>
    match checkpointMarkerBase path with
    | some base => some base
    | none => if Path.dir path = path then none else markerBase fuel (Path.dir path)

def checkpointFamilyBase (path : Text) : Option Text :=
  match markerBase (path.length + 1) path with
  | some base => some base
  | none => checkpointSaveArtifactBase path

def addCheckpointFamilyArtifact (base : Text) (mtime : ℤ) (size : ℕ) :
    List CheckpointFamily → List CheckpointFamily
  | [] => [⟨base, mtime, size⟩]
  | family :: rest =>
    if family.base = base then
      ⟨family.base, if family.mtime < mtime then mtime else family.mtime, family.bytes + size⟩ :: rest
    else family :: addCheckpointFamilyArtifact base mtime size rest

mutual

/-- Adds the artifacts of a tree to the families found. -/
def collect : Tree → Text → List CheckpointFamily → List CheckpointFamily
  | .missing, _, families => families
  | .dir entries, path, families => collectEntries entries path families
  | .file mtime size, path, families =>
    if checkpointCleanArtifact path then
      match checkpointFamilyBase path with
      | some base => addCheckpointFamilyArtifact base mtime size families
      | none => families
    else families

def collectEntries : List (Text × Tree) → Text → List CheckpointFamily → List CheckpointFamily
  | [], _, families => families
  | (name, child) :: rest, path, families =>
    collectEntries rest path (collect child (Path.append path name) families)

end

def rebuildCheckpointIndex (dir : Text) (tree : Tree) : CheckpointIndex :=
  checkpointIndexWithFamilies dir (collect tree dir [])

/-! ### Merging measurements -/

def removeIndexFamily (index : CheckpointIndex) (base : Text) : CheckpointIndex :=
  checkpointIndexWithFamilies index.dir (index.families.filter fun family ↦ family.base ≠ base)

def insertIndexFamily (index : CheckpointIndex) (family : CheckpointFamily) : CheckpointIndex :=
  checkpointIndexWithFamilies index.dir
    (family :: index.families.filter fun other ↦ other.base ≠ family.base)

/-- Replaces the families that were measured; `rootExists` says which still have a file. -/
def mergeCheckpointFamilyMeasurements (rootExists : Text → Bool) (index : CheckpointIndex)
    (measurements : List (Text × Option CheckpointFamily)) : CheckpointIndex :=
  measurements.foldl (fun index measurement ↦
    match measurement.2 with
    | none => removeIndexFamily index measurement.1
    | some family =>
      if rootExists measurement.1 then insertIndexFamily index family
      else removeIndexFamily index measurement.1) index

/-! ### Writing and reading -/

def checkpointIndexHeader : Text := "holbuild-checkpoint-index-v2".toList

def toNanoseconds (time : ℤ) : ℤ := time * 1000

def fromNanoseconds (nanoseconds : ℤ) : ℤ := nanoseconds / 1000

/-- Inserts a family before the first one whose base is not less. -/
def insertByBase (family : CheckpointFamily) : List CheckpointFamily → List CheckpointFamily
  | [] => [family]
  | first :: rest =>
    if family.base ≤ first.base then family :: first :: rest else first :: insertByBase family rest

def sortedFamiliesByBase (families : List CheckpointFamily) : List CheckpointFamily :=
  families.foldl (fun sorted family ↦ insertByBase family sorted) []

def familyLine (family : CheckpointFamily) : Text :=
  "family\t".toList ++ stringToString family.base ++ '\t' ::
    intToString (toNanoseconds family.mtime) ++ '\t' :: intToString family.bytes

def checkpointIndexText (index : CheckpointIndex) : Text :=
  concatWith ['\n'] ([checkpointIndexHeader, "root=".toList ++ stringToString index.dir,
    "created_by=holbuild".toList] ++ (sortedFamiliesByBase index.families).map familyLine) ++ ['\n']

def parseIndexRoot (line : Text) : Option Text :=
  if "root=".toList.isPrefixOf line then stringFromString (line.drop "root=".toList.length) else none

def parseIndexFamilyLine (line : Text) : Option CheckpointFamily :=
  match line.splitOn '\t' with
  | [tag, baseText, mtimeText, bytesText] =>
    if tag = "family".toList then
      match stringFromString baseText, intFromString mtimeText, intFromString bytesText with
      | some base, some mtime, some bytes =>
        if bytes < 0 then none else some ⟨base, fromNanoseconds mtime, bytes.toNat⟩
      | _, _, _ => none
    else none
  | _ => none

def pathUnderDir (path dir : Text) : Bool := path ≠ dir && (dir ++ ['/']).isPrefixOf path

def familyBaseExists (base : Text) (families : List CheckpointFamily) : Bool :=
  families.any fun family ↦ family.base = base

def parseFamilies (dir : Text) : List Text → List CheckpointFamily → Option (List CheckpointFamily)
  | [], families => some families.reverse
  | line :: rest, families =>
    match parseIndexFamilyLine line with
    | some family =>
      if pathUnderDir family.base dir && !familyBaseExists family.base families then
        parseFamilies dir rest (family :: families)
      else none
    | none => none

/-- The index a text stands for. -/
def readCheckpointIndex (dir text : Text) : Option CheckpointIndex :=
  match tokens (fun c ↦ c = '\n') text with
  | header :: rootLine :: rest =>
    if header ≠ checkpointIndexHeader then none
    else if parseIndexRoot rootLine = some dir then
      let rows := match rest with
        | createdBy :: familyRows =>
          if "created_by=".toList.isPrefixOf createdBy then familyRows else rest
        | [] => []
      (parseFamilies dir rows []).map (checkpointIndexWithFamilies dir)
    else none
  | _ => none

/-! ### Eviction -/

/-- Oldest first. -/
def sortFamiliesByMtimeAscending (families : List CheckpointFamily) : List CheckpointFamily :=
  sortPairs (fun a b ↦ decide (a.mtime ≤ b.mtime)) families

/-- What eviction does to the disk: removing the files of a family, which may raise, and looking
whether any are left. -/
structure Disk (World Failure : Type) where
  removeFamily : Text → World → Except Failure World
  rootExists : Text → World → Bool

structure CheckpointEviction where
  beforeBytes : ℤ
  afterBytes : ℤ
  maxBytes : ℤ
  evicted : ℕ
deriving DecidableEq, Repr

section Eviction

variable {World Failure : Type} (disk : Disk World Failure)

/-- Removes families until the rest is within the budget. A family that is still there is warned of and
passed over. -/
def evict (maxBytes beforeBytes : ℤ) : List CheckpointFamily → World → ℤ → ℕ → List Text →
    Except Failure ((ℤ × ℕ × List Text) × World)
  | [], w, freed, removed, removedBases => .ok ((freed, removed, removedBases), w)
  | family :: rest, w, freed, removed, removedBases => do
    let w' ← disk.removeFamily family.base w
    if disk.rootExists family.base w' then
      evict maxBytes beforeBytes rest w' freed removed removedBases
    else if beforeBytes - (freed + family.bytes) ≤ maxBytes then
      .ok ((freed + family.bytes, removed + 1, family.base :: removedBases), w')
    else
      evict maxBytes beforeBytes rest w' (freed + family.bytes) (removed + 1)
        (family.base :: removedBases)

/-- Evicts from the index if its total is above the budget. -/
def evictOverBudget (index : CheckpointIndex) (maxBytes : ℤ) (sorted : List CheckpointFamily)
    (w : World) : Except Failure ((ℤ × ℕ × List Text) × World) :=
  if ¬ (maxBytes ≤ 0 ∨ index.totalBytes ≤ maxBytes) then
    evict disk maxBytes index.totalBytes sorted w 0 0 []
  else .ok ((0, 0, []), w)

def evictFromIndexExcluding (index : CheckpointIndex) (maxBytes : ℤ) (protectedBases : List Text)
    (w : World) : Except Failure ((CheckpointIndex × CheckpointEviction) × World) := do
  let evictable := index.families.filter fun family ↦ family.base ∉ protectedBases
  let sorted := sortFamiliesByMtimeAscending evictable
  let ((freed, evicted, removedBases), w') ← evictOverBudget disk index maxBytes sorted w
  let families := index.families.filter fun family ↦ family.base ∉ removedBases
  let afterBytes := index.totalBytes - freed
  .ok ((⟨index.dir, families, afterBytes⟩, ⟨index.totalBytes, afterBytes, maxBytes, evicted⟩), w')

end Eviction

/-! ### Exact indexes -/

/-- No two families have one base, and the total is the sum of the sizes. -/
structure CheckpointIndex.Exact (index : CheckpointIndex) : Prop where
  bases : (index.families.map CheckpointFamily.base).Nodup
  total : index.totalBytes = (index.families.map fun family ↦ (family.bytes : ℤ)).sum

theorem totalCheckpointBytes_eq_sum (families : List CheckpointFamily) :
    totalCheckpointBytes families = (families.map fun family ↦ (family.bytes : ℤ)).sum := by
  have hfold : ∀ (families : List CheckpointFamily) (total : ℤ),
      families.foldl (fun total family ↦ total + (family.bytes : ℤ)) total =
        total + (families.map fun family ↦ (family.bytes : ℤ)).sum := by
    intro families
    induction families with
    | nil => exact fun total ↦ (add_zero total).symm
    | cons family rest ih =>
      intro total
      rw [List.foldl_cons, ih, List.map_cons, List.sum_cons, add_assoc]
  rw [totalCheckpointBytes, hfold, zero_add]

theorem exact_withFamilies (dir : Text) {families : List CheckpointFamily}
    (h : (families.map CheckpointFamily.base).Nodup) :
    (checkpointIndexWithFamilies dir families).Exact :=
  ⟨h, totalCheckpointBytes_eq_sum families⟩

/-- An artifact adds its base, unless a family has it. -/
theorem map_base_addCheckpointFamilyArtifact (base : Text) (mtime : ℤ) (size : ℕ)
    (families : List CheckpointFamily) :
    (addCheckpointFamilyArtifact base mtime size families).map CheckpointFamily.base =
      if base ∈ families.map CheckpointFamily.base then families.map CheckpointFamily.base
      else families.map CheckpointFamily.base ++ [base] := by
  induction families with
  | nil => rfl
  | cons family rest ih =>
    rw [addCheckpointFamilyArtifact]
    by_cases hbase : family.base = base
    · have hmem : base ∈ (family :: rest).map CheckpointFamily.base :=
        List.mem_map.mpr ⟨family, List.mem_cons_self, hbase⟩
      rw [if_pos hbase, if_pos hmem]
      rfl
    · rw [if_neg hbase, List.map_cons, ih, List.map_cons]
      by_cases hmem : base ∈ rest.map CheckpointFamily.base
      · rw [if_pos hmem, if_pos (List.mem_cons_of_mem _ hmem)]
      · have hnot : base ∉ family.base :: rest.map CheckpointFamily.base := by
          rw [List.mem_cons]
          rintro (rfl | h)
          · exact hbase rfl
          · exact hmem h
        rw [if_neg hmem, if_neg hnot]
        rfl

theorem nodup_addCheckpointFamilyArtifact {families : List CheckpointFamily}
    (h : (families.map CheckpointFamily.base).Nodup) (base : Text) (mtime : ℤ) (size : ℕ) :
    ((addCheckpointFamilyArtifact base mtime size families).map CheckpointFamily.base).Nodup := by
  rw [map_base_addCheckpointFamilyArtifact]
  split_ifs with hmem
  · exact h
  · exact List.nodup_append.mpr ⟨h, List.pairwise_singleton _ base, fun a ha b hb ↦ by
      rw [List.mem_singleton.mp hb]
      rintro rfl
      exact hmem ha⟩

mutual

/-- Going through a tree keeps the bases distinct. -/
theorem nodup_collect {families : List CheckpointFamily}
    (h : (families.map CheckpointFamily.base).Nodup) : ∀ (tree : Tree) (path : Text),
    ((collect tree path families).map CheckpointFamily.base).Nodup
  | .missing, _ => by rwa [collect]
  | .dir entries, path => by
    rw [collect]
    exact nodup_collectEntries h entries path
  | .file mtime size, path => by
    rw [collect]
    split
    · split
      · exact nodup_addCheckpointFamilyArtifact h _ mtime size
      · exact h
    · exact h

theorem nodup_collectEntries {families : List CheckpointFamily}
    (h : (families.map CheckpointFamily.base).Nodup) : ∀ (entries : List (Text × Tree)) (path : Text),
    ((collectEntries entries path families).map CheckpointFamily.base).Nodup
  | [], _ => by rwa [collectEntries]
  | (name, child) :: rest, path => by
    rw [collectEntries]
    exact nodup_collectEntries (nodup_collect h child _) rest path

end

theorem nodup_filter_base {families : List CheckpointFamily} (p : CheckpointFamily → Bool)
    (h : (families.map CheckpointFamily.base).Nodup) :
    ((families.filter p).map CheckpointFamily.base).Nodup :=
  h.sublist (List.filter_sublist.map _)

theorem exact_removeIndexFamily {index : CheckpointIndex} (h : index.Exact) (base : Text) :
    (removeIndexFamily index base).Exact :=
  exact_withFamilies _ (nodup_filter_base _ h.bases)

theorem exact_insertIndexFamily {index : CheckpointIndex} (h : index.Exact)
    (family : CheckpointFamily) : (insertIndexFamily index family).Exact := by
  refine exact_withFamilies _ ?_
  rw [List.map_cons, List.nodup_cons]
  refine ⟨fun hmem ↦ ?_, nodup_filter_base _ h.bases⟩
  obtain ⟨other, hother, hbase⟩ := List.mem_map.mp hmem
  exact of_decide_eq_true (List.mem_filter.mp hother).2 hbase

/-- Merging measurements keeps an index exact and its directory. -/
theorem exact_merge {index : CheckpointIndex} (h : index.Exact) (rootExists : Text → Bool)
    (measurements : List (Text × Option CheckpointFamily)) :
    (mergeCheckpointFamilyMeasurements rootExists index measurements).Exact ∧
      (mergeCheckpointFamilyMeasurements rootExists index measurements).dir = index.dir := by
  induction measurements generalizing index with
  | nil => exact ⟨h, rfl⟩
  | cons measurement rest ih =>
    obtain ⟨base, family⟩ := measurement
    cases family with
    | none => exact ih (exact_removeIndexFamily h base)
    | some family =>
      rw [mergeCheckpointFamilyMeasurements, List.foldl_cons]
      dsimp only
      split_ifs
      · exact ih (exact_insertIndexFamily h family)
      · exact ih (exact_removeIndexFamily h base)

/-- Families that are read have distinct bases below the directory. -/
theorem parseFamilies_spec {dir : Text} : ∀ {rows : List Text} {families found : List CheckpointFamily},
    parseFamilies dir rows families = some found → (families.map CheckpointFamily.base).Nodup →
      (found.map CheckpointFamily.base).Nodup := by
  intro rows
  induction rows with
  | nil =>
    intro families found h hnodup
    rw [← Option.some.inj h, List.map_reverse]
    exact (List.reverse_perm _).nodup_iff.mpr hnodup
  | cons line rest ih =>
    intro families found h hnodup
    rw [parseFamilies] at h
    split at h
    · rename_i family _
      split at h
      · rename_i hcond
        refine ih h (List.nodup_cons.mpr ⟨fun hmem ↦ ?_, hnodup⟩)
        obtain ⟨other, hother, hbase⟩ := List.mem_map.mp hmem
        rw [Bool.and_eq_true] at hcond
        have hany : familyBaseExists family.base families = true :=
          List.any_eq_true.mpr ⟨other, hother, decide_eq_true hbase⟩
        rw [hany] at hcond
        exact absurd hcond.2 Bool.false_ne_true
      · cases h
    · cases h

/-- An index that is read is exact. -/
theorem exact_readCheckpointIndex {dir text : Text} {index : CheckpointIndex}
    (h : readCheckpointIndex dir text = some index) : index.Exact ∧ index.dir = dir := by
  unfold readCheckpointIndex at h
  split at h
  · split at h
    · cases h
    · split at h
      · dsimp only at h
        obtain ⟨families, hfamilies, hindex⟩ := Option.map_eq_some_iff.mp h
        rw [← hindex]
        exact ⟨exact_withFamilies dir (parseFamilies_spec hfamilies List.nodup_nil), rfl⟩
      · cases h
  · cases h

/-! ### A written index is read back -/

theorem insertByBase_perm (family : CheckpointFamily) (families : List CheckpointFamily) :
    (insertByBase family families).Perm (family :: families) := by
  induction families with
  | nil => exact .refl _
  | cons first rest ih =>
    rw [insertByBase]
    split_ifs
    · exact .refl _
    · exact (ih.cons first).trans (List.Perm.swap family first rest)

theorem sortedFamiliesByBase_perm (families : List CheckpointFamily) :
    (sortedFamiliesByBase families).Perm families := by
  have hfold : ∀ families sorted : List CheckpointFamily,
      (families.foldl (fun sorted family ↦ insertByBase family sorted) sorted).Perm
        (sorted ++ families) := by
    intro families
    induction families with
    | nil => exact fun sorted ↦ by rw [List.append_nil]; exact .refl _
    | cons family rest ih =>
      intro sorted
      refine (ih (insertByBase family sorted)).trans ?_
      exact ((insertByBase_perm family sorted).append_right rest).trans List.perm_middle.symm
  exact hfold families []

theorem notMem_of_printable {text : Text} (htext : ∀ c ∈ text, isPrintable c = true) {c : Char}
    (hc : isPrintable c = false) : c ∉ text := by
  intro hmem
  rw [htext c hmem] at hc
  cases hc

/-- The fields of a family's line. -/
def familyFields (family : CheckpointFamily) : List Text :=
  ["family".toList, stringToString family.base, intToString (toNanoseconds family.mtime),
    intToString family.bytes]

theorem familyLine_eq_concatWith (family : CheckpointFamily) :
    familyLine family = concatWith ['\t'] (familyFields family) := by
  have hfields : ∀ base mtime bytes : Text,
      "family\t".toList ++ base ++ '\t' :: mtime ++ '\t' :: bytes =
        concatWith ['\t'] ["family".toList, base, mtime, bytes] := by
    intro base mtime bytes
    rw [concatWith_cons_cons, concatWith_cons_cons, concatWith_cons_cons]
    simp [concatWith]
  exact hfields _ _ _

theorem printable_of_mem_familyFields {family : CheckpointFamily} (hbase : Bytes family.base)
    {field : Text} (hfield : field ∈ familyFields family) : ∀ c ∈ field, isPrintable c = true := by
  simp only [familyFields, List.mem_cons, List.not_mem_nil, or_false] at hfield
  rcases hfield with rfl | rfl | rfl | rfl
  · exact List.all_eq_true.mp (by decide)
  · exact fun c hc ↦ printable_of_mem_stringToString hbase hc
  · exact fun c hc ↦ printable_of_mem_intToString hc
  · exact fun c hc ↦ printable_of_mem_intToString hc

/-- A family's line is read back. -/
theorem parseIndexFamilyLine_familyLine {family : CheckpointFamily} (hbase : Bytes family.base) :
    parseIndexFamilyLine (familyLine family) = some family := by
  have hsplit : (familyLine family).splitOn '\t' = familyFields family := by
    rw [familyLine_eq_concatWith]
    refine splitOn_concatWith (fun field hfield ↦ ?_) (List.cons_ne_nil _ _)
    exact notMem_of_printable (printable_of_mem_familyFields hbase hfield) (by decide)
  have hbytes : ¬ ((family.bytes : ℤ) < 0) := by omega
  have htime : fromNanoseconds (toNanoseconds family.mtime) = family.mtime := by
    rw [fromNanoseconds, toNanoseconds]
    omega
  rw [parseIndexFamilyLine, hsplit]
  show (if "family".toList = "family".toList then
    match stringFromString (stringToString family.base),
      intFromString (intToString (toNanoseconds family.mtime)),
      intFromString (intToString family.bytes) with
    | some base, some mtime, some bytes => _
    | _, _, _ => _ else none) = _
  rw [if_pos rfl, stringFromString_stringToString hbase, intFromString_intToString,
    intFromString_intToString]
  show (if (family.bytes : ℤ) < 0 then none
    else some (⟨family.base, fromNanoseconds (toNanoseconds family.mtime),
      (family.bytes : ℤ).toNat⟩ : CheckpointFamily)) = some family
  rw [if_neg hbytes, htime, Int.toNat_natCast]

theorem familyLine_newline {family : CheckpointFamily} (hbase : Bytes family.base) :
    '\n' ∉ familyLine family ∧ familyLine family ≠ [] := by
  rw [familyLine_eq_concatWith]
  have hne : concatWith ['\t'] (familyFields family) ≠ [] := by
    rw [familyFields, concatWith_cons_cons]
    exact List.append_ne_nil_of_right_ne_nil _ (List.cons_ne_nil _ _)
  refine ⟨fun hmem ↦ ?_, hne⟩
  rcases mem_concatWith hmem with hsep | ⟨field, hfield, hmem⟩
  · exact absurd hsep (by decide)
  · exact notMem_of_printable (printable_of_mem_familyFields hbase hfield) (by decide) hmem

/-- The lines of families with distinct bases below the directory are read as these families. -/
theorem parseFamilies_familyLine {dir : Text} {families : List CheckpointFamily}
    (hbases : ∀ family ∈ families, Bytes family.base ∧ pathUnderDir family.base dir = true) :
    ∀ {found : List CheckpointFamily},
      ((found ++ families).map CheckpointFamily.base).Nodup →
        parseFamilies dir (families.map familyLine) found = some (found.reverse ++ families) := by
  induction families with
  | nil =>
    intro found _
    rw [List.append_nil]
    rfl
  | cons family rest ih =>
    intro found hnodup
    obtain ⟨hbytes, hunder⟩ := hbases family List.mem_cons_self
    have hnew : familyBaseExists family.base found = false := by
      by_contra hexists
      rw [Bool.not_eq_false] at hexists
      obtain ⟨other, hother, hbase⟩ := List.any_eq_true.mp hexists
      rw [List.map_append, List.nodup_append] at hnodup
      exact hnodup.2.2 other.base (List.mem_map_of_mem hother) family.base
        (List.mem_map_of_mem List.mem_cons_self) (of_decide_eq_true hbase)
    have hperm : (family :: found ++ rest).Perm (found ++ family :: rest) := List.perm_middle.symm
    rw [List.map_cons, parseFamilies, parseIndexFamilyLine_familyLine hbytes]
    dsimp only
    rw [hunder, hnew]
    show parseFamilies dir (rest.map familyLine) (family :: found) = _
    rw [ih (fun other hother ↦ hbases other (List.mem_cons_of_mem _ hother))
      ((hperm.map _).nodup_iff.mpr hnodup), List.reverse_cons, List.append_assoc]
    rfl

/-- Assumes: the directory and the bases are texts of bytes, the bases distinct and below the
directory. A written index is read as its families in the order of their bases. -/
theorem readCheckpointIndex_checkpointIndexText {index : CheckpointIndex} (hdir : Bytes index.dir)
    (hnodup : (index.families.map CheckpointFamily.base).Nodup)
    (hbases : ∀ family ∈ index.families,
      Bytes family.base ∧ pathUnderDir family.base index.dir = true) :
    readCheckpointIndex index.dir (checkpointIndexText index) =
      some (checkpointIndexWithFamilies index.dir (sortedFamiliesByBase index.families)) := by
  have hperm := sortedFamiliesByBase_perm index.families
  have hsorted : ∀ family ∈ sortedFamiliesByBase index.families,
      Bytes family.base ∧ pathUnderDir family.base index.dir = true :=
    fun family hfamily ↦ hbases family (hperm.mem_iff.mp hfamily)
  have htokens : tokens (fun c ↦ c = '\n') (checkpointIndexText index) =
      [checkpointIndexHeader, "root=".toList ++ stringToString index.dir,
        "created_by=holbuild".toList] ++
          (sortedFamiliesByBase index.families).map familyLine := by
    rw [checkpointIndexText, concatWith_newline (by simp)]
    refine tokens_terminated fun line hline ↦ ?_
    simp only [List.mem_append, List.mem_cons, List.not_mem_nil, or_false, List.mem_map] at hline
    rcases hline with (rfl | rfl | rfl) | ⟨family, hfamily, rfl⟩
    · decide
    · refine ⟨fun hmem ↦ ?_, List.cons_ne_nil _ _⟩
      rcases List.mem_append.mp hmem with hmem | hmem
      · exact absurd hmem (by decide)
      · exact notMem_of_printable (fun c hc ↦ printable_of_mem_stringToString hdir hc)
          (by decide) hmem
    · decide
    · exact familyLine_newline (hsorted family hfamily).1
  have hroot : parseIndexRoot ("root=".toList ++ stringToString index.dir) = some index.dir := by
    have hisPrefix : "root=".toList.isPrefixOf ("root=".toList ++ stringToString index.dir) = true :=
      List.isPrefixOf_iff_prefix.mpr (List.prefix_append _ _)
    rw [parseIndexRoot, if_pos hisPrefix, List.drop_left, stringFromString_stringToString hdir]
  have hcreated : "created_by=".toList.isPrefixOf "created_by=holbuild".toList = true := by decide
  rw [readCheckpointIndex, htokens]
  show (if checkpointIndexHeader ≠ checkpointIndexHeader then none
    else if parseIndexRoot ("root=".toList ++ stringToString index.dir) = some index.dir then _
      else none) = _
  rw [if_neg (by simp), if_pos hroot]
  show Option.map _ (parseFamilies index.dir (if "created_by=".toList.isPrefixOf
    "created_by=holbuild".toList then (sortedFamiliesByBase index.families).map familyLine else _) []) = _
  rw [if_pos hcreated, parseFamilies_familyLine hsorted
    ((hperm.map CheckpointFamily.base).nodup_iff.mpr hnodup)]
  rfl

/-! ### What eviction removes -/

section Eviction

variable {World Failure : Type} {disk : Disk World Failure} {index : CheckpointIndex}
  {maxBytes : ℤ} {protectedBases : List Text} {w w' : World}

/-- The families of some attempts are removed one after another, each with whether it is gone. -/
inductive Removes (disk : Disk World Failure) : List (CheckpointFamily × Bool) → World → World → Prop
  | nil (w : World) : Removes disk [] w w
  | cons {family : CheckpointFamily} {gone : Bool} {rest : List (CheckpointFamily × Bool)}
      {w w₁ w' : World} (hremove : disk.removeFamily family.base w = .ok w₁)
      (hgone : disk.rootExists family.base w₁ = !gone) (h : Removes disk rest w₁ w') :
      Removes disk ((family, gone) :: rest) w w'

/-- The families that are gone. -/
def goneFamilies (attempts : List (CheckpointFamily × Bool)) : List CheckpointFamily :=
  (attempts.filter Prod.snd).map Prod.fst

/-- The sizes of the families that are gone. -/
def freedBytes (attempts : List (CheckpointFamily × Bool)) : ℤ :=
  ((goneFamilies attempts).map fun family ↦ (family.bytes : ℤ)).sum

@[simp] theorem freedBytes_nil : freedBytes [] = 0 := rfl

@[simp] theorem freedBytes_cons_true (family : CheckpointFamily)
    (rest : List (CheckpointFamily × Bool)) :
    freedBytes ((family, true) :: rest) = family.bytes + freedBytes rest := rfl

@[simp] theorem freedBytes_cons_false (family : CheckpointFamily)
    (rest : List (CheckpointFamily × Bool)) :
    freedBytes ((family, false) :: rest) = freedBytes rest := rfl

/-- Assumes: the total is above the budget. Families are removed in order, with the total above the
budget before each, until it no longer is or none are left. -/
theorem evict_spec {beforeBytes freed freed' : ℤ} {removed removed' : ℕ}
    {removedBases removedBases' : List Text} {sorted : List CheckpointFamily}
    (hover : maxBytes < beforeBytes - freed)
    (h : evict disk maxBytes beforeBytes sorted w freed removed removedBases =
      .ok ((freed', removed', removedBases'), w')) :
    ∃ attempts rest, sorted = attempts.map Prod.fst ++ rest ∧ Removes disk attempts w w' ∧
      freed' = freed + freedBytes attempts ∧ removed' = removed + (goneFamilies attempts).length ∧
      (∀ base, base ∈ removedBases' ↔
        base ∈ removedBases ∨ base ∈ (goneFamilies attempts).map CheckpointFamily.base) ∧
      (∀ first last, attempts = first ++ last → last ≠ [] →
        maxBytes < beforeBytes - (freed + freedBytes first)) ∧
      (rest = [] ∨ beforeBytes - freed' ≤ maxBytes) := by
  induction sorted generalizing w freed removed removedBases with
  | nil =>
    rw [evict, Except.ok.injEq, Prod.mk.injEq, Prod.mk.injEq, Prod.mk.injEq] at h
    obtain ⟨⟨rfl, rfl, rfl⟩, rfl⟩ := h
    refine ⟨[], [], rfl, .nil w, (add_zero freed).symm, rfl, fun base ↦ ?_, ?_, .inl rfl⟩
    · exact ⟨.inl, fun h ↦ h.resolve_right List.not_mem_nil⟩
    · intro first last hsplit hlast
      exact absurd (List.append_eq_nil_iff.mp hsplit.symm).2 hlast
  | cons family sorted ih =>
    obtain ⟨w₁, hremove, h⟩ := bind_eq_ok_iff.mp h
    -- what one attempt adds to what the attempts after it do
    have hcons : ∀ {gone : Bool} {freed₁ : ℤ} {removed₁ : ℕ} {bases₁ : List Text},
        disk.rootExists family.base w₁ = !gone →
        freed₁ = freed + freedBytes [(family, gone)] →
        removed₁ = removed + (goneFamilies [(family, gone)]).length →
        (∀ base, base ∈ bases₁ ↔ base ∈ removedBases ∨
          base ∈ (goneFamilies [(family, gone)]).map CheckpointFamily.base) →
        (∃ attempts rest, sorted = attempts.map Prod.fst ++ rest ∧ Removes disk attempts w₁ w' ∧
          freed' = freed₁ + freedBytes attempts ∧
          removed' = removed₁ + (goneFamilies attempts).length ∧
          (∀ base, base ∈ removedBases' ↔
            base ∈ bases₁ ∨ base ∈ (goneFamilies attempts).map CheckpointFamily.base) ∧
          (∀ first last, attempts = first ++ last → last ≠ [] →
            maxBytes < beforeBytes - (freed₁ + freedBytes first)) ∧
          (rest = [] ∨ beforeBytes - freed' ≤ maxBytes)) →
        ∃ attempts rest, family :: sorted = attempts.map Prod.fst ++ rest ∧
          Removes disk attempts w w' ∧ freed' = freed + freedBytes attempts ∧
          removed' = removed + (goneFamilies attempts).length ∧
          (∀ base, base ∈ removedBases' ↔
            base ∈ removedBases ∨ base ∈ (goneFamilies attempts).map CheckpointFamily.base) ∧
          (∀ first last, attempts = first ++ last → last ≠ [] →
            maxBytes < beforeBytes - (freed + freedBytes first)) ∧
          (rest = [] ∨ beforeBytes - freed' ≤ maxBytes) := by
      rintro gone freed₁ removed₁ bases₁ hgone rfl rfl hbases
        ⟨attempts, rest, hsorted, hremoves, hfreed, hremoved, hmem, habove, hstop⟩
      have hfamilies : goneFamilies ((family, gone) :: attempts) =
          goneFamilies [(family, gone)] ++ goneFamilies attempts := by
        cases gone <;> rfl
      have hbytes : ∀ attempts, freedBytes ((family, gone) :: attempts) =
          freedBytes [(family, gone)] + freedBytes attempts := by
        intro attempts
        cases gone <;> simp
      refine ⟨(family, gone) :: attempts, rest, ?_, .cons hremove hgone hremoves, ?_, ?_,
        fun base ↦ ?_, fun first last hsplit hlast ↦ ?_, hstop⟩
      · rw [hsorted]
        rfl
      · rw [hfreed, hbytes attempts, add_assoc]
      · rw [hremoved, hfamilies, List.length_append, add_assoc]
      · rw [hmem, hbases, hfamilies, List.map_append, List.mem_append, or_assoc]
      · cases first with
        | nil => rwa [freedBytes_nil, add_zero]
        | cons attempt first =>
          rw [List.cons_append, List.cons.injEq] at hsplit
          obtain ⟨rfl, hsplit⟩ := hsplit
          have hlow := habove first last hsplit hlast
          rw [hbytes]
          omega
    by_cases hexists : disk.rootExists family.base w₁ = true
    · rw [if_pos hexists] at h
      exact @hcons false _ _ _ hexists (by simp) rfl
        (fun base ↦ ⟨.inl, fun h ↦ h.resolve_right List.not_mem_nil⟩) (ih hover h)
    · rw [if_neg hexists] at h
      have hgone : disk.rootExists family.base w₁ = !true := by
        rwa [Bool.not_eq_true] at hexists
      have hbases : ∀ base, base ∈ family.base :: removedBases ↔ base ∈ removedBases ∨
          base ∈ (goneFamilies [(family, true)]).map CheckpointFamily.base := by
        intro base
        rw [List.mem_cons, or_comm]
        exact or_congr_right List.mem_singleton.symm
      split_ifs at h with hwithin
      · rw [Except.ok.injEq, Prod.mk.injEq, Prod.mk.injEq, Prod.mk.injEq] at h
        obtain ⟨⟨rfl, rfl, rfl⟩, rfl⟩ := h
        refine @hcons true _ _ _ hgone (by simp) rfl hbases
          ⟨[], sorted, rfl, .nil w₁, (add_zero _).symm, rfl, fun base ↦ ?_, ?_, .inr hwithin⟩
        · exact ⟨.inl, fun h ↦ h.resolve_right List.not_mem_nil⟩
        · intro first last hsplit hlast
          exact absurd (List.append_eq_nil_iff.mp hsplit.symm).2 hlast
      · exact @hcons true _ _ _ hgone (by simp) rfl hbases (ih (not_le.mp hwithin) h)

/-- What an eviction above the budget did: it attempted the unprotected families from the oldest on,
was above the budget before each attempt, and stopped when it no longer was or none were left. The
index has the families that are not gone, those that could not be removed among them. -/
structure Evicted (disk : Disk World Failure) (index : CheckpointIndex) (maxBytes : ℤ)
    (protectedBases : List Text) (w : World) (index' : CheckpointIndex)
    (eviction : CheckpointEviction) (w' : World) (attempts : List (CheckpointFamily × Bool))
    (rest : List CheckpointFamily) : Prop where
  evictable : (attempts.map Prod.fst ++ rest).Perm
    (index.families.filter fun family ↦ family.base ∉ protectedBases)
  oldest : (attempts.map Prod.fst ++ rest).Pairwise fun a b ↦ a.mtime ≤ b.mtime
  removes : Removes disk attempts w w'
  above : ∀ first last, attempts = first ++ last → last ≠ [] →
    maxBytes < index.totalBytes - freedBytes first
  stops : rest = [] ∨ index'.totalBytes ≤ maxBytes
  families : index'.families = index.families.filter fun family ↦
    family.base ∉ (goneFamilies attempts).map CheckpointFamily.base
  total : index'.totalBytes = index.totalBytes - freedBytes attempts
  stats : eviction = ⟨index.totalBytes, index'.totalBytes, maxBytes, (goneFamilies attempts).length⟩

theorem goneFamilies_sublist (attempts : List (CheckpointFamily × Bool)) :
    (goneFamilies attempts).Sublist (attempts.map Prod.fst) := List.filter_sublist.map _

/-- The families in the index without those that are gone have the total without theirs. -/
theorem sum_filter_notMem_gone {families evictable : List CheckpointFamily}
    {attempts : List (CheckpointFamily × Bool)}
    (hnodup : (families.map CheckpointFamily.base).Nodup)
    (hperm : evictable.Perm (families.filter fun family ↦ family.base ∉ protectedBases))
    (hgone : (goneFamilies attempts).Sublist evictable) :
    ((families.filter fun family ↦
      family.base ∉ (goneFamilies attempts).map CheckpointFamily.base).map
        fun family ↦ (family.bytes : ℤ)).sum =
      (families.map fun family ↦ (family.bytes : ℤ)).sum - freedBytes attempts := by
  have hinjective : ∀ a ∈ families, ∀ b ∈ families, a.base = b.base → a = b :=
    fun a ha b hb hab ↦ List.inj_on_of_nodup_map hnodup ha hb hab
  have hsub : ∀ family ∈ goneFamilies attempts, family ∈ families := fun family hfamily ↦
    List.mem_of_mem_filter (hperm.mem_iff.mp (hgone.subset hfamily))
  have hfamilies : families.Nodup := List.Nodup.of_map _ hnodup
  have hgoneNodup : (goneFamilies attempts).Nodup :=
    (hperm.nodup_iff.mpr (hfamilies.filter _)).sublist hgone
  have hgoneFilter : (families.filter fun family ↦
      family.base ∈ (goneFamilies attempts).map CheckpointFamily.base).Perm
        (goneFamilies attempts) := by
    refine (List.perm_ext_iff_of_nodup (hfamilies.filter _) hgoneNodup).mpr fun family ↦ ?_
    rw [List.mem_filter, decide_eq_true_eq, List.mem_map]
    constructor
    · rintro ⟨hfamily, other, hother, hbase⟩
      exact hinjective other (hsub other hother) family hfamily hbase ▸ hother
    · exact fun hfamily ↦ ⟨hsub family hfamily, family, hfamily, rfl⟩
  have hsplit := (List.filter_append_perm (fun family ↦
    decide (family.base ∈ (goneFamilies attempts).map CheckpointFamily.base)) families).map
      fun family ↦ (family.bytes : ℤ)
  have hsum := hsplit.sum_eq
  rw [List.map_append, List.sum_append, (hgoneFilter.map _).sum_eq] at hsum
  have hnot : (families.filter fun family ↦
      !decide (family.base ∈ (goneFamilies attempts).map CheckpointFamily.base)) =
      families.filter fun family ↦
        family.base ∉ (goneFamilies attempts).map CheckpointFamily.base := by
    refine List.filter_congr fun family _ ↦ ?_
    rw [decide_not]
  rw [hnot] at hsum
  rw [freedBytes]
  omega

/-- Within the budget, or without one, nothing is removed. -/
theorem evictFromIndexExcluding_within (hwithin : maxBytes ≤ 0 ∨ index.totalBytes ≤ maxBytes) :
    evictFromIndexExcluding disk index maxBytes protectedBases w =
      .ok ((index, ⟨index.totalBytes, index.totalBytes, maxBytes, 0⟩), w) := by
  have hfilter : (index.families.filter fun family ↦ family.base ∉ ([] : List Text)) =
      index.families := List.filter_eq_self.mpr fun family _ ↦ decide_eq_true List.not_mem_nil
  refine bind_eq_ok_iff.mpr ⟨((0, 0, []), w), if_neg (not_not.mpr hwithin), ?_⟩
  dsimp only
  rw [hfilter, sub_zero]

/-- Above the budget, an eviction that does not raise is as `Evicted` says. -/
theorem evicted_of_evict (hover : ¬ (maxBytes ≤ 0 ∨ index.totalBytes ≤ maxBytes))
    {index' : CheckpointIndex} {eviction : CheckpointEviction}
    (h : evictFromIndexExcluding disk index maxBytes protectedBases w =
      .ok ((index', eviction), w')) :
    ∃ attempts rest, Evicted disk index maxBytes protectedBases w index' eviction w' attempts rest := by
  unfold evictFromIndexExcluding at h
  obtain ⟨⟨⟨freed, evicted, removedBases⟩, w₁⟩, hevict, h⟩ := bind_eq_ok_iff.mp h
  rw [evictOverBudget, if_pos hover] at hevict
  rw [Except.ok.injEq, Prod.mk.injEq, Prod.mk.injEq] at h
  obtain ⟨⟨rfl, rfl⟩, rfl⟩ := h
  obtain ⟨attempts, rest, hsorted, hremoves, hfreed, hremoved, hmem, habove, hstop⟩ :=
    evict_spec (by rw [sub_zero]; exact not_le.mp fun h ↦ hover (.inr h)) hevict
  rw [zero_add] at hfreed hremoved
  subst hfreed hremoved
  refine ⟨attempts, rest, ?_, ?_, hremoves, ?_, hstop, ?_, rfl, rfl⟩
  · rw [← hsorted]
    exact sortPairs_perm _
  · rw [← hsorted]
    refine (pairwise_sortPairs (fun a b c hab hbc ↦ ?_) (fun a b ↦ ?_) _).imp of_decide_eq_true
    · exact decide_eq_true ((of_decide_eq_true hab).trans (of_decide_eq_true hbc))
    · rw [Bool.or_eq_true, decide_eq_true_eq, decide_eq_true_eq]
      exact le_total a.mtime b.mtime
  · intro first last hsplit hlast
    have hlow := habove first last hsplit hlast
    rwa [zero_add] at hlow
  · refine List.filter_congr fun family _ ↦ ?_
    have hiff := hmem family.base
    simp only [List.not_mem_nil, false_or] at hiff
    simp only [hiff]

/-- An eviction leaves an exact index of the same directory. -/
theorem exact_evict (hindex : index.Exact) {index' : CheckpointIndex} {eviction : CheckpointEviction}
    (h : evictFromIndexExcluding disk index maxBytes protectedBases w =
      .ok ((index', eviction), w')) : index'.Exact ∧ index'.dir = index.dir := by
  by_cases hover : maxBytes ≤ 0 ∨ index.totalBytes ≤ maxBytes
  · rw [evictFromIndexExcluding_within hover, Except.ok.injEq, Prod.mk.injEq, Prod.mk.injEq] at h
    rw [← h.1.1]
    exact ⟨hindex, rfl⟩
  · obtain ⟨attempts, rest, hevicted⟩ := evicted_of_evict hover h
    have hdir : index'.dir = index.dir := by
      obtain ⟨_, -, h⟩ := bind_eq_ok_iff.mp h
      rw [Except.ok.injEq, Prod.mk.injEq, Prod.mk.injEq] at h
      rw [← h.1.1]
    refine ⟨⟨?_, ?_⟩, hdir⟩
    · rw [hevicted.families]
      exact nodup_filter_base _ hindex.bases
    · rw [hevicted.families, hevicted.total, hindex.total, sum_filter_notMem_gone hindex.bases
        hevicted.evictable ((goneFamilies_sublist attempts).trans (List.sublist_append_left _ _))]

end Eviction

/-! ### Every index that is reached -/

/-- The indexes of a directory that rebuilding, reading, merging and eviction lead to. -/
inductive IndexReached (dir : Text) : CheckpointIndex → Prop
  | rebuild (tree : Tree) : IndexReached dir (rebuildCheckpointIndex dir tree)
  | read {text : Text} {index : CheckpointIndex} (h : readCheckpointIndex dir text = some index) :
      IndexReached dir index
  | merge {index : CheckpointIndex} (h : IndexReached dir index) (rootExists : Text → Bool)
      (measurements : List (Text × Option CheckpointFamily)) :
      IndexReached dir (mergeCheckpointFamilyMeasurements rootExists index measurements)
  | evict {World Failure : Type} {disk : Disk World Failure} {index index' : CheckpointIndex}
      {maxBytes : ℤ} {protectedBases : List Text} {w w' : World} {eviction : CheckpointEviction}
      (h : IndexReached dir index) (hevict : evictFromIndexExcluding disk index maxBytes protectedBases w =
        .ok ((index', eviction), w')) : IndexReached dir index'

/-- Every index that is reached is exact. -/
theorem IndexReached.exact {dir : Text} {index : CheckpointIndex} (h : IndexReached dir index) :
    index.Exact ∧ index.dir = dir := by
  induction h with
  | rebuild tree => exact ⟨exact_withFamilies dir (@nodup_collect [] List.nodup_nil tree dir), rfl⟩
  | read h => exact exact_readCheckpointIndex h
  | merge _ rootExists measurements ih =>
    obtain ⟨hexact, hdir⟩ := exact_merge ih.1 rootExists measurements
    exact ⟨hexact, hdir.trans ih.2⟩
  | evict _ hevict ih =>
    obtain ⟨hexact, hdir⟩ := exact_evict ih.1 hevict
    exact ⟨hexact, hdir.trans ih.2⟩

/-- An index that is reached is exact and, if the bases are below the directory, read back from its
text with the same families. Eviction removes nothing from it within the budget or without one, and
else no protected family and the oldest others as far as needed, leaving an exact index. -/
theorem checkpoint_budget {dir : Text} {index : CheckpointIndex} (h : IndexReached dir index) :
    index.Exact ∧
      (Bytes dir → (∀ family ∈ index.families,
          Bytes family.base ∧ pathUnderDir family.base dir = true) →
        ∃ index', readCheckpointIndex dir (checkpointIndexText index) = some index' ∧
          index'.dir = dir ∧ index'.families.Perm index.families ∧
            index'.totalBytes = index.totalBytes) ∧
      ∀ (World Failure : Type) (disk : Disk World Failure) (maxBytes : ℤ) (protectedBases : List Text)
          (w : World),
        ((maxBytes ≤ 0 ∨ index.totalBytes ≤ maxBytes) →
          evictFromIndexExcluding disk index maxBytes protectedBases w =
            .ok ((index, ⟨index.totalBytes, index.totalBytes, maxBytes, 0⟩), w)) ∧
        (¬ (maxBytes ≤ 0 ∨ index.totalBytes ≤ maxBytes) → ∀ index' eviction w',
          evictFromIndexExcluding disk index maxBytes protectedBases w =
            .ok ((index', eviction), w') →
          index'.Exact ∧ ∃ attempts rest,
            Evicted disk index maxBytes protectedBases w index' eviction w' attempts rest ∧
              ∀ attempt ∈ attempts, attempt.1.base ∉ protectedBases) := by
  obtain ⟨hexact, rfl⟩ := h.exact
  refine ⟨hexact, fun hdir hbases ↦ ?_, fun World Failure disk maxBytes protectedBases w ↦
    ⟨fun hwithin ↦ evictFromIndexExcluding_within hwithin, fun hover index' eviction w' hevict ↦ ?_⟩⟩
  · have hperm := sortedFamiliesByBase_perm index.families
    refine ⟨_, readCheckpointIndex_checkpointIndexText hdir hexact.bases hbases, rfl, hperm, ?_⟩
    show totalCheckpointBytes (sortedFamiliesByBase index.families) = index.totalBytes
    rw [totalCheckpointBytes_eq_sum, hexact.total, (hperm.map _).sum_eq]
  · obtain ⟨attempts, rest, hevicted⟩ := evicted_of_evict hover hevict
    refine ⟨(exact_evict hexact hevict).1, attempts, rest, hevicted, fun attempt hattempt ↦ ?_⟩
    have hmem := hevicted.evictable.mem_iff.mp
      (List.mem_append_left rest (List.mem_map_of_mem hattempt))
    exact of_decide_eq_true (List.mem_filter.mp hmem).2

/-! ### A directory with two families -/

/-- Two families, one of them below a marker, with a tab and a quote in their names. -/
def sampleTree : Tree :=
  .dir [("a\tb.save".toList, .file 7 20), ("q\"Theory.deps".toList, .dir [("x.save".toList, .file 3 30),
    ("x.save.ok".toList, .file 4 5)]), ("notes".toList, .file 1 9)]

def sampleIndex : CheckpointIndex := rebuildCheckpointIndex "/c".toList sampleTree

example : sampleIndex.families =
    [⟨"/c/a\tb.save".toList, 7, 20⟩, ⟨"/c/q\"Theory".toList, 4, 35⟩] := by decide +kernel

/-- A disk that is the bases that have files, where one of them cannot be removed. -/
def sampleDisk (stuck : Text) : Disk (List Text) Unit where
  removeFamily base bases := .ok (bases.filter fun other ↦ other ≠ base ∨ other = stuck)
  rootExists base bases := decide (base ∈ bases)

theorem checkpoint_budget_sample : sampleIndex.Exact ∧
    (∃ index', readCheckpointIndex "/c".toList (checkpointIndexText sampleIndex) = some index' ∧
      index'.dir = "/c".toList ∧ index'.families.Perm sampleIndex.families ∧
        index'.totalBytes = sampleIndex.totalBytes) ∧
    ∃ index' eviction w',
      evictFromIndexExcluding (sampleDisk "/c/q\"Theory".toList) sampleIndex 40 []
        ["/c/a\tb.save".toList, "/c/q\"Theory".toList] = .ok ((index', eviction), w') ∧
      index'.families = [⟨"/c/q\"Theory".toList, 4, 35⟩] ∧ index'.Exact := by
  have hreached : IndexReached "/c".toList sampleIndex := .rebuild sampleTree
  have hfamilies : sampleIndex.families =
      [⟨"/c/a\tb.save".toList, 7, 20⟩, ⟨"/c/q\"Theory".toList, 4, 35⟩] := by decide +kernel
  have hbases : ∀ family ∈ sampleIndex.families,
      Bytes family.base ∧ pathUnderDir family.base "/c".toList = true := by
    rw [hfamilies]
    intro family hfamily
    simp only [List.mem_cons, List.not_mem_nil, or_false] at hfamily
    rcases hfamily with rfl | rfl
    · exact ⟨bytes_of_all (by decide), by decide⟩
    · exact ⟨bytes_of_all (by decide), by decide⟩
  have hrun : evictFromIndexExcluding (sampleDisk "/c/q\"Theory".toList) sampleIndex 40 []
      ["/c/a\tb.save".toList, "/c/q\"Theory".toList] =
        .ok ((⟨"/c".toList, [⟨"/c/q\"Theory".toList, 4, 35⟩], 35⟩, ⟨55, 35, 40, 1⟩),
          ["/c/q\"Theory".toList]) := by decide +kernel
  have hover : ¬ ((40 : ℤ) ≤ 0 ∨ sampleIndex.totalBytes ≤ 40) := by decide +kernel
  obtain ⟨hexact, hread, hevict⟩ := checkpoint_budget hreached
  refine ⟨hexact, hread (bytes_of_all (by decide)) hbases, _, _, _, hrun, rfl, ?_⟩
  exact ((hevict (List Text) Unit _ 40 [] _).2 hover _ _ _ hrun).1

end Holbuild.Checkpoints
