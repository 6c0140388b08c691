import Holbuild.Analyser.Responses
import Mathlib.Data.List.Nodup
import Mathlib.Logic.Function.Basic

/-!
# Dependency facts from caches and analyser processes

The facts of many files are read from their cache entries, and those of the others come from one or more
analyser processes, to which the files are dealt. However the processes end one after the other, each
request gets the facts it would get alone (`prefetchCachedWithHash_spec`).
-/

set_option autoImplicit false
set_option relaxedAutoImplicit false

namespace Holbuild.Analyser

open Library

/-! ### Cache entries -/

/-- The texts of the cache entries, by path. -/
abbrev Files := String → Option String

structure Request where
  cachePath : String
  sourcePath : String
  sourceHash : String

/-- Where and under whose name facts are cached, which writes fail, what the analyser answers for a path,
and how many processes it may have. -/
structure Setup where
  identity : String
  sharedCachePath : String → String
  writeFails : Files → String → Bool
  answer : String → Deps
  analyserJobs : ℕ

def cacheVersion : String := "holbuild-dependencies-cache-v4"

def extractorVersion : String := "holbuild-hol-analyser-deps-v3"

/-- What follows the start of a line. -/
def lineValue (start line : String) : Option String :=
  if start.toList.isPrefixOf line.toList then some (String.ofList (line.toList.drop start.toList.length))
  else none

def values (start : String) (lines : List String) : List String := lines.filterMap (lineValue start)

/-- The four lines that an entry starts with. -/
def cacheHeader (identity sourceHash : String) : List String :=
  [cacheVersion, "extractor=" ++ extractorVersion, "analyser=" ++ identity, "source_sha256=" ++ sourceHash]

section

variable (setup : Setup)

/-- Reads the entry for a source hash; an entry for anything else is none. -/
def readCacheText (sourceHash text : String) : Option Deps :=
  match textLines text with
  | version :: extractor :: analyser :: hash :: rest =>
      if [version, extractor, analyser, hash] = cacheHeader setup.identity sourceHash then
        some ⟨values "load=" rest, values "use=" rest, values "extra_dep=" rest,
          values "extra_output=" rest, values "mention=" rest⟩
      else none
  | _ => none

def readCache (files : Files) (path sourceHash : String) : Option Deps :=
  (files path).bind (readCacheText setup sourceHash)

/-- The lines after the header of an entry. -/
def cacheLines (deps : Deps) : List String :=
  deps.loads.map ("load=" ++ ·) ++ deps.uses.map ("use=" ++ ·) ++ deps.extraDeps.map ("extra_dep=" ++ ·) ++
    deps.extraOutputs.map ("extra_output=" ++ ·) ++ deps.holdepMentions.map ("mention=" ++ ·)

def cacheText (sourceHash : String) (deps : Deps) : String :=
  String.ofList (concatWith ['\n'] ((cacheHeader setup.identity sourceHash ++ cacheLines deps).map
    String.toList) ++ ['\n'])

/-- Writes an entry; a write that fails changes nothing. -/
def writeCache (files : Files) (path sourceHash : String) (deps : Deps) : Files :=
  if setup.writeFails files path then files
  else Function.update files path (some (cacheText setup sourceHash deps))

/-- The project's entry, else the shared one, which is then copied into the project. -/
def readCached (request : Request) (files : Files) : Option Deps × Files :=
  match readCache setup files request.cachePath request.sourceHash with
  | some deps => (some deps, files)
  | none =>
      match readCache setup files (setup.sharedCachePath request.sourceHash) request.sourceHash with
      | some deps => (some deps, writeCache setup files request.cachePath request.sourceHash deps)
      | none => (none, files)

def writeCached (request : Request) (deps : Deps) (files : Files) : Files :=
  writeCache setup (writeCache setup files request.cachePath request.sourceHash deps)
    (setup.sharedCachePath request.sourceHash) request.sourceHash deps

/-! ### Analyser processes -/

/-- One process over some files: its response, read. -/
def analyseFiles (files : List (String × String)) : Except String (List (String × Deps)) :=
  parseAnalyserResponse (response setup.answer files) files

/-- The entries of a dictionary, last added first. -/
def dictionary {β : Type} (entries : List (String × β)) : List (String × β) :=
  entries.foldl (fun dict entry ↦ entry :: dict) []

def minFilesPerAnalyser : ℕ := 8

/-- Deals files out round-robin: each process's files, last first, and how many are dealt. -/
def deal (n : ℕ) (files : List (String × String)) : (ℕ → List (String × String)) × ℕ :=
  files.foldl (fun (chunks, i) file ↦ (Function.update chunks (i % n) (file :: chunks (i % n)), i + 1))
    (fun _ ↦ [], 0)

/-- In which order the processes of a run end. -/
structure Schedule where
  order : ℕ → List ℕ
  order_perm : ∀ n, (order n).Perm (List.range n)

/-- What the processes ended with, by number. -/
def processResults (schedule : Schedule) (n : ℕ) (chunks : ℕ → List (String × String)) :
    ℕ → Option (Except String (List (String × Deps))) :=
  (schedule.order n).foldl (fun results i ↦
    Function.update results i (some (analyseFiles setup (chunks i).reverse))) fun _ ↦ none

/-- The facts of files by their ids. -/
def findAll (byId : List (String × Deps)) (files : List (String × String)) :
    Except String (List (String × Deps)) :=
  files.mapM fun file ↦
    match byId.lookup file.1 with
    | some deps => .ok (file.1, deps)
    | none => .error "NotFound"

def runAnalyserParallel (schedule : Schedule) (files : List (String × String)) :
    Except String (List (String × Deps)) :=
  let n := min setup.analyserJobs (files.length / minFilesPerAnalyser)
  if n ≤ 1 then analyseFiles setup files
  else do
    let outcomes ← (List.range n).mapM fun i ↦
      (processResults setup schedule n (deal n files).1 i).getD (.error "Option")
    findAll (dictionary outcomes.flatten) files

/-! ### Facts of requests -/

def extractWithAnalyser (sourcePath : String) : Except String Deps := do
  let results ← analyseFiles setup [("1", sourcePath)]
  match results.lookup "1" with
  | some deps => .ok deps
  | none => .error ("holbuild-hol-analyser returned no result for " ++ sourcePath)

/-- The facts of one request. -/
def extractCachedWithHash (request : Request) (files : Files) : Except String Deps × Files :=
  match readCached setup request files with
  | (some deps, files) => (.ok deps, files)
  | (none, files) =>
      match extractWithAnalyser setup request.sourcePath with
      | .ok deps => (.ok deps, writeCached setup request deps files)
      | .error e => (.error e, files)

def enumerate (i : ℕ) : List Request → List (String × Request)
  | [] => []
  | request :: rest => (String.ofList (decimal i), request) :: enumerate (i + 1) rest

/-- The requests read so far: the cached with their facts, the missing, and the entries. -/
structure Reading where
  cached : List (String × Deps)
  missing : List (String × Request)
  files : Files

def cachedOrMissing (reading : Reading) (entry : String × Request) : Reading :=
  match readCached setup entry.2 reading.files with
  | (some deps, files) => ⟨(entry.1, deps) :: reading.cached, reading.missing, files⟩
  | (none, files) => ⟨reading.cached, entry :: reading.missing, files⟩

def store (missing : List (String × Request)) (files : Files) (result : String × Deps) : Files :=
  match (dictionary missing).lookup result.1 with
  | some request => writeCached setup request result.2 files
  | none => files

/-- The analyser's facts of the missing requests, last first as they were read. -/
def analysed (schedule : Schedule) (missing : List (String × Request)) (files : Files) :
    Except String (List (String × Deps)) × Files :=
  if missing = [] then (.ok [], files)
  else
    match runAnalyserParallel setup schedule
        (missing.reverse.map fun entry ↦ (entry.1, entry.2.sourcePath)) with
    | .ok results =>
        (.ok (results.filter fun result ↦ ((dictionary missing).lookup result.1).isSome),
          results.foldl (store setup missing) files)
    | .error e => (.error e, files)

/-- The facts of many requests, in their order. -/
def prefetchCachedWithHash (schedule : Schedule) (requests : List Request) (files : Files) :
    Except String (List (Option Deps)) × Files :=
  let reading := (enumerate 1 requests).foldl (cachedOrMissing setup) ⟨[], [], files⟩
  match analysed setup schedule reading.missing reading.files with
  | (.ok results, files) =>
      let byId := dictionary (reading.cached ++ results)
      (.ok ((enumerate 1 requests).map fun entry ↦ byId.lookup entry.1), files)
  | (.error e, files) => (.error e, files)

end

/-! ### Answers of several processes -/

section

variable {α β : Type}

theorem mapM_eq_some {f : α → Option β} {g : α → β} {values : List α}
    (h : ∀ a ∈ values, f a = some (g a)) : values.mapM f = some (values.map g) := by
  induction values with
  | nil => rfl
  | cons a rest ih =>
    obtain ⟨ha, hrest⟩ := List.forall_mem_cons.mp h
    rw [List.mapM_cons, ha, ih hrest]
    rfl

theorem mapM_eq_none {f : α → Option β} {values : List α} {a : α} (ha : a ∈ values) (h : f a = none) :
    values.mapM f = none := by
  induction values with
  | nil => exact absurd ha List.not_mem_nil
  | cons b rest ih =>
    rw [List.mapM_cons]
    rcases List.mem_cons.mp ha with rfl | hrest
    · rw [h]
      rfl
    · cases f b with
      | none => rfl
      | some c =>
        rw [ih hrest]
        rfl

theorem exists_of_mem_mapM {f : α → Option β} {values : List α} {results : List β}
    (h : values.mapM f = some results) {b : β} (hb : b ∈ results) : ∃ a ∈ values, f a = some b := by
  induction values generalizing results with
  | nil =>
    rw [List.mapM_nil] at h
    exact absurd (Option.some.inj h ▸ hb) List.not_mem_nil
  | cons a rest ih =>
    rw [List.mapM_cons] at h
    obtain ⟨first, hfirst, h⟩ := Option.bind_eq_some_iff.mp h
    obtain ⟨others, hothers, h⟩ := Option.bind_eq_some_iff.mp h
    rcases List.mem_cons.mp (Option.some.inj h ▸ hb) with rfl | hb
    · exact ⟨a, List.mem_cons_self, hfirst⟩
    · obtain ⟨c, hc, hsome⟩ := ih hothers hb
      exact ⟨c, List.mem_cons_of_mem _ hc, hsome⟩

theorem toOption_mapM {ε : Type} {f : α → Except ε β} {values : List α} :
    (values.mapM f).toOption = values.mapM fun a ↦ (f a).toOption := by
  induction values with
  | nil => rfl
  | cons a rest ih =>
    rw [List.mapM_cons, List.mapM_cons, ← ih]
    cases f a with
    | error e => rfl
    | ok b =>
      cases rest.mapM f with
      | error e => rfl
      | ok bs => rfl

theorem dictionary_eq_reverse (entries : List (String × β)) : dictionary entries = entries.reverse := by
  simp [dictionary]

/-- A name whose entries agree is looked up as they say. -/
theorem lookup_dictionary {entries : List (String × β)} {name : String} {value : β}
    (hmem : (name, value) ∈ entries) (hagree : ∀ other, (name, other) ∈ entries → other = value) :
    (dictionary entries).lookup name = some value := by
  rw [dictionary_eq_reverse]
  cases hlookup : entries.reverse.lookup name with
  | none =>
    rw [List.lookup_eq_none_iff] at hlookup
    exact absurd (hlookup _ (List.mem_reverse.mpr hmem)) (by simp)
  | some other =>
    obtain ⟨front, back, hsplit, -⟩ := List.lookup_eq_some_iff.mp hlookup
    have hother : (name, other) ∈ entries.reverse := hsplit ▸ List.mem_append_right _ List.mem_cons_self
    rw [hagree other (List.mem_reverse.mp hother)]

theorem foldl_update_of_mem {γ : Type} [DecidableEq α] {f : α → γ} {order : List α} {start : α → Option γ}
    {a : α} (h : a ∈ order ∨ start a = some (f a)) :
    order.foldl (fun results i ↦ Function.update results i (some (f i))) start a = some (f a) := by
  induction order generalizing start with
  | nil => exact h.resolve_left List.not_mem_nil
  | cons i rest ih =>
    rw [List.foldl_cons]
    apply ih
    by_cases hi : a = i
    · rw [hi]
      exact .inr (Function.update_self _ _ _)
    · rw [Function.update_of_ne hi]
      exact h.imp_left fun hmem ↦ (List.mem_cons.mp hmem).resolve_left hi

end

variable {setup : Setup} {n : ℕ} {files : List (String × String)}

theorem deal_append (file : String × String) : deal n (files ++ [file]) =
    (Function.update (deal n files).1 ((deal n files).2 % n)
      (file :: (deal n files).1 ((deal n files).2 % n)), (deal n files).2 + 1) :=
  List.foldl_append

/-- Each process gets some of the files, in their order, and each file is dealt to a process. -/
theorem deal_spec (hn : 0 < n) : (∀ k, ((deal n files).1 k).reverse.Sublist files) ∧
    ∀ file ∈ files, ∃ k < n, file ∈ (deal n files).1 k := by
  induction files using List.reverseRecOn with
  | nil => exact ⟨fun _ ↦ List.Sublist.refl [], fun _ hmem ↦ absurd hmem List.not_mem_nil⟩
  | append_singleton files file ih =>
    rw [deal_append]
    dsimp only
    constructor
    · intro k
      by_cases hk : k = (deal n files).2 % n
      · rw [hk, Function.update_self, List.reverse_cons]
        exact (ih.1 _).append (List.Sublist.refl _)
      · rw [Function.update_of_ne hk]
        exact (ih.1 k).trans (List.sublist_append_left _ _)
    · intro other hother
      rcases List.mem_append.mp hother with hold | hnew
      · obtain ⟨k, hk, hmem⟩ := ih.2 other hold
        refine ⟨k, hk, ?_⟩
        by_cases heq : k = (deal n files).2 % n
        · rw [heq] at hmem
          rw [heq, Function.update_self]
          exact List.mem_cons_of_mem _ hmem
        · rw [Function.update_of_ne heq]
          exact hmem
      · rw [List.mem_singleton.mp hnew]
        refine ⟨(deal n files).2 % n, Nat.mod_lt _ hn, ?_⟩
        rw [Function.update_self]
        exact List.mem_cons_self

/-- The facts that a file's answer gives, under its id. -/
def fact (setup : Setup) (file : String × String) : Option (String × Deps) :=
  (factsOf (setup.answer file.2)).map (file.1, ·)

theorem toOption_analyseFiles (hdistinct : (files.map Prod.fst).Nodup) (hids : ∀ file ∈ files, file.1 ≠ "") :
    (analyseFiles setup files).toOption = files.mapM (fact setup) := parse_response hdistinct hids

theorem toOption_eq_none {ε α : Type} {x : Except ε α} (h : x.toOption = none) : ∃ e, x = .error e := by
  cases x with
  | ok _ => cases h
  | error e => exact ⟨e, rfl⟩

theorem toOption_eq_some {ε α : Type} {x : Except ε α} {a : α} (h : x.toOption = some a) : x = .ok a := by
  cases x with
  | ok _ => exact congrArg Except.ok (Option.some.inj h)
  | error e => cases h

/-- However the processes end one after the other, each file gets the facts of its own answer. -/
theorem toOption_runAnalyserParallel {schedule : Schedule} (hdistinct : (files.map Prod.fst).Nodup)
    (hids : ∀ file ∈ files, file.1 ≠ "") :
    (runAnalyserParallel setup schedule files).toOption = files.mapM (fact setup) := by
  rw [runAnalyserParallel]
  split_ifs with hone
  · exact toOption_analyseFiles hdistinct hids
  · have hpos : 0 < min setup.analyserJobs (files.length / minFilesPerAnalyser) :=
      Nat.lt_of_lt_of_le Nat.zero_lt_one (Nat.le_of_lt (Nat.lt_of_not_le hone))
    generalize min setup.analyserJobs (files.length / minFilesPerAnalyser) = n at hpos
    obtain ⟨hsub, hdealt⟩ := @deal_spec n files hpos
    have hchunk (k : ℕ) : (analyseFiles setup ((deal n files).1 k).reverse).toOption =
        ((deal n files).1 k).reverse.mapM (fact setup) :=
      toOption_analyseFiles (hdistinct.sublist ((hsub k).map _)) fun file hfile ↦ hids file ((hsub k).subset hfile)
    have hresult (k : ℕ) (hk : k < n) : (processResults setup schedule n (deal n files).1 k).getD
        (.error "Option") = analyseFiles setup ((deal n files).1 k).reverse := by
      have hmem : k ∈ schedule.order n := (schedule.order_perm n).mem_iff.mpr (List.mem_range.mpr hk)
      rw [processResults, foldl_update_of_mem (f := fun k ↦ analyseFiles setup ((deal n files).1 k).reverse)
        (.inl hmem)]
      rfl
    by_cases hall : ∀ file ∈ files, (factsOf (setup.answer file.2)).isSome = true
    · have hfacts (file : String × String) (hfile : file ∈ files) : fact setup file =
          some (file.1, (factsOf (setup.answer file.2)).getD emptyDeps) := by
        obtain ⟨facts, hsome⟩ := Option.isSome_iff_exists.mp (hall file hfile)
        rw [fact, hsome]
        rfl
      have hchunks : ∀ k ∈ List.range n, (processResults setup schedule n (deal n files).1 k).getD
          (.error "Option") = .ok (((deal n files).1 k).reverse.map fun file ↦
            (file.1, (factsOf (setup.answer file.2)).getD emptyDeps)) := by
        intro k hk
        rw [hresult k (List.mem_range.mp hk)]
        apply toOption_eq_some
        rw [hchunk k]
        exact mapM_eq_some fun file hfile ↦ hfacts file ((hsub k).subset hfile)
      rw [mapM_eq_ok hchunks, mapM_eq_some hfacts]
      show (findAll _ files).toOption = _
      rw [findAll, mapM_eq_ok (g := fun file ↦ (file.1, (factsOf (setup.answer file.2)).getD emptyDeps))]
      · rfl
      · intro file hfile
        obtain ⟨k, hk, hmem⟩ := hdealt file hfile
        rw [@lookup_dictionary _ _ _ ((factsOf (setup.answer file.2)).getD emptyDeps)]
        · refine List.mem_flatten.mpr ⟨_, List.mem_map_of_mem (List.mem_range.mpr hk), ?_⟩
          exact List.mem_map.mpr ⟨file, List.mem_reverse.mpr hmem, rfl⟩
        · intro other hother
          obtain ⟨chunk, hchunk, hother⟩ := List.mem_flatten.mp hother
          obtain ⟨k', -, rfl⟩ := List.mem_map.mp hchunk
          obtain ⟨file', hfile', heq⟩ := List.mem_map.mp hother
          rw [Prod.mk.injEq] at heq
          have hsame : file' = file :=
            List.inj_on_of_nodup_map hdistinct ((hsub k').subset hfile') hfile heq.1
          rw [← heq.2, hsame]
    · push Not at hall
      obtain ⟨file, hfile, hnone⟩ := hall
      obtain ⟨k, hk, hmem⟩ := hdealt file hfile
      have hfact : fact setup file = none := by
        rw [fact, Option.not_isSome_iff_eq_none.mp hnone]
        rfl
      have hraised : (analyseFiles setup ((deal n files).1 k).reverse).toOption = none := by
        rw [hchunk k]
        exact mapM_eq_none (List.mem_reverse.mpr hmem) hfact
      have houtcomes : ((List.range n).mapM fun i ↦
          (processResults setup schedule n (deal n files).1 i).getD (.error "Option")).toOption = none := by
        rw [toOption_mapM]
        refine mapM_eq_none (List.mem_range.mpr hk) ?_
        rw [hresult k hk, hraised]
      obtain ⟨e, he⟩ := toOption_eq_none houtcomes
      rw [he, mapM_eq_none hfile hfact]
      rfl

/-! ### Cache entries that are read -/

variable {request : Request} {requests : List Request} {cache : Files} {sourceHash text : String} {deps : Deps}

theorem mem_textLines {line : String} (h : line ∈ textLines text) : '\n' ∉ line.toList ∧ line ≠ "" := by
  obtain ⟨token, htoken, rfl⟩ := List.mem_map.mp h
  obtain ⟨hpiece, hne⟩ := List.mem_filter.mp htoken
  rw [String.toList_ofList]
  constructor
  · have hsame : (fun c : Char ↦ c == '\n') = fun c ↦ decide (c = '\n') := rfl
    rw [← hsame] at hpiece
    exact sep_notMem_of_mem_splitOn hpiece
  · intro hempty
    exact of_decide_eq_true hne (by rw [← String.toList_ofList (l := token), hempty]; rfl)

theorem lineValue_append (start value : String) : lineValue start (start ++ value) = some value := by
  rw [lineValue, String.toList_append, if_pos (List.isPrefixOf_iff_prefix.mpr (List.prefix_append _ _)),
    List.drop_left, String.ofList_toList]

theorem eq_append_of_lineValue {start line value : String} (h : lineValue start line = some value) :
    line = start ++ value := by
  rw [lineValue] at h
  split_ifs at h with hprefix
  obtain ⟨rest, hrest⟩ := List.isPrefixOf_iff_prefix.mp hprefix
  rw [← hrest, List.drop_left] at h
  rw [← Option.some.inj h, ← String.toList_inj, String.toList_append, String.toList_ofList, hrest]

theorem append_mem_of_mem_values {start value : String} {lines : List String}
    (h : value ∈ values start lines) : start ++ value ∈ lines := by
  obtain ⟨line, hline, hvalue⟩ := List.mem_filterMap.mp h
  exact eq_append_of_lineValue hvalue ▸ hline

/-- The values after one start are those written after it, none of those written after another. -/
theorem values_map_append (start : String) (xs : List String) : values start (xs.map (start ++ ·)) = xs := by
  induction xs with
  | nil => rfl
  | cons x xs ih =>
    rw [values, List.map_cons, List.filterMap_cons_some (lineValue_append start x)]
    exact congrArg _ ih

theorem values_map_other {start other : String} (hother : ∀ value, lineValue start (other ++ value) = none)
    (xs : List String) : values start (xs.map (other ++ ·)) = [] := by
  induction xs with
  | nil => rfl
  | cons x xs ih =>
    rw [values, List.map_cons, List.filterMap_cons_none (hother x)]
    exact ih

theorem values_append (start : String) (xs ys : List String) :
    values start (xs ++ ys) = values start xs ++ values start ys := List.filterMap_append

/-- Texts that differ at some character do not start alike. -/
theorem lineValue_other {start other : String} (h : ∀ rest, start.toList.isPrefixOf (other.toList ++ rest) = false)
    (value : String) : lineValue start (other ++ value) = none := by
  rw [lineValue, String.toList_append, if_neg (by rw [h]; exact Bool.false_ne_true)]

theorem values_cacheLines (deps : Deps) : values "load=" (cacheLines deps) = deps.loads ∧
    values "use=" (cacheLines deps) = deps.uses ∧ values "extra_dep=" (cacheLines deps) = deps.extraDeps ∧
    values "extra_output=" (cacheLines deps) = deps.extraOutputs ∧
    values "mention=" (cacheLines deps) = deps.holdepMentions := by
  have hother {start other : String} (h : ∀ rest, start.toList.isPrefixOf (other.toList ++ rest) = false)
      (xs : List String) : values start (xs.map (other ++ ·)) = [] := values_map_other (lineValue_other h) xs
  refine ⟨?_, ?_, ?_, ?_, ?_⟩
  · rw [cacheLines, values_append, values_append, values_append, values_append, values_map_append,
      hother (fun _ ↦ rfl), hother (fun _ ↦ rfl), hother (fun _ ↦ rfl), hother (fun _ ↦ rfl)]
    simp
  · rw [cacheLines, values_append, values_append, values_append, values_append, values_map_append,
      hother (fun _ ↦ rfl), hother (fun _ ↦ rfl), hother (fun _ ↦ rfl), hother (fun _ ↦ rfl)]
    simp
  · rw [cacheLines, values_append, values_append, values_append, values_append, values_map_append,
      hother (fun _ ↦ rfl), hother (fun _ ↦ rfl), hother (fun _ ↦ rfl), hother (fun _ ↦ rfl)]
    simp
  · rw [cacheLines, values_append, values_append, values_append, values_append, values_map_append,
      hother (fun _ ↦ rfl), hother (fun _ ↦ rfl), hother (fun _ ↦ rfl), hother (fun _ ↦ rfl)]
    simp
  · rw [cacheLines, values_append, values_append, values_append, values_append, values_map_append,
      hother (fun _ ↦ rfl), hother (fun _ ↦ rfl), hother (fun _ ↦ rfl), hother (fun _ ↦ rfl)]
    simp

theorem append_ne_empty {start : String} (hstart : start ≠ "") (value : String) : start ++ value ≠ "" :=
  fun hempty ↦ hstart (String.append_eq_empty_iff.mp hempty).1

theorem ne_empty_of_mem_cacheHeader {identity line : String} (hline : line ∈ cacheHeader identity sourceHash) :
    line ≠ "" := by
  simp only [cacheHeader, List.mem_cons, List.not_mem_nil, or_false] at hline
  rcases hline with rfl | rfl | rfl | rfl
  · decide
  · decide
  · exact append_ne_empty (by decide) _
  · exact append_ne_empty (by decide) _

theorem ne_empty_of_mem_cacheLines {line : String} (hline : line ∈ cacheLines deps) : line ≠ "" := by
  simp only [cacheLines, List.mem_append, List.mem_map] at hline
  obtain (((⟨x, -, rfl⟩ | ⟨x, -, rfl⟩) | ⟨x, -, rfl⟩) | ⟨x, -, rfl⟩) | ⟨x, -, rfl⟩ := hline
  all_goals exact append_ne_empty (by decide) _

/-- Assumes: the text after the header is that of other lines, none with a newline. These are read. -/
theorem readCacheText_of_cut (hheader : ∀ line ∈ cacheHeader setup.identity sourceHash, '\n' ∉ line.toList)
    {lines : List String} (hlines : ∀ line ∈ lines, '\n' ∉ line.toList ∧ line ≠ "")
    (hcut : terminated ((cacheLines deps).map String.toList) = terminated (lines.map String.toList)) :
    readCacheText setup sourceHash (cacheText setup sourceHash deps) =
      some ⟨values "load=" lines, values "use=" lines, values "extra_dep=" lines, values "extra_output=" lines,
        values "mention=" lines⟩ := by
  have hne (rest : List String) : cacheHeader setup.identity sourceHash ++ rest ≠ [] := by simp [cacheHeader]
  have hwritten : textLines (cacheText setup sourceHash deps) = cacheHeader setup.identity sourceHash ++ lines := by
    rw [cacheText, concatWith_newline (by simpa using hne _), List.map_append, terminated_append, hcut,
      ← terminated_append, ← List.map_append, ← concatWith_newline (by simpa using hne lines)]
    refine textLines_concatWith (hne lines) fun line hline ↦ ?_
    rcases List.mem_append.mp hline with hhead | hline
    · exact ⟨hheader line hhead, ne_empty_of_mem_cacheHeader hhead⟩
    · exact hlines line hline
  unfold readCacheText
  rw [hwritten]
  exact if_pos rfl

/-- Assumes: no line that is written has a newline. Facts are read from the entry written of them. -/
theorem readCacheText_of_plain (hheader : ∀ line ∈ cacheHeader setup.identity sourceHash, '\n' ∉ line.toList)
    (hlines : ∀ line ∈ cacheLines deps, '\n' ∉ line.toList) :
    readCacheText setup sourceHash (cacheText setup sourceHash deps) = some deps := by
  obtain ⟨hloads, huses, hextra, houtputs, hmentions⟩ := values_cacheLines deps
  rw [readCacheText_of_cut hheader (fun line hline ↦ ⟨hlines line hline, ne_empty_of_mem_cacheLines hline⟩) rfl,
    hloads, huses, hextra, houtputs, hmentions]

/-- What was read from an entry: its lines are lines of the entry, and the entry begins with the header. -/
theorem lines_of_readCacheText (h : readCacheText setup sourceHash text = some deps) :
    (∀ line ∈ cacheHeader setup.identity sourceHash ++ cacheLines deps, line ∈ textLines text) ∧
      ∃ rest, textLines text = cacheHeader setup.identity sourceHash ++ rest := by
  unfold readCacheText at h
  split at h
  · next version extractor analyser hash rest hlines =>
    split_ifs at h with hheader
    have hdeps := Option.some.inj h
    have htext : textLines text = cacheHeader setup.identity sourceHash ++ rest := by
      rw [hlines, ← hheader]
      rfl
    refine ⟨fun line hline ↦ ?_, rest, htext⟩
    rw [htext]
    rcases List.mem_append.mp hline with hhead | hline
    · exact List.mem_append_left _ hhead
    · refine List.mem_append_right _ ?_
      simp only [cacheLines, ← hdeps, List.mem_append, List.mem_map] at hline
      obtain (((⟨x, hx, rfl⟩ | ⟨x, hx, rfl⟩) | ⟨x, hx, rfl⟩) | ⟨x, hx, rfl⟩) | ⟨x, hx, rfl⟩ := hline
      all_goals exact append_mem_of_mem_values hx
  · cases h

/-- Headers of one text name one analyser and one source hash. -/
theorem cacheHeader_inj {identity identity' hash hash' : String} {rest rest' : List String}
    (h : cacheHeader identity hash ++ rest = cacheHeader identity' hash' ++ rest') :
    identity = identity' ∧ hash = hash' := by
  simp only [cacheHeader, List.cons_append, List.nil_append, List.cons.injEq, true_and] at h
  have hcancel : ∀ {start a b : String}, start ++ a = start ++ b → a = b := by
    intro start a b hab
    rw [← String.toList_inj, String.toList_append, String.toList_append, List.append_cancel_left_eq] at hab
    exact String.toList_inj.mp hab
  exact ⟨hcancel h.1, hcancel h.2.1⟩

/-- An entry that is read for one source hash is read for no other. -/
theorem readCacheText_other {hash' : String} (h : readCacheText setup sourceHash text = some deps)
    (hne : sourceHash ≠ hash') : readCacheText setup hash' text = none := by
  obtain ⟨-, rest, hlines⟩ := lines_of_readCacheText h
  cases hread : readCacheText setup hash' text with
  | none => rfl
  | some deps' =>
    obtain ⟨-, rest', hlines'⟩ := lines_of_readCacheText hread
    exact absurd (cacheHeader_inj (hlines.symm.trans hlines')).2 hne

/-- Facts that were read from an entry are read from the entry written of them. -/
theorem readCacheText_cacheText (h : readCacheText setup sourceHash text = some deps) :
    readCacheText setup sourceHash (cacheText setup sourceHash deps) = some deps := by
  obtain ⟨hmem, -⟩ := lines_of_readCacheText h
  exact readCacheText_of_plain (fun line hline ↦ (mem_textLines (hmem line (List.mem_append_left _ hline))).1)
    fun line hline ↦ (mem_textLines (hmem line (List.mem_append_right _ hline))).1

/-- The facts of a request alone. -/
def alone (setup : Setup) (cache : Files) (request : Request) : Option Deps :=
  match (readCached setup request cache).1 with
  | some deps => some deps
  | none => factsOf (setup.answer request.sourcePath)

theorem toOption_extractCachedWithHash :
    (extractCachedWithHash setup request cache).1.toOption = alone setup cache request := by
  have hone : ∀ file ∈ [("1", request.sourcePath)], file.1 ≠ "" := by
    intro file hfile
    rw [List.mem_singleton.mp hfile]
    exact (by decide : "1" ≠ "")
  have hfact : (analyseFiles setup [("1", request.sourcePath)]).toOption =
      [("1", request.sourcePath)].mapM (fact setup) := toOption_analyseFiles (by simp) hone
  rw [List.mapM_cons, fact, List.mapM_nil] at hfact
  rw [extractCachedWithHash, alone]
  rcases readCached setup request cache with ⟨answer, files⟩
  cases answer with
  | some deps => rfl
  | none =>
    dsimp only
    rw [extractWithAnalyser]
    cases hanswer : factsOf (setup.answer request.sourcePath) with
    | none =>
      rw [hanswer] at hfact
      obtain ⟨e, he⟩ := toOption_eq_none hfact
      rw [he]
      rfl
    | some facts =>
      rw [hanswer] at hfact
      rw [toOption_eq_some hfact]
      rfl

/-! ### Requests together -/

/-- Requests with one cache path have one source hash, and none has its cache path in the shared cache, as
holbuild's requests do: a source names its own cache path. -/
structure Apart (setup : Setup) (requests : List Request) : Prop where
  own : ∀ r ∈ requests, ∀ r' ∈ requests, r.cachePath = r'.cachePath → r.sourceHash = r'.sourceHash
  shared : ∀ r ∈ requests, ∀ r' ∈ requests, r.cachePath ≠ setup.sharedCachePath r'.sourceHash

/-- What the entries can be while the requests are read: as they were, or with copies of shared entries. -/
def Copied (setup : Setup) (requests : List Request) (cache files : Files) : Prop :=
  ∀ path, files path = cache path ∨ ∃ r ∈ requests, ∃ deps, r.cachePath = path ∧
    readCache setup cache path r.sourceHash = none ∧
    readCache setup cache (setup.sharedCachePath r.sourceHash) r.sourceHash = some deps ∧
    files path = some (cacheText setup r.sourceHash deps)

variable {files' : Files}

/-- What was read from the entry at a path is read from the entry written there. -/
theorem readCache_written {path : String} (h : readCache setup cache path sourceHash = some deps) :
    readCacheText setup sourceHash (cacheText setup sourceHash deps) = some deps := by
  obtain ⟨text, -, htext⟩ := Option.bind_eq_some_iff.mp h
  exact readCacheText_cacheText htext

theorem readCached_own (h : readCache setup cache request.cachePath request.sourceHash = some deps) :
    readCached setup request cache = (some deps, cache) := by
  rw [readCached, h]

theorem readCached_shared (h : readCache setup cache request.cachePath request.sourceHash = none)
    (hshared : readCache setup cache (setup.sharedCachePath request.sourceHash) request.sourceHash = some deps) :
    readCached setup request cache =
      (some deps, writeCache setup cache request.cachePath request.sourceHash deps) := by
  rw [readCached, h]
  dsimp only
  rw [hshared]

theorem readCached_miss (h : readCache setup cache request.cachePath request.sourceHash = none)
    (hshared : readCache setup cache (setup.sharedCachePath request.sourceHash) request.sourceHash = none) :
    readCached setup request cache = (none, cache) := by
  rw [readCached, h]
  dsimp only
  rw [hshared]

/-- A copy of a shared entry is one. -/
theorem Copied.write (hcopied : Copied setup requests cache files') (hmem : request ∈ requests)
    (hmiss : readCache setup cache request.cachePath request.sourceHash = none)
    (hhit : readCache setup cache (setup.sharedCachePath request.sourceHash) request.sourceHash = some deps) :
    Copied setup requests cache (writeCache setup files' request.cachePath request.sourceHash deps) := by
  intro path
  rw [writeCache]
  split_ifs with hfails
  · exact hcopied path
  · by_cases hpath : path = request.cachePath
    · rw [hpath, Function.update_self]
      exact .inr ⟨request, hmem, deps, rfl, hmiss, hhit, rfl⟩
    · rw [Function.update_of_ne hpath]
      exact hcopied path

/-- A request is read as it was before the copies. -/
theorem Copied.read (hcopied : Copied setup requests cache files') (hapart : Apart setup requests)
    (hmem : request ∈ requests) : (readCached setup request files').1 = (readCached setup request cache).1 ∧
      Copied setup requests cache (readCached setup request files').2 := by
  have hshared : readCache setup files' (setup.sharedCachePath request.sourceHash) request.sourceHash =
      readCache setup cache (setup.sharedCachePath request.sourceHash) request.sourceHash := by
    rcases hcopied (setup.sharedCachePath request.sourceHash) with hsame | ⟨r, hr, _, hpath, -⟩
    · rw [readCache, hsame, readCache]
    · exact absurd hpath (hapart.shared r hr request hmem)
  rcases hcopied request.cachePath with hsame | ⟨r, hr, deps, hpath, hmiss, hhit, hcopy⟩
  · have hproject : readCache setup files' request.cachePath request.sourceHash =
        readCache setup cache request.cachePath request.sourceHash := by rw [readCache, hsame, readCache]
    cases hmiss : readCache setup cache request.cachePath request.sourceHash with
    | some deps =>
      rw [readCached_own (hproject.trans hmiss), readCached_own hmiss]
      exact ⟨rfl, hcopied⟩
    | none =>
      cases hhit : readCache setup cache (setup.sharedCachePath request.sourceHash) request.sourceHash with
      | none =>
        rw [readCached_miss (hproject.trans hmiss) (hshared.trans hhit), readCached_miss hmiss hhit]
        exact ⟨rfl, hcopied⟩
      | some deps =>
        rw [readCached_shared (hproject.trans hmiss) (hshared.trans hhit), readCached_shared hmiss hhit]
        exact ⟨rfl, hcopied.write hmem hmiss hhit⟩
  · -- Another request for the same hash has copied the shared entry, which holds the same facts.
    have hhash : r.sourceHash = request.sourceHash := hapart.own r hr request hmem hpath
    rw [hhash] at hmiss hhit hcopy
    have hproject : readCache setup files' request.cachePath request.sourceHash = some deps := by
      rw [readCache, hcopy, Option.bind_some]
      exact readCache_written hhit
    rw [readCached_own hproject, readCached_shared hmiss hhit]
    exact ⟨rfl, hcopied⟩

/-- What reading requests leaves: each with the facts it has alone, or missing. -/
theorem foldl_cachedOrMissing (hapart : Apart setup requests) {entries : List (String × Request)}
    (hentries : ∀ entry ∈ entries, entry.2 ∈ requests) {reading : Reading}
    (hcopied : Copied setup requests cache reading.files) :
    (entries.foldl (cachedOrMissing setup) reading).cached =
        (entries.filterMap fun entry ↦ (readCached setup entry.2 cache).1.map (entry.1, ·)).reverse ++
          reading.cached ∧
      (entries.foldl (cachedOrMissing setup) reading).missing =
        (entries.filter fun entry ↦ (readCached setup entry.2 cache).1.isNone).reverse ++ reading.missing := by
  induction entries generalizing reading with
  | nil => exact ⟨rfl, rfl⟩
  | cons entry rest ih =>
    obtain ⟨hentry, hrest⟩ := List.forall_mem_cons.mp hentries
    obtain ⟨hread, hnext⟩ := hcopied.read hapart hentry
    rw [List.foldl_cons]
    rcases hanswer : readCached setup entry.2 reading.files with ⟨answer, files⟩
    rw [hanswer] at hread hnext
    cases answer with
    | some deps =>
      have hstep : cachedOrMissing setup reading entry =
          ⟨(entry.1, deps) :: reading.cached, reading.missing, files⟩ := by rw [cachedOrMissing, hanswer]
      obtain ⟨hcached, hmissing⟩ := @ih hrest ⟨(entry.1, deps) :: reading.cached, reading.missing, files⟩ hnext
      rw [hstep, hcached, hmissing, List.filterMap_cons, List.filter_cons, ← hread]
      simp
    | none =>
      have hstep : cachedOrMissing setup reading entry =
          ⟨reading.cached, entry :: reading.missing, files⟩ := by rw [cachedOrMissing, hanswer]
      obtain ⟨hcached, hmissing⟩ := @ih hrest ⟨reading.cached, entry :: reading.missing, files⟩ hnext
      rw [hstep, hcached, hmissing, List.filterMap_cons, List.filter_cons, ← hread]
      simp

theorem mem_enumerate {i : ℕ} {entry : String × Request} (h : entry ∈ enumerate i requests) :
    entry.2 ∈ requests ∧ ∃ k, i ≤ k ∧ entry.1 = String.ofList (decimal k) := by
  induction requests generalizing i with
  | nil => exact absurd h List.not_mem_nil
  | cons r rest ih =>
    rcases List.mem_cons.mp h with rfl | h
    · exact ⟨List.mem_cons_self, i, le_rfl, rfl⟩
    · obtain ⟨hmem, k, hk, hid⟩ := ih h
      exact ⟨List.mem_cons_of_mem _ hmem, k, Nat.le_of_succ_le hk, hid⟩

theorem nodup_enumerate (i : ℕ) : ((enumerate i requests).map Prod.fst).Nodup := by
  induction requests generalizing i with
  | nil => exact List.nodup_nil
  | cons r rest ih =>
    refine List.nodup_cons.mpr ⟨fun hmem ↦ ?_, ih (i + 1)⟩
    obtain ⟨entry, hentry, heq⟩ := List.mem_map.mp hmem
    obtain ⟨-, k, hk, hid⟩ := mem_enumerate hentry
    have hsame : k = i := decimal_injective (String.ofList_injective (hid.symm.trans heq))
    exact absurd hk (by rw [hsame]; exact Nat.not_succ_le_self i)

theorem map_snd_enumerate (i : ℕ) : (enumerate i requests).map Prod.snd = requests := by
  induction requests generalizing i with
  | nil => rfl
  | cons r rest ih => exact congrArg (r :: ·) (ih (i + 1))

theorem ne_empty_of_mem_enumerate {i : ℕ} {entry : String × Request} (h : entry ∈ enumerate i requests) :
    entry.1 ≠ "" := by
  obtain ⟨-, k, -, hid⟩ := mem_enumerate h
  intro hempty
  refine decimal_ne_nil k ?_
  rw [← String.toList_ofList (l := decimal k), ← hid, hempty]
  rfl

/-- The analyser answers each missing request. -/
theorem toOption_analysed {schedule : Schedule} {missing : List (String × Request)}
    (hdistinct : (missing.map Prod.fst).Nodup) (hids : ∀ entry ∈ missing, entry.1 ≠ "") :
    (analysed setup schedule missing cache).1.toOption =
      (missing.reverse.map fun entry ↦ (entry.1, entry.2.sourcePath)).mapM (fact setup) := by
  rw [analysed]
  split_ifs with hnone
  · rw [hnone]
    rfl
  · have hnames : (missing.reverse.map fun entry ↦ (entry.1, entry.2.sourcePath)).map Prod.fst =
        (missing.map Prod.fst).reverse := by
      rw [List.map_map, ← List.map_reverse]
      rfl
    have hrun := @toOption_runAnalyserParallel setup
      (missing.reverse.map fun entry ↦ (entry.1, entry.2.sourcePath)) schedule
      (hnames ▸ (List.reverse_perm _).nodup_iff.mpr hdistinct) (by
        intro file hfile
        obtain ⟨entry, hentry, rfl⟩ := List.mem_map.mp hfile
        exact hids entry (List.mem_reverse.mp hentry))
    rw [← hrun]
    cases hresults : runAnalyserParallel setup schedule
        (missing.reverse.map fun entry ↦ (entry.1, entry.2.sourcePath)) with
    | error e => rfl
    | ok results =>
      refine congrArg some (List.filter_eq_self.mpr fun result hresult ↦ ?_)
      rw [hresults] at hrun
      obtain ⟨file, hfile, hfact⟩ := exists_of_mem_mapM hrun.symm hresult
      obtain ⟨entry, hentry, rfl⟩ := List.mem_map.mp hfile
      obtain ⟨deps, -, rfl⟩ := Option.map_eq_some_iff.mp hfact
      rw [Option.isSome_iff_ne_none, dictionary_eq_reverse, Ne, List.lookup_eq_none_iff]
      exact fun hnot ↦ absurd (hnot entry hentry) (by simp)

/-- Requests together get the facts each gets alone. -/
theorem toOption_prefetchCachedWithHash {schedule : Schedule} (hapart : Apart setup requests) :
    (prefetchCachedWithHash setup schedule requests cache).1.toOption =
      requests.mapM fun request ↦ (extractCachedWithHash setup request cache).1.toOption.map some := by
  have hcopied : Copied setup requests cache cache := fun _ ↦ .inl rfl
  obtain ⟨hcached, hmissing⟩ := @foldl_cachedOrMissing _ _ _ hapart (enumerate 1 requests)
    (fun entry hentry ↦ (mem_enumerate hentry).1) ⟨[], [], cache⟩ hcopied
  rw [prefetchCachedWithHash]
  generalize (enumerate 1 requests).foldl (cachedOrMissing setup) ⟨[], [], cache⟩ = reading at hcached hmissing
  dsimp only at hcached hmissing ⊢
  rw [List.append_nil] at hcached hmissing
  have hsub : (reading.missing.map Prod.fst).reverse.Sublist ((enumerate 1 requests).map Prod.fst) := by
    rw [hmissing, List.map_reverse, List.reverse_reverse]
    exact List.filter_sublist.map _
  have hanalysed := @toOption_analysed setup reading.files schedule reading.missing
    ((List.reverse_perm _).nodup_iff.mp ((nodup_enumerate 1).sublist hsub)) (by
      intro entry hentry
      rw [hmissing, List.mem_reverse] at hentry
      exact ne_empty_of_mem_enumerate (List.mem_of_mem_filter hentry))
  have hrequests : (requests.mapM fun request ↦
      (extractCachedWithHash setup request cache).1.toOption.map some) =
      (enumerate 1 requests).mapM fun entry ↦ (alone setup cache entry.2).map some := by
    conv_lhs => rw [← @map_snd_enumerate requests 1, List.mapM_map]
    simp only [toOption_extractCachedWithHash]
    rfl
  rw [hrequests]
  by_cases hall : ∀ entry ∈ enumerate 1 requests, (alone setup cache entry.2).isSome = true
  · -- Each name is looked up among the cached and the analysed facts, and found with its own.
    have hvalue (entry : String × Request) (hentry : entry ∈ enumerate 1 requests) :
        alone setup cache entry.2 = some ((alone setup cache entry.2).getD emptyDeps) := by
      obtain ⟨deps, hdeps⟩ := Option.isSome_iff_exists.mp (hall entry hentry)
      rw [hdeps]
      rfl
    have hmiss : ∀ entry ∈ reading.missing.reverse, fact setup (entry.1, entry.2.sourcePath) =
        some (entry.1, (alone setup cache entry.2).getD emptyDeps) := by
      intro entry hentry
      rw [hmissing, List.reverse_reverse] at hentry
      obtain ⟨hentry, hnone⟩ := List.mem_filter.mp hentry
      have halone : alone setup cache entry.2 = factsOf (setup.answer entry.2.sourcePath) := by
        rw [alone, Option.isNone_iff_eq_none.mp hnone]
      rw [fact, ← halone, hvalue entry hentry]
      rfl
    rw [List.mapM_map] at hanalysed
    have hresults := toOption_eq_some (hanalysed.trans (mapM_eq_some hmiss))
    rw [mapM_eq_some (g := fun entry ↦ some ((alone setup cache entry.2).getD emptyDeps))
      fun entry hentry ↦ congrArg (Option.map some) (hvalue entry hentry)]
    rcases hpair : analysed setup schedule reading.missing reading.files with ⟨answer, files⟩
    rw [hpair] at hresults
    dsimp only at hresults ⊢
    rw [hresults]
    refine congrArg some (List.map_congr_left fun entry hentry ↦ ?_)
    have hsame (entry' : String × Request) (hentry' : entry' ∈ enumerate 1 requests)
        (heq : entry'.1 = entry.1) : entry' = entry :=
      List.inj_on_of_nodup_map (nodup_enumerate 1) hentry' hentry heq
    apply lookup_dictionary
    · rw [hcached, hmissing, List.reverse_reverse]
      cases hread : (readCached setup entry.2 cache).1 with
      | some deps =>
        have halone : alone setup cache entry.2 = some deps := by rw [alone, hread]
        refine List.mem_append_left _ (List.mem_reverse.mpr (List.mem_filterMap.mpr ⟨entry, hentry, ?_⟩))
        rw [hread, halone]
        rfl
      | none =>
        refine List.mem_append_right _ (List.mem_map.mpr ⟨entry, List.mem_filter.mpr ⟨hentry, ?_⟩, rfl⟩)
        rw [hread]
        rfl
    · intro other hother
      rw [hcached, hmissing, List.reverse_reverse] at hother
      rcases List.mem_append.mp hother with hother | hother
      · obtain ⟨entry', hentry', hread⟩ := List.mem_filterMap.mp (List.mem_reverse.mp hother)
        obtain ⟨deps, hdeps, heq⟩ := Option.map_eq_some_iff.mp hread
        rw [Prod.mk.injEq] at heq
        rw [hsame entry' hentry' heq.1] at hdeps
        have halone : alone setup cache entry.2 = some deps := by rw [alone, hdeps]
        rw [halone, ← heq.2]
        rfl
      · obtain ⟨entry', hentry', heq⟩ := List.mem_map.mp hother
        rw [Prod.mk.injEq] at heq
        rw [← heq.2, hsame entry' (List.mem_of_mem_filter hentry') heq.1]
  · push Not at hall
    obtain ⟨entry, hentry, hnot⟩ := hall
    have hnone : alone setup cache entry.2 = none := Option.not_isSome_iff_eq_none.mp hnot
    have hread : (readCached setup entry.2 cache).1 = none := by
      rw [alone] at hnone
      cases hread : (readCached setup entry.2 cache).1 with
      | none => rfl
      | some deps =>
        rw [hread] at hnone
        cases hnone
    have hfact : fact setup (entry.1, entry.2.sourcePath) = none := by
      rw [alone, hread] at hnone
      have hanswer : factsOf (setup.answer entry.2.sourcePath) = none := hnone
      rw [fact, hanswer]
      rfl
    have hmem : entry ∈ reading.missing.reverse := by
      rw [hmissing, List.reverse_reverse]
      exact List.mem_filter.mpr ⟨hentry, by rw [hread]; rfl⟩
    rw [mapM_eq_none (List.mem_map_of_mem hmem) hfact] at hanalysed
    obtain ⟨e, he⟩ := toOption_eq_none hanalysed
    rw [mapM_eq_none hentry (by rw [hnone]; rfl)]
    rcases hpair : analysed setup schedule reading.missing reading.files with ⟨answer, files⟩
    rw [hpair] at he
    dsimp only at he ⊢
    rw [he]
    rfl

/-- Requests together get the facts each gets alone from the same entries, however many processes answer
and in whatever order these end; the processes' files get their own facts; and a response is accepted only
if it answers each requested file exactly once, so that none that lost lines is. -/
theorem facts_independent (setup : Setup) (schedule : Schedule) (requests : List Request) (cache : Files)
    (hapart : Apart setup requests) :
    (prefetchCachedWithHash setup schedule requests cache).1.toOption =
        requests.mapM (fun request ↦ (extractCachedWithHash setup request cache).1.toOption.map some) ∧
      (∀ files : List (String × String), (files.map Prod.fst).Nodup → (∀ file ∈ files, file.1 ≠ "") →
        (runAnalyserParallel setup schedule files).toOption = files.mapM (fact setup)) ∧
      ∀ text files results, parseAnalyserResponse text files = .ok results →
        (files.map Prod.fst).Nodup ∧ results.map Prod.fst = (textLines text).filterMap beginId ∧
          (results.map Prod.fst).Perm (files.map Prod.fst) ∧
          ∀ text', textLines text' <+: textLines text → textLines text' ≠ textLines text →
            ∀ results', parseAnalyserResponse text' files ≠ .ok results' := by
  refine ⟨toOption_prefetchCachedWithHash hapart, fun _ ↦ toOption_runAnalyserParallel, ?_⟩
  intro text files results haccepted
  obtain ⟨hdistinct, hbegun, hperm⟩ := parseAnalyserResponse_accepts haccepted
  exact ⟨hdistinct, hbegun, hperm, fun _ ↦ parseAnalyserResponse_strictPrefix haccepted⟩

/-- An analyser that finds a load with a newline in `b.sml`, and nothing in other files. -/
def newlineSetup : Setup where
  identity := "i"
  sharedCachePath hash := "/shared/" ++ hash
  writeFails _ _ := false
  answer path := if path = "b.sml" then ⟨["x\ny"], [], [], [], []⟩ else emptyDeps
  analyserJobs := 2

/-- Processes that end in the order they were started. -/
def inOrder : Schedule := ⟨List.range, fun _ ↦ List.Perm.refl _⟩

/-- The entries that were written for `b.sml` at a path, and for a file with another hash in the shared
cache. -/
def newlineCache : Files := fun path ↦
  if path = "p" then some (cacheText newlineSetup "2" ⟨["x\ny"], [], [], [], []⟩)
  else if path = "/shared/1" then some (cacheText newlineSetup "1" emptyDeps)
  else none

theorem facts_independent_newline :
    Apart newlineSetup [⟨"q", "a.sml", "1"⟩, ⟨"p", "b.sml", "2"⟩] ∧
      (prefetchCachedWithHash newlineSetup inOrder [⟨"q", "a.sml", "1"⟩, ⟨"p", "b.sml", "2"⟩]
        newlineCache).1.toOption = [⟨"q", "a.sml", "1"⟩, ⟨"p", "b.sml", "2"⟩].mapM fun request ↦
          (extractCachedWithHash newlineSetup request newlineCache).1.toOption.map some := by
  have hapart : Apart newlineSetup [⟨"q", "a.sml", "1"⟩, ⟨"p", "b.sml", "2"⟩] := by
    constructor
    · decide
    · decide
  exact ⟨hapart, (facts_independent newlineSetup inOrder _ newlineCache hapart).1⟩

/-- Of two requests the first is cached and the second is not. -/
theorem toOption_prefetch_pair {schedule : Schedule} {first second : Request} {deps' : Deps}
    (hcached : readCached setup first cache = (some deps, files')) {files : Files}
    (hmissed : readCached setup second files' = (none, files))
    (hfact : factsOf (setup.answer second.sourcePath) = some deps') :
    (prefetchCachedWithHash setup schedule [first, second] cache).1.toOption = some [some deps, some deps'] := by
  have hfirst : String.ofList (decimal 1) = "1" := by decide
  have hsecond : String.ofList (decimal (1 + 1)) = "2" := by decide
  have hanalysed := @toOption_analysed setup files schedule [("2", second)] (by simp) (by simp)
  rw [List.reverse_singleton, List.map_singleton, List.mapM_cons, List.mapM_nil, fact, hfact] at hanalysed
  rw [prefetchCachedWithHash]
  simp only [enumerate, List.foldl_cons, List.foldl_nil, cachedOrMissing, hcached, hmissed, hfirst, hsecond]
  generalize analysed setup schedule [("2", second)] files = outcome at hanalysed ⊢
  obtain ⟨results, files⟩ := outcome
  obtain rfl := toOption_eq_some hanalysed
  rfl

/-- Of two requests with one cache path and different hashes, the first overwrites the entry of the second,
which was written for it and is read otherwise than the analyser answered. -/
theorem shared_cachePath_interferes :
    (prefetchCachedWithHash newlineSetup inOrder [⟨"p", "a.sml", "1"⟩, ⟨"p", "b.sml", "2"⟩]
        newlineCache).1.toOption = some [some emptyDeps, some ⟨["x\ny"], [], [], [], []⟩] ∧
      (extractCachedWithHash newlineSetup ⟨"p", "b.sml", "2"⟩ newlineCache).1.toOption =
        some ⟨["x"], [], [], [], []⟩ := by
  have hcut : readCacheText newlineSetup "2" (cacheText newlineSetup "2" ⟨["x\ny"], [], [], [], []⟩) =
      some ⟨["x"], [], [], [], []⟩ := by
    rw [readCacheText_of_cut (by decide) (by decide : ∀ line ∈ ["load=x", "y"], '\n' ∉ line.toList ∧ line ≠ "")
      (by simp [cacheLines])]
    decide
  have hempty : readCacheText newlineSetup "1" (cacheText newlineSetup "1" emptyDeps) = some emptyDeps :=
    readCacheText_of_plain (by decide) (by simp [cacheLines, emptyDeps])
  have hother : readCacheText newlineSetup "1" (cacheText newlineSetup "2" ⟨["x\ny"], [], [], [], []⟩) = none :=
    readCacheText_other hcut (by decide)
  have hmissing : readCacheText newlineSetup "2" (cacheText newlineSetup "1" emptyDeps) = none :=
    readCacheText_other hempty (by decide)
  have hproject : newlineCache "p" = some (cacheText newlineSetup "2" ⟨["x\ny"], [], [], [], []⟩) := if_pos rfl
  have hcopy : newlineCache (newlineSetup.sharedCachePath "1") = some (cacheText newlineSetup "1" emptyDeps) := by
    rw [newlineCache, if_neg (by decide), if_pos (by decide)]
  have hnone : newlineCache (newlineSetup.sharedCachePath "2") = none := by
    rw [newlineCache, if_neg (by decide), if_neg (by decide)]
  have hwrites : newlineSetup.writeFails newlineCache "p" = false := rfl
  have hwritten : writeCache newlineSetup newlineCache "p" "1" emptyDeps =
      Function.update newlineCache "p" (some (cacheText newlineSetup "1" emptyDeps)) := by
    rw [writeCache, hwrites, if_neg Bool.false_ne_true]
  have hshared : readCached newlineSetup ⟨"p", "a.sml", "1"⟩ newlineCache =
      (some emptyDeps, writeCache newlineSetup newlineCache "p" "1" emptyDeps) := by
    refine readCached_shared ?_ ?_
    · rw [readCache, hproject, Option.bind_some, hother]
    · rw [readCache, hcopy, Option.bind_some, hempty]
  have hmissed : readCached newlineSetup ⟨"p", "b.sml", "2"⟩
      (writeCache newlineSetup newlineCache "p" "1" emptyDeps) =
        (none, writeCache newlineSetup newlineCache "p" "1" emptyDeps) := by
    rw [hwritten]
    refine readCached_miss ?_ ?_
    · rw [readCache, Function.update_self, Option.bind_some, hmissing]
    · rw [readCache, Function.update_of_ne (by decide), hnone, Option.bind_none]
  constructor
  · exact toOption_prefetch_pair hshared hmissed (by decide)
  · have hown : readCached newlineSetup ⟨"p", "b.sml", "2"⟩ newlineCache = (some ⟨["x"], [], [], [], []⟩, newlineCache) :=
      readCached_own (by rw [readCache, hproject, Option.bind_some, hcut])
    rw [extractCachedWithHash, hown]
    rfl

end Holbuild.Analyser
