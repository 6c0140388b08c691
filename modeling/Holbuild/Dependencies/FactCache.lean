import Holbuild.Analyser.Prefetch
import Holbuild.Dependencies.Scanner

/-!
# Facts that come back from the dependency cache

An entry of the dependency cache has a line for each fact, with the fact as it is. Its reader cuts the
text at newlines, so facts come back as they were analysed exactly if none of them has a newline
(`readCacheText_cacheText_iff`). A string literal of a source may have one, and then what follows it is read
as a line of its own, perhaps as another fact (`newline_becomes_use`).

`Stored` are the states of the caches that any processes leave, each writing for its own analyser. The
header of an entry names the source hash and the analyser, so no entry is read that was written for others.
-/

set_option autoImplicit false
set_option relaxedAutoImplicit false

namespace Holbuild.Dependencies

open Library Analyser

/-! ### Lines that are read back -/

/-- A text in one line. -/
def Plain (s : String) : Prop := '\n' ∉ s.toList

instance (s : String) : Decidable (Plain s) := inferInstanceAs (Decidable (_ ∉ _))

/-- All facts of a source, of any kind. -/
def allFacts (deps : Deps) : List String :=
  deps.loads ++ deps.uses ++ deps.extraDeps ++ deps.extraOutputs ++ deps.holdepMentions

variable {setup : Setup} {request : Request} {files : Files} {sourceHash : String} {deps : Deps}

theorem plain_append {start value : String} : Plain (start ++ value) ↔ Plain start ∧ Plain value := by
  rw [Plain, String.toList_append, List.mem_append, not_or, Plain, Plain]

/-- The lines after the header are in one line each exactly if the facts are. -/
theorem plain_cacheLines : (∀ line ∈ cacheLines deps, Plain line) ↔ ∀ fact ∈ allFacts deps, Plain fact := by
  have hkind : ∀ start : String, Plain start → ∀ facts : List String,
      (∀ line ∈ facts.map (start ++ ·), Plain line) ↔ ∀ fact ∈ facts, Plain fact := by
    intro start hstart facts
    rw [List.forall_mem_map]
    refine forall₂_congr fun fact _ ↦ ?_
    rw [plain_append, and_iff_right hstart]
  simp only [cacheLines, allFacts, List.forall_mem_append, hkind "load=" (by decide),
    hkind "use=" (by decide), hkind "extra_dep=" (by decide), hkind "extra_output=" (by decide),
    hkind "mention=" (by decide)]

theorem plain_cacheHeader {identity : String} (hidentity : Plain identity) (hhash : Plain sourceHash) :
    ∀ line ∈ cacheHeader identity sourceHash, Plain line := by
  intro line hline
  simp only [cacheHeader, List.mem_cons, List.not_mem_nil, or_false] at hline
  rcases hline with rfl | rfl | rfl | rfl
  · decide
  · decide
  · exact plain_append.mpr ⟨by decide, hidentity⟩
  · exact plain_append.mpr ⟨by decide, hhash⟩

/-- Facts are read from the entry written of them exactly if each is in one line. -/
theorem readCacheText_cacheText_iff (hidentity : Plain setup.identity) (hhash : Plain sourceHash) :
    readCacheText setup sourceHash (cacheText setup sourceHash deps) = some deps ↔
      ∀ fact ∈ allFacts deps, Plain fact := by
  rw [← plain_cacheLines]
  constructor
  · intro h line hline
    exact (mem_textLines ((lines_of_readCacheText h).1 line (List.mem_append_right _ hline))).1
  · exact readCacheText_of_plain (plain_cacheHeader hidentity hhash)

/-! ### Entries of any processes -/

/-- The states of the caches that processes leave, where each writes what is allowed for its analyser and
a source hash. Entries may be removed, and writes may fail. -/
inductive Stored (allowed : String → String → Deps → Prop) : Files → Prop
  | empty : Stored allowed fun _ ↦ none
  | write {files : Files} (writer : Setup) (path hash : String) (deps : Deps)
    (hidentity : Plain writer.identity) (hhash : Plain hash)
    (hallowed : allowed writer.identity hash deps) :
    Stored allowed files → Stored allowed (writeCache writer files path hash deps)
  | remove {files : Files} (path : String) :
    Stored allowed files → Stored allowed (Function.update files path none)

variable {allowed : String → String → Deps → Prop}

/-- Every entry was written by some process. -/
theorem Stored.written (h : Stored allowed files) {path text : String} (htext : files path = some text) :
    ∃ writer hash deps, Plain writer.identity ∧ Plain hash ∧ allowed writer.identity hash deps ∧
      text = cacheText writer hash deps := by
  induction h with
  | empty => cases htext
  | @write files writer path' hash deps hidentity hhash hallowed _ ih =>
    rw [writeCache] at htext
    split_ifs at htext with hfails
    · exact ih htext
    · by_cases hpath : path = path'
      · rw [hpath, Function.update_self] at htext
        exact ⟨writer, hash, deps, hidentity, hhash, hallowed, (Option.some.inj htext).symm⟩
      · rw [Function.update_of_ne hpath] at htext
        exact ih htext
  | @remove files path' _ ih =>
    by_cases hpath : path = path'
    · rw [hpath, Function.update_self] at htext
      cases htext
    · rw [Function.update_of_ne hpath] at htext
      exact ih htext

/-- The first lines of an entry are its header, whatever the facts are. -/
theorem textLines_cacheText (hidentity : Plain setup.identity) (hhash : Plain sourceHash) :
    ∃ rest, textLines (cacheText setup sourceHash deps) = cacheHeader setup.identity sourceHash ++ rest := by
  have hplain := plain_cacheHeader hidentity hhash
  have hne : (cacheHeader setup.identity sourceHash ++ cacheLines deps).map String.toList ≠ [] := by
    simp [cacheHeader]
  have hheader : ∀ line ∈ (cacheHeader setup.identity sourceHash).map String.toList, '\n' ∉ line := by
    intro line hline
    obtain ⟨s, hs, rfl⟩ := List.mem_map.mp hline
    exact hplain s hs
  have hkept : ((cacheHeader setup.identity sourceHash).map String.toList).filter (fun piece ↦ piece ≠ []) =
      (cacheHeader setup.identity sourceHash).map String.toList := by
    refine List.filter_eq_self.mpr fun line hline ↦ ?_
    simp only [cacheHeader, List.map_cons, List.map_nil, List.mem_cons, List.not_mem_nil,
      or_false] at hline
    rcases hline with rfl | rfl | rfl | rfl
    · decide
    · decide
    · simp
    · simp
  have hsame : (fun c : Char ↦ decide (c = '\n')) = fun c ↦ c == '\n' := rfl
  rw [textLines, cacheText, String.toList_ofList, concatWith_newline hne, List.map_append,
    terminated_append, tokens, hsame, ← List.splitOn, splitOn_terminated_append hheader,
    List.filter_append, hkept, List.map_append, List.map_map]
  refine ⟨_, congrArg (· ++ _) ?_⟩
  conv_rhs => rw [← List.map_id (cacheHeader setup.identity sourceHash)]
  exact List.map_congr_left fun text _ ↦ String.ofList_toList

/-- What is read was written for this analyser and this source hash. -/
theorem Stored.read (h : Stored allowed files) {path : String}
    (hread : readCache setup files path sourceHash = some deps) :
    ∃ written, allowed setup.identity sourceHash written ∧
      files path = some (cacheText setup sourceHash written) := by
  obtain ⟨text, htext, hdeps⟩ := Option.bind_eq_some_iff.mp hread
  obtain ⟨writer, hash, written, hidentity, hhash, hallowed, rfl⟩ := h.written htext
  have hlines : ∃ rest, textLines (cacheText writer hash written) = cacheHeader writer.identity hash ++ rest :=
    textLines_cacheText hidentity hhash
  obtain ⟨rest, hwriter⟩ := hlines
  obtain ⟨-, rest', hreader⟩ := lines_of_readCacheText hdeps
  obtain ⟨hidentities, rfl⟩ := cacheHeader_inj (hwriter.symm.trans hreader)
  refine ⟨written, hidentities ▸ hallowed, ?_⟩
  rw [htext, cacheText, hidentities, cacheText]

/-! ### What the cache returns -/

/-- The cache returns what was analysed for a request: from an entry just written, from the project's copy
or the shared one, and from any caches whose entries are what was analysed. -/
structure CacheReturns (setup : Setup) (request : Request) (deps : Deps) : Prop where
  written : ∀ files path, setup.writeFails files path = false →
    readCache setup (writeCache setup files path request.sourceHash deps) path request.sourceHash =
      some deps
  project : ∀ files, files request.cachePath = some (cacheText setup request.sourceHash deps) →
    (readCached setup request files).1 = some deps
  shared : ∀ files, readCache setup files request.cachePath request.sourceHash = none →
    files (setup.sharedCachePath request.sourceHash) = some (cacheText setup request.sourceHash deps) →
      (readCached setup request files).1 = some deps
  analysed : ∀ facts : String → String → Deps, facts setup.identity request.sourceHash = deps →
    ∀ files, Stored (fun identity hash written ↦ written = facts identity hash) files →
      ∀ found, (readCached setup request files).1 = some found → found = deps

/-- What is found for a request is in the project's entry or the shared one. -/
theorem readCached_found {found : Deps} (h : (readCached setup request files).1 = some found) :
    ∃ path, readCache setup files path request.sourceHash = some found := by
  cases hproject : readCache setup files request.cachePath request.sourceHash with
  | some deps =>
    rw [readCached_own hproject] at h
    exact ⟨_, hproject.trans h⟩
  | none =>
    cases hshared : readCache setup files (setup.sharedCachePath request.sourceHash) request.sourceHash with
    | some deps =>
      rw [readCached_shared hproject hshared] at h
      exact ⟨_, hshared.trans h⟩
    | none =>
      rw [readCached_miss hproject hshared] at h
      cases h

/-- Assumes: the names of the analyser and the source are in one line, as hashes are. The cache returns what
was analysed exactly if each fact is in one line; and it returns nothing that was written for another
analyser or source. -/
theorem cacheReturns_iff (hidentity : Plain setup.identity) (hhash : Plain request.sourceHash) :
    (CacheReturns setup request deps ↔ ∀ fact ∈ allFacts deps, Plain fact) ∧
      ∀ files, Stored (fun _ _ _ ↦ True) files → ∀ path found,
        readCache setup files path request.sourceHash = some found →
          ∃ written, files path = some (cacheText setup request.sourceHash written) := by
  refine ⟨⟨fun h ↦ ?_, fun h ↦ ?_⟩, fun files hstored path found hread ↦ ?_⟩
  · have hown := h.project (fun _ ↦ some (cacheText setup request.sourceHash deps)) rfl
    obtain ⟨path, hread⟩ := readCached_found hown
    rw [readCache, Option.bind_some] at hread
    exact (readCacheText_cacheText_iff hidentity hhash).mp hread
  · have hread : readCacheText setup request.sourceHash (cacheText setup request.sourceHash deps) = some deps :=
      (readCacheText_cacheText_iff hidentity hhash).mpr h
    have hentry : ∀ files path, files path = some (cacheText setup request.sourceHash deps) →
        readCache setup files path request.sourceHash = some deps := by
      intro files path htext
      rw [readCache, htext, Option.bind_some, hread]
    refine ⟨fun files path hwrites ↦ hentry _ path ?_, fun files htext ↦ ?_, fun files hmiss htext ↦ ?_,
      fun facts hfacts files hstored found hfound ↦ ?_⟩
    · rw [writeCache, hwrites]
      exact Function.update_self ..
    · have hproject := hentry files request.cachePath htext
      rw [readCached_own hproject]
    · have hshared := hentry files (setup.sharedCachePath request.sourceHash) htext
      rw [readCached_shared hmiss hshared]
    · obtain ⟨path, hpath⟩ := readCached_found hfound
      obtain ⟨written, rfl, htext⟩ := hstored.read hpath
      rw [hfacts] at htext
      exact Option.some.inj (hpath.symm.trans (hentry files path htext))
  · obtain ⟨written, -, htext⟩ := hstored.read hread
    exact ⟨written, htext⟩

/-- Without a HOL toolchain, in an empty shared cache. -/
def textualSetup : Setup where
  identity := "textual"
  sharedCachePath hash := "/shared/" ++ hash
  writeFails _ _ := false
  answer _ := emptyDeps
  analyserJobs := 1

theorem cacheReturns_iff_textual :
    CacheReturns textualSetup ⟨"p", "a.sml", "1"⟩ ⟨["listTheory"], [], [], [], []⟩ :=
  (cacheReturns_iff (by decide) (by decide)).1.mpr (by decide)

/-- A source that loads a file with a newline in its name: the name is cut, and what follows the newline is
read as a file that is used. -/
theorem newline_becomes_use :
    extractTextual "load \"x\nuse=y\"".toList = .ok ⟨["x\nuse=y"], [], [], [], []⟩ ∧
      readCacheText textualSetup "1" (cacheText textualSetup "1" ⟨["x\nuse=y"], [], [], [], []⟩) =
        some ⟨["x"], ["y"], [], [], []⟩ ∧
      ¬ CacheReturns textualSetup ⟨"p", "a.sml", "1"⟩ ⟨["x\nuse=y"], [], [], [], []⟩ := by
  have hcut : readCacheText textualSetup "1" (cacheText textualSetup "1" ⟨["x\nuse=y"], [], [], [], []⟩) =
      some ⟨["x"], ["y"], [], [], []⟩ := by
    have hlines : ∀ line ∈ ["load=x", "use=y"], Plain line ∧ line ≠ "" := by decide
    rw [readCacheText_of_cut (plain_cacheHeader (by decide) (by decide)) hlines (by simp [cacheLines])]
    decide
  refine ⟨by decide +kernel, hcut, fun h ↦ ?_⟩
  have hread := h.written (fun _ ↦ none) "p" rfl
  have hwrites : textualSetup.writeFails (fun _ ↦ none) "p" = false := rfl
  rw [readCache, writeCache, hwrites, if_neg Bool.false_ne_true, Function.update_self, Option.bind_some, hcut] at hread
  exact absurd hread (by decide)

end Holbuild.Dependencies
