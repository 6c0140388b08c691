import Holbuild.Cache.Manifests
import Mathlib.Data.Finset.Insert
import Mathlib.Tactic.Tauto

/-!
# What a cache entry refers to

The scanner that finds the blobs to copy, `uniqueBlobs`, and the one that finds those the collector
keeps, `actionLiveBlobs`, read the lines of a manifest by themselves. They find the same blobs in every
text (`mem_actionLiveBlobs`), those of a run's outputs (`mem_uniqueBlobs_of_run`), and for a theory
those of its manifest and one more: that of an `sml-template` line beside an `sml` line
(`mem_uniqueBlobs_of_theory`).
-/

set_option autoImplicit false
set_option relaxedAutoImplicit false

namespace Holbuild.Cache

open Library

/-! ### The scanners -/

def trimNewline (text : Text) : Text := if text.getLast? = some '\n' then text.dropLast else text

def takeToken (text : Text) : Text := text.takeWhile fun c ↦ c ≠ ' ' ∧ c ≠ '\t' ∧ c ≠ '\n'

/-- The blob of a line in an older format. -/
def olderBlobRef (line : Text) : Option Text := (afterStart "blob=".toList line).map takeToken

/-- The blob a line refers to. -/
def blobRef (line : Text) : Option Text :=
  match tokens isSpace (trimNewline line) with
  | [word, _, hash] => if word = "blob".toList then some hash else olderBlobRef (trimNewline line)
  | _ => olderBlobRef (trimNewline line)

/-- The blobs a manifest refers to, in order and each once. -/
def uniqueBlobs (manifestText : Text) : List Text :=
  ((cacheManifestLines manifestText).foldl (fun hashes line ↦
    match blobRef line with
    | some hash => if hashes.contains hash then hashes else hash :: hashes
    | none => hashes) []).reverse

/-- The lines of a file as they are read one by one, each with its newline; a last line without one is
given it. -/
def readLines (text : Text) : List Text :=
  let rows := text.splitOn '\n'
  (if rows.getLast? = some [] then rows.dropLast else rows).map (· ++ ['\n'])

/-- The blobs of a manifest that the collector keeps. -/
def actionLiveBlobs (manifestText : Text) : Finset Text :=
  (readLines manifestText).foldl (fun blobs line ↦
    match blobRef line with
    | none => blobs
    | some blob => insert blob blobs) ∅

variable {inputKey line text hash role : Text} {r r' : Reading} {manifest : CacheManifest}

theorem mem_uniqueBlobs :
    hash ∈ uniqueBlobs text ↔ ∃ line ∈ cacheManifestLines text, blobRef line = some hash := by
  have hfold : ∀ (lines hashes : List Text),
      hash ∈ lines.foldl (fun hashes line ↦
        match blobRef line with
        | some hash => if hashes.contains hash then hashes else hash :: hashes
        | none => hashes) hashes ↔ hash ∈ hashes ∨ ∃ line ∈ lines, blobRef line = some hash := by
    intro lines
    induction lines with
    | nil => simp
    | cons line rest ih =>
      intro hashes
      rw [List.foldl_cons, ih, List.exists_mem_cons_iff, ← or_assoc]
      refine or_congr_left ?_
      cases blobRef line with
      | none => simp
      | some blob =>
        by_cases hblob : blob ∈ hashes
        · simp only [List.contains_eq_mem, hblob, decide_true, if_true, Option.some.injEq]
          exact ⟨.inl, fun h ↦ h.elim id fun heq ↦ heq ▸ hblob⟩
        · simp only [List.contains_eq_mem, hblob, decide_false, Bool.false_eq_true, if_false,
            List.mem_cons, Option.some.injEq]
          rw [or_comm, eq_comm]
  rw [uniqueBlobs, List.mem_reverse, hfold]
  simp

/-- A line without a newline refers to the same blob with one. -/
theorem blobRef_append_newline (hline : '\n' ∉ line) : blobRef (line ++ ['\n']) = blobRef line := by
  have hsame : trimNewline (line ++ ['\n']) = trimNewline line := by
    have hlast : line.getLast? ≠ some '\n' := fun h ↦ hline (List.mem_of_getLast? h)
    rw [trimNewline, trimNewline, if_neg hlast, if_pos (by simp), List.dropLast_concat]
  rw [blobRef, blobRef, hsame]

theorem blobRef_nil : blobRef [] = none := rfl

/-- Both scanners find the same blobs, whatever the text. -/
theorem mem_actionLiveBlobs : hash ∈ actionLiveBlobs text ↔ hash ∈ uniqueBlobs text := by
  have hfold : ∀ (lines : List Text) (blobs : Finset Text),
      hash ∈ lines.foldl (fun blobs line ↦
        match blobRef line with
        | none => blobs
        | some blob => insert blob blobs) blobs ↔
          hash ∈ blobs ∨ ∃ line ∈ lines, blobRef line = some hash := by
    intro lines
    induction lines with
    | nil => simp
    | cons line rest ih =>
      intro blobs
      rw [List.foldl_cons, ih, List.exists_mem_cons_iff, ← or_assoc]
      refine or_congr_left ?_
      cases blobRef line with
      | none => simp
      | some blob => simp [or_comm, eq_comm]
  have hrows : ∀ rows : List Text, (∀ row ∈ rows, '\n' ∉ row) →
      ((∃ line ∈ rows.map (· ++ ['\n']), blobRef line = some hash) ↔
        ∃ line ∈ rows.filter (· ≠ []), blobRef line = some hash) := by
    intro rows hrows
    constructor
    · rintro ⟨line, hline, hblob⟩
      obtain ⟨row, hrow, rfl⟩ := List.mem_map.mp hline
      rw [blobRef_append_newline (hrows row hrow)] at hblob
      refine ⟨row, List.mem_filter.mpr ⟨hrow, decide_eq_true ?_⟩, hblob⟩
      rintro rfl
      cases blobRef_nil.symm.trans hblob
    · rintro ⟨row, hrow, hblob⟩
      have hmem := List.mem_of_mem_filter hrow
      exact ⟨row ++ ['\n'], List.mem_map_of_mem hmem,
        (blobRef_append_newline (hrows row hmem)).trans hblob⟩
  have hnewline : ∀ row ∈ text.splitOn '\n', '\n' ∉ row := fun row hrow ↦ sep_notMem_of_mem_splitOn hrow
  rw [actionLiveBlobs, hfold, mem_uniqueBlobs, cacheManifestLines_eq, readLines]
  split_ifs with hlast
  · -- the empty row after the last newline refers to nothing
    rw [hrows _ fun row hrow ↦ hnewline row (List.mem_of_mem_dropLast hrow)]
    have hsplit := List.dropLast_append_getLast? [] hlast
    have hfilter : (text.splitOn '\n').filter (· ≠ []) =
        ((text.splitOn '\n').dropLast).filter (· ≠ []) := by
      conv_lhs => rw [← hsplit]
      simp
    rw [hfilter]
    simp
  · rw [hrows _ hnewline]
    simp

/-! ### Manifests of theories -/

theorem trimNewline_eq_self (hline : '\n' ∉ line) : trimNewline line = line :=
  if_neg fun h ↦ hline (List.mem_of_getLast? h)

/-- A line in an older format starts with `b`. -/
theorem olderBlobRef_eq_none {c : Char} {rest : Text} (hc : c ≠ 'b') :
    olderBlobRef (c :: rest) = none := by
  have hstart : "blob=".toList.isPrefixOf (c :: rest) = false := by
    rw [Bool.eq_false_iff, ne_eq, List.isPrefixOf_iff_prefix]
    rintro ⟨tail, htail⟩
    exact hc (List.cons.inj htail).1.symm
  rw [olderBlobRef, afterStart, hstart]
  rfl

/-- A line that starts with another letter than `b` refers to no blob. -/
theorem blobRef_eq_none {c : Char} {rest : Text} (hline : '\n' ∉ c :: rest) (hspace : isSpace c = false)
    (hc : c ≠ 'b') : blobRef (c :: rest) = none := by
  obtain ⟨token, tokens', htokens⟩ := exists_tokens_cons rest hspace
  rw [blobRef, trimNewline_eq_self hline, htokens, olderBlobRef_eq_none hc]
  split
  · next heq =>
    rw [if_neg]
    rintro rfl
    exact hc (List.cons.inj (List.cons.inj heq).1).1
  · rfl

/-- A line of another number of words than three, the first of which starts with another letter than
`b`, refers to no blob. -/
theorem blobRef_eq_none_of_tokens {word name : Text} (hline : '\n' ∉ line)
    (htokens : tokens isSpace line = [word, name]) (hword : word.head? ≠ some 'b') :
    blobRef line = none := by
  rw [blobRef, trimNewline_eq_self hline, htokens]
  cases line with
  | nil => cases htokens
  | cons c rest =>
    by_cases hc : c = 'b'
    · subst hc
      obtain ⟨token, tokens', hcons⟩ := exists_tokens_cons rest
        (show isSpace 'b' = false by decide)
      rw [hcons] at htokens
      rw [← (List.cons.inj htokens).1] at hword
      exact absurd rfl hword
    · exact olderBlobRef_eq_none hc

/-- The blob of a line of three words. -/
theorem blobRef_of_tokens (hline : '\n' ∉ line)
    (htokens : tokens isSpace line = ["blob".toList, role, hash]) : blobRef line = some hash := by
  rw [blobRef, trimNewline_eq_self hline, htokens]
  exact if_pos rfl

/-- Adding a blob puts it first; its role is known and new. -/
theorem addManifestBlob_eq_ok {blobs blobs' : Blobs} (h : addManifestBlob role hash blobs = .ok blobs') :
    knownBlobRole role ∧ blobs.find role = none ∧ blobs' = (role, hash) :: blobs := by
  rw [addManifestBlob] at h
  split_ifs at h with hknown hfound
  obtain ⟨hash', hhash, hok⟩ := bind_eq_ok_iff.mp h
  rw [requireSha256] at hhash
  split_ifs at hhash
  cases hhash
  cases hok
  exact ⟨by simpa using hknown, by simpa using hfound, rfl⟩

/-- A line of a theory's manifest refers to no blob, or it is a blob's and adds it. -/
theorem blobRef_of_parse (hline : '\n' ∉ line)
    (h : parseCacheManifestLine inputKey line r = .ok r') :
    blobRef line = none ∧ r'.blobs = r.blobs ∨
      ∃ role hash, blobRef line = some hash ∧ tokens isSpace line = ["blob".toList, role, hash] ∧
        knownBlobRole role ∧ r.blobs.find role = none ∧ r'.blobs = (role, hash) :: r.blobs := by
  have hnone : ∀ c : Char, isSpace c = false → c ≠ 'b' → line.head? = some c →
      blobRef line = none := by
    intro c hspace hc hhead
    obtain ⟨rest, rfl⟩ := List.head?_eq_some_iff.mp hhead
    exact blobRef_eq_none hline hspace hc
  rw [parseCacheManifestLine] at h
  rcases ite_eq_iff.mp h with ⟨hheader, h⟩ | ⟨-, h⟩
  · rw [← eq_of_ite_error_eq_ok h]
    rcases hheader with rfl | rfl
    · exact .inl ⟨hnone 'h' (by decide) (by decide) rfl, rfl⟩
    · exact .inl ⟨hnone 'h' (by decide) (by decide) rfl, rfl⟩
  rcases ite_eq_iff.mp h with ⟨-, h⟩ | ⟨-, h⟩
  · cases h
  rcases ite_eq_iff.mp h with ⟨hinput, h⟩ | ⟨-, h⟩
  · rw [← eq_of_ite_error_eq_ok h]
    subst hinput
    exact .inl ⟨hnone 'i' (by decide) (by decide) rfl, rfl⟩
  rcases ite_eq_iff.mp h with ⟨-, h⟩ | ⟨-, h⟩
  · cases h
  rcases ite_eq_iff.mp h with ⟨hkind, h⟩ | ⟨-, h⟩
  · rw [← eq_of_ite_error_eq_ok h]
    subst hkind
    exact .inl ⟨hnone 'k' (by decide) (by decide) rfl, rfl⟩
  rcases ite_eq_iff.mp h with ⟨-, h⟩ | ⟨-, h⟩
  · cases h
  rcases ite_eq_iff.mp h with ⟨hmetadata, h⟩ | ⟨-, h⟩
  · rw [← eq_of_ite_error_eq_ok h]
    subst hmetadata
    exact .inl ⟨hnone 'l' (by decide) (by decide) rfl, rfl⟩
  rcases ite_eq_iff.mp h with ⟨-, h⟩ | ⟨-, h⟩
  · cases h
  rcases ite_eq_iff.mp h with ⟨htimeout, h⟩ | ⟨-, h⟩
  · cases h
    obtain ⟨value, rfl⟩ := List.isPrefixOf_iff_prefix.mp htimeout
    exact .inl ⟨hnone 'p' (by decide) (by decide) rfl, rfl⟩
  · split at h
    · next word name htokens =>
      rcases ite_eq_iff.mp h with ⟨hparent, h⟩ | ⟨-, h⟩
      · subst hparent
        obtain ⟨parents, -, hok⟩ := bind_eq_ok_iff.mp h
        cases hok
        exact .inl ⟨blobRef_eq_none_of_tokens hline htokens (by decide), rfl⟩
      rcases ite_eq_iff.mp h with ⟨hmldep, h⟩ | ⟨-, h⟩
      · subst hmldep
        obtain ⟨mldeps, -, hok⟩ := bind_eq_ok_iff.mp h
        cases hok
        exact .inl ⟨blobRef_eq_none_of_tokens hline htokens (by decide), rfl⟩
      · cases h
    · next word role hash htokens =>
      rcases ite_eq_iff.mp h with ⟨hword, h⟩ | ⟨-, h⟩
      case inr => cases h
      subst hword
      obtain ⟨blobs, hblobs, hok⟩ := bind_eq_ok_iff.mp h
      cases hok
      obtain ⟨hknown, hnew, rfl⟩ := addManifestBlob_eq_ok hblobs
      exact .inr ⟨role, hash, blobRef_of_tokens hline htokens, htokens, hknown, hnew, rfl⟩
    · cases h

/-- Each blob has a role of its own, a known one. -/
structure Blobs.WellFormed (blobs : Blobs) : Prop where
  nodup : (blobs.map Prod.fst).Nodup
  known : ∀ blob ∈ blobs, knownBlobRole blob.1

theorem Blobs.find_eq_none_iff {blobs : Blobs} :
    blobs.find role = none ↔ role ∉ blobs.map Prod.fst := by
  rw [Blobs.find, Option.map_eq_none_iff, List.find?_eq_none, List.mem_map]
  constructor
  · rintro h ⟨blob, hblob, rfl⟩
    exact h blob hblob (decide_eq_true rfl)
  · intro h blob hblob hrole
    exact h ⟨blob, hblob, of_decide_eq_true hrole⟩

theorem Blobs.WellFormed.cons {blobs : Blobs} (h : blobs.WellFormed) (hknown : knownBlobRole role)
    (hnew : blobs.find role = none) : Blobs.WellFormed ((role, hash) :: blobs) where
  nodup := List.nodup_cons.mpr ⟨Blobs.find_eq_none_iff.mp hnew, h.nodup⟩
  known := List.forall_mem_cons.mpr ⟨hknown, h.known⟩

/-- The blob of a role is the one that is listed with it. -/
theorem Blobs.WellFormed.find_eq_some_iff {blobs : Blobs} (h : blobs.WellFormed) :
    blobs.find role = some hash ↔ (role, hash) ∈ blobs := by
  rw [Blobs.find, Option.map_eq_some_iff]
  constructor
  · rintro ⟨⟨role', hash'⟩, hfind, rfl⟩
    have hrole : role' = role := by simpa using List.find?_some hfind
    exact hrole ▸ List.mem_of_find?_eq_some hfind
  · intro hmem
    have hsome : (List.find? (·.1 = role) blobs).isSome :=
      List.find?_isSome.mpr ⟨(role, hash), hmem, decide_eq_true rfl⟩
    obtain ⟨⟨role', hash'⟩, hfind⟩ := Option.isSome_iff_exists.mp hsome
    have hrole : role' = role := by simpa using List.find?_some hfind
    subst hrole
    have hsame := List.inj_on_of_nodup_map h.nodup (List.mem_of_find?_eq_some hfind) hmem rfl
    exact ⟨_, hfind, congrArg Prod.snd hsame⟩

/-- Whether a line is that of a theory's file before its names were put in. -/
def IsTemplateLine (line hash : Text) : Prop :=
  tokens isSpace line = ["blob".toList, "sml-template".toList, hash]

/-- The blobs read of lines are those the lines refer to. -/
theorem blobs_of_foldlM {lines : List Text} (hlines : ∀ line ∈ lines, '\n' ∉ line) :
    ∀ {r last : Reading}, r.blobs.WellFormed →
      lines.foldlM (fun r line ↦ parseCacheManifestLine inputKey line r) r = .ok last →
        last.blobs.WellFormed ∧
        (∀ hash, (∃ role, (role, hash) ∈ last.blobs) ↔
          (∃ role, (role, hash) ∈ r.blobs) ∨ ∃ line ∈ lines, blobRef line = some hash) ∧
        ∀ hash, ("sml-template".toList, hash) ∈ last.blobs ↔
          ("sml-template".toList, hash) ∈ r.blobs ∨ ∃ line ∈ lines, IsTemplateLine line hash := by
  induction lines with
  | nil =>
    intro r last hr h
    cases h
    simp [hr]
  | cons line rest ih =>
    intro r last hr h
    rw [List.foldlM_cons] at h
    obtain ⟨next, hnext, hrest⟩ := bind_eq_ok_iff.mp h
    have hrest' := @ih (fun l hl ↦ hlines l (List.mem_cons_of_mem _ hl)) next last
    simp only [List.exists_mem_cons_iff, ← or_assoc]
    rcases blobRef_of_parse (hlines line List.mem_cons_self) hnext with
      ⟨hnone, hblobs⟩ | ⟨role, hash, hblob, htokens, hknown, hnew, hblobs⟩
    · rw [hblobs] at hrest'
      obtain ⟨hlast, hall, htemplate⟩ := hrest' hr hrest
      refine ⟨hlast, fun hash ↦ ?_, fun hash ↦ ?_⟩
      · rw [hall, hnone]
        simp
      · have hother : ¬ IsTemplateLine line hash := by
          intro hline
          cases (blobRef_of_tokens (hlines line List.mem_cons_self) hline).symm.trans hnone
        rw [htemplate]
        simp [hother]
    · rw [hblobs] at hrest'
      obtain ⟨hlast, hall, htemplate⟩ := hrest' (hr.cons hknown hnew) hrest
      refine ⟨hlast, fun other ↦ ?_, fun other ↦ ?_⟩
      · rw [hall, hblob, Option.some.injEq]
        refine or_congr_left ?_
        simp only [List.mem_cons, Prod.mk.injEq, exists_or, exists_eq_left]
        rw [or_comm, eq_comm]
      · rw [htemplate, IsTemplateLine, htokens]
        refine or_congr_left ?_
        simp only [List.mem_cons, Prod.mk.injEq, List.cons.injEq, and_true, true_and]
        rw [or_comm, eq_comm, @eq_comm _ other]

/-- The blobs of a role's or of another extra output. -/
theorem knownBlobRole_cases (h : knownBlobRole role) :
    role = "sig".toList ∨ role = "sml".toList ∨ role = "sml-template".toList ∨ role = "dat".toList ∨
      role = "trace".toList ∨ ∃ path, extraPathFromBlobRole role = some path := by
  simp only [knownBlobRole, Bool.or_eq_true, decide_eq_true_eq, Option.isSome_iff_exists] at h
  tauto

theorem blobFromManifest_eq_ok_iff {blobs : Blobs} :
    blobFromManifest role blobs = .ok hash ↔ blobs.find role = some hash := by
  rw [blobFromManifest]
  cases blobs.find role <;> simp

/-- The blobs that were read are those of the manifest, and a template beside an `sml` file. -/
theorem mem_hashes_iff (hr : r.blobs.WellFormed) (h : r.manifest = .ok manifest) :
    hash ∈ manifest.hashes ∨ ("sml-template".toList, hash) ∈ r.blobs ↔
      ∃ role, (role, hash) ∈ r.blobs := by
  obtain ⟨_, -, h⟩ := bind_eq_ok_iff.mp h
  obtain ⟨sigHash, hsig, h⟩ := bind_eq_ok_iff.mp h
  obtain ⟨smlHash, hsml, h⟩ := bind_eq_ok_iff.mp h
  obtain ⟨datHash, hdat, h⟩ := bind_eq_ok_iff.mp h
  cases h
  have hsig' := hr.find_eq_some_iff.mp (blobFromManifest_eq_ok_iff.mp hsig)
  have hdat' := hr.find_eq_some_iff.mp (blobFromManifest_eq_ok_iff.mp hdat)
  have hsml' : r.blobs.find "sml".toList = some smlHash ∨
      r.blobs.find "sml".toList = none ∧ r.blobs.find "sml-template".toList = some smlHash := by
    rw [smlBlobFromManifest] at hsml
    cases hfind : r.blobs.find "sml".toList with
    | some found =>
      rw [hfind] at hsml
      exact .inl (congrArg some (Except.ok.inj hsml))
    | none =>
      rw [hfind] at hsml
      exact .inr ⟨rfl, blobFromManifest_eq_ok_iff.mp hsml⟩
  simp only [Outputs.hashes, List.mem_cons, List.mem_append, Option.mem_toList, List.mem_map,
    List.mem_filterMap, List.mem_reverse, Option.map_eq_some_iff, Prod.exists, Prod.mk.injEq]
  constructor
  · rintro ((rfl | rfl | rfl | htrace | ⟨path, hash', ⟨role, hash'', hmem, path', -, -, rfl⟩, rfl⟩) |
      htemplate)
    · exact ⟨_, hsig'⟩
    · rcases hsml' with hfound | ⟨-, hfound⟩
      · exact ⟨_, hr.find_eq_some_iff.mp hfound⟩
      · exact ⟨_, hr.find_eq_some_iff.mp hfound⟩
    · exact ⟨_, hdat'⟩
    · exact ⟨_, hr.find_eq_some_iff.mp htrace⟩
    · exact ⟨role, hmem⟩
    · exact ⟨_, htemplate⟩
  · rintro ⟨role, hmem⟩
    have hfind := hr.find_eq_some_iff.mpr hmem
    rcases knownBlobRole_cases (hr.known _ hmem) with rfl | rfl | rfl | rfl | rfl | ⟨path, hpath⟩
    · rw [blobFromManifest_eq_ok_iff, hfind, Option.some.injEq] at hsig
      exact .inl (.inl hsig)
    · rcases hsml' with hfound | ⟨hnone, -⟩
      · rw [hfind, Option.some.injEq] at hfound
        exact .inl (.inr (.inl hfound))
      · cases hfind.symm.trans hnone
    · exact .inr hmem
    · rw [blobFromManifest_eq_ok_iff, hfind, Option.some.injEq] at hdat
      exact .inl (.inr (.inr (.inl hdat)))
    · exact .inl (.inr (.inr (.inr (.inl hfind))))
    · exact .inl (.inr (.inr (.inr (.inr
        ⟨path, hash, ⟨role, hash, hmem, path, hpath, rfl, rfl⟩, rfl⟩))))

theorem newline_notMem_of_mem_lines (hline : line ∈ cacheManifestLines text) : '\n' ∉ line := by
  rw [cacheManifestLines_eq] at hline
  exact sep_notMem_of_mem_splitOn (List.mem_of_mem_filter hline)

/-- The scanners find the blobs of a theory's manifest, and that of an `sml-template` line. -/
theorem mem_uniqueBlobs_of_theory
    (h : cacheManifestBlobsFromLines inputKey (cacheManifestLines text) = .ok manifest) :
    hash ∈ uniqueBlobs text ↔
      hash ∈ manifest.hashes ∨ ∃ line ∈ cacheManifestLines text, IsTemplateLine line hash := by
  obtain ⟨last, hlast, h⟩ := bind_eq_ok_iff.mp h
  obtain ⟨_, -, h⟩ := bind_eq_ok_iff.mp h
  obtain ⟨_, -, h⟩ := bind_eq_ok_iff.mp h
  obtain ⟨_, -, h⟩ := bind_eq_ok_iff.mp h
  obtain ⟨_, -, h⟩ := bind_eq_ok_iff.mp h
  have hstart : Reading.start.blobs.WellFormed :=
    ⟨List.nodup_nil, fun blob hblob ↦ absurd hblob List.not_mem_nil⟩
  obtain ⟨hformed, hall, htemplate⟩ :=
    blobs_of_foldlM (fun line hline ↦ newline_notMem_of_mem_lines hline) hstart hlast
  have hnone : ∀ blob : Text × Text, blob ∉ Reading.start.blobs := fun blob ↦ List.not_mem_nil
  calc hash ∈ uniqueBlobs text
      ↔ ∃ role, (role, hash) ∈ last.blobs := by
        rw [mem_uniqueBlobs, hall]
        simp [hnone]
    _ ↔ hash ∈ manifest.hashes ∨ ("sml-template".toList, hash) ∈ last.blobs :=
        (mem_hashes_iff hformed h).symm
    _ ↔ hash ∈ manifest.hashes ∨ ∃ line ∈ cacheManifestLines text, IsTemplateLine line hash := by
        rw [htemplate]
        simp [hnone]

/-! ### Manifests of runs -/

/-- A line of a run's manifest refers to no blob, or it is an output's and adds it. -/
theorem blobRef_of_parseRun {r r' : RunReading} (hline : '\n' ∉ line)
    (h : parseRunManifestLine inputKey line r = .ok r') :
    blobRef line = none ∧ r'.outputs = r.outputs ∨
      ∃ name hash, blobRef line = some hash ∧ r'.outputs = (name, hash) :: r.outputs := by
  have hnone : ∀ c : Char, isSpace c = false → c ≠ 'b' → line.head? = some c →
      blobRef line = none := by
    intro c hspace hc hhead
    obtain ⟨rest, rfl⟩ := List.head?_eq_some_iff.mp hhead
    exact blobRef_eq_none hline hspace hc
  rw [parseRunManifestLine] at h
  rcases ite_eq_iff.mp h with ⟨hheader, h⟩ | ⟨-, h⟩
  · rw [← eq_of_ite_error_eq_ok h]
    subst hheader
    exact .inl ⟨hnone 'h' (by decide) (by decide) rfl, rfl⟩
  rcases ite_eq_iff.mp h with ⟨hinput, h⟩ | ⟨-, h⟩
  · rw [← eq_of_ite_error_eq_ok h]
    subst hinput
    exact .inl ⟨hnone 'i' (by decide) (by decide) rfl, rfl⟩
  rcases ite_eq_iff.mp h with ⟨-, h⟩ | ⟨-, h⟩
  · cases h
  rcases ite_eq_iff.mp h with ⟨hkind, h⟩ | ⟨-, h⟩
  · rw [← eq_of_ite_error_eq_ok h]
    subst hkind
    exact .inl ⟨hnone 'k' (by decide) (by decide) rfl, rfl⟩
  rcases ite_eq_iff.mp h with ⟨-, h⟩ | ⟨-, h⟩
  · cases h
  split at h
  · next word name htokens =>
    rcases ite_eq_iff.mp h with ⟨hparent, h⟩ | ⟨-, h⟩
    · rw [hparent] at htokens
      by_cases hfirst : r.parents = 0
      · rw [if_pos hfirst, Except.ok.injEq] at h
        exact .inl ⟨blobRef_eq_none_of_tokens hline htokens (by decide), h ▸ rfl⟩
      · rw [if_neg hfirst] at h
        cases h
    · cases h
  · next word role hash htokens =>
    rcases ite_eq_iff.mp h with ⟨hword, h⟩ | ⟨-, h⟩
    case inr => cases h
    subst hword
    obtain ⟨outputs, houtputs, hok⟩ := bind_eq_ok_iff.mp h
    cases hok
    rw [addRunOutput] at houtputs
    split at houtputs
    · next name hname =>
      rcases ite_eq_iff.mp houtputs with ⟨-, houtputs⟩ | ⟨-, houtputs⟩
      · cases houtputs
      · obtain ⟨hash', hhash, hok⟩ := bind_eq_ok_iff.mp houtputs
        rw [requireSha256] at hhash
        rcases ite_eq_iff.mp hhash with ⟨-, hhash⟩ | ⟨-, hhash⟩
        · cases hhash
          cases hok
          exact .inr ⟨name, hash, blobRef_of_tokens hline htokens, rfl⟩
        · cases hhash
    · cases houtputs
  · cases h

/-- The scanners find the outputs of a run's manifest. -/
theorem mem_uniqueBlobs_of_run {outputs : Blobs} (h : runManifestOutputs inputKey text = .ok outputs) :
    hash ∈ uniqueBlobs text ↔ hash ∈ outputs.map Prod.snd := by
  have hfold : ∀ (lines : List Text) (r last : RunReading), (∀ line ∈ lines, '\n' ∉ line) →
      lines.foldlM (fun r line ↦ parseRunManifestLine inputKey line r) r = .ok last →
        ((∃ name, (name, hash) ∈ last.outputs) ↔
          (∃ name, (name, hash) ∈ r.outputs) ∨ ∃ line ∈ lines, blobRef line = some hash) := by
    intro lines
    induction lines with
    | nil =>
      intro r last _ hlast
      cases hlast
      simp
    | cons line rest ih =>
      intro r last hlines hlast
      rw [List.foldlM_cons] at hlast
      obtain ⟨next, hnext, hrest⟩ := bind_eq_ok_iff.mp hlast
      rw [ih next last (fun l hl ↦ hlines l (List.mem_cons_of_mem _ hl)) hrest,
        List.exists_mem_cons_iff, ← or_assoc]
      refine or_congr_left ?_
      rcases blobRef_of_parseRun (hlines line List.mem_cons_self) hnext with
        ⟨hnone, houtputs⟩ | ⟨name, other, hblob, houtputs⟩
      · rw [hnone, houtputs]
        simp
      · rw [hblob, houtputs, Option.some.injEq]
        simp only [List.mem_cons, Prod.mk.injEq, exists_or, exists_eq_left]
        rw [or_comm, eq_comm]
  obtain ⟨last, hlast, h⟩ := bind_eq_ok_iff.mp h
  obtain ⟨_, -, h⟩ := bind_eq_ok_iff.mp h
  obtain ⟨_, -, h⟩ := bind_eq_ok_iff.mp h
  obtain ⟨_, -, h⟩ := bind_eq_ok_iff.mp h
  obtain ⟨_, -, h⟩ := bind_eq_ok_iff.mp h
  cases h
  have hall := hfold _ _ _ (fun line hline ↦ newline_notMem_of_mem_lines hline) hlast
  rw [mem_uniqueBlobs, List.map_reverse, List.mem_reverse, List.mem_map]
  constructor
  · intro hline
    obtain ⟨name, hname⟩ := hall.mpr (.inr hline)
    exact ⟨(name, hash), hname, rfl⟩
  · rintro ⟨⟨name, hash'⟩, hname, rfl⟩
    exact (hall.mp ⟨name, hname⟩).resolve_left fun ⟨_, hmem⟩ ↦ absurd hmem List.not_mem_nil

end Holbuild.Cache
