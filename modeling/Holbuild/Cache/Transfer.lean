import Holbuild.Cache.Entries
import Holbuild.Cache.References

/-!
# Copying a cache entry

`copyEntry` copies the blobs that a manifest names from a source to a destination, each through a
temporary file of its own, and then puts the manifest. Whatever the source and the destination do, the
manifest is put only after all its blobs, the temporary files are gone, and otherwise the destination's
entry is what it was (`copyEntry_spec`).
-/

set_option autoImplicit false
set_option relaxedAutoImplicit false

namespace Holbuild.Cache

open Library

/-! ### Sources and destinations -/

inductive FetchResult
  | hit
  | miss
  | corrupt (detail : Text)
deriving DecidableEq

/-- A source and a destination with a common state. Each operation ends or raises; `entry` is the
destination's manifest for a key. A source that reports a hit has checked the file it leaves, and only
`putAction` changes the destination's entries. -/
structure Transfer (σ Content : Type) where
  getAction : σ → Text → Checked (Option Text) × σ
  /-- What a fetch answers, and the file it leaves. -/
  fetchBlob : σ → Text → Checked FetchResult × Option Content × σ
  publishBlob : σ → Text → Option Content → Checked PublishResult × σ
  putAction : σ → Text → Text → Checked PublishResult × σ
  /-- Whether the filesystem of the temporary files takes a small write. -/
  outOfSpace : σ → Bool × σ
  sha256 : Content → Text
  entry : σ → Text → Option Text
  hash_of_hit : ∀ {s s' : σ} {hash : Text} {file : Option Content},
    fetchBlob s hash = (.ok .hit, file, s') → ∃ content, file = some content ∧ sha256 content = hash
  entry_getAction : ∀ s key, entry (getAction s key).2 = entry s
  entry_fetchBlob : ∀ s hash, entry (fetchBlob s hash).2.2 = entry s
  entry_publishBlob : ∀ s hash file, entry (publishBlob s hash file).2 = entry s
  entry_outOfSpace : ∀ s, entry (outOfSpace s).2 = entry s

/-- What the source and the destination have answered. -/
inductive Call (Content : Type)
  | gotAction (key text : Text)
  | fetched (hash : Text) (content : Content)
  | published (hash : Text) (result : PublishResult)
  | putAction (key text : Text)

/-- The state of a process that copies: that of source and destination, the files of the temporary
directory, the number of the last temporary file, and the answers so far. -/
structure Copying (σ Content : Type) where
  outer : σ
  files : Text → Option Content
  lastId : ℕ
  calls : List (Call Content)

section Copy

variable {σ Content : Type} (t : Transfer σ Content) (pid : Text)

def Copying.removeFile (w : Copying σ Content) (path : Text) : Copying σ Content :=
  { w with files := Function.update w.files path none }

def tempBlobPath (hash : Text) (id : ℕ) : Text :=
  "holbuild-cache-transfer-".toList ++ hash ++ '-' :: pid ++ '-' :: decimal id ++ ".blob".toList

def fetchBlobOrRaise (hash path : Text) (w : Copying σ Content) : Checked Unit × Copying σ Content :=
  let fetched := t.fetchBlob w.outer hash
  let w := { w with outer := fetched.2.2, files := Function.update w.files path fetched.2.1 }
  match fetched.1 with
  | .ok .hit =>
    (.ok (), { w with calls := w.calls ++ (fetched.2.1.map (.fetched hash)).toList })
  | .ok .miss => (.error ("source cache blob missing: ".toList ++ hash), w)
  | .ok (.corrupt detail) =>
    (.error ("source cache blob corrupt: ".toList ++ hash ++ " (".toList ++ detail ++ [')']), w)
  | .error message => (.error message, w)

/-- How many blobs were uploaded and how many were there already. -/
abbrev Counts := ℕ × ℕ

def publishBlobOrRaise (hash path : Text) (w : Copying σ Content) : Checked Counts × Copying σ Content :=
  let answer := t.publishBlob w.outer hash (w.files path)
  let w := { w with outer := answer.2 }
  match answer.1 with
  | .ok (.conflict detail) =>
    (.error ("destination cache blob conflict: ".toList ++ hash ++ " (".toList ++ detail ++ [')']), w)
  | .ok result =>
    (.ok (if result = .published then (1, 0) else if result = .alreadyPresent then (0, 1) else (0, 0)),
      { w with calls := w.calls ++ [.published hash result] })
  | .error message => (.error message, w)

def fetchAndPublish (hash path : Text) (w : Copying σ Content) : Checked Counts × Copying σ Content :=
  match fetchBlobOrRaise t hash path w with
  | (.ok _, w) => publishBlobOrRaise t hash path w
  | (.error message, w) => (.error message, w)

def noSpace : Text := "No space left on device".toList

def copyBlob (hash : Text) (counts : Counts) (w : Copying σ Content) :
    Checked Counts × Copying σ Content :=
  let path := tempBlobPath pid hash (w.lastId + 1)
  match fetchAndPublish t hash path { w with lastId := w.lastId + 1 } with
  | (.ok new, w) => (.ok (counts.1 + new.1, counts.2 + new.2), w.removeFile path)
  | (.error message, w) =>
    -- the file that may have filled the disk is still there when the disk is probed
    let probe := t.outOfSpace w.outer
    let w := { w with outer := probe.2 }.removeFile path
    if probe.1 ∧ ¬ isSubstring noSpace message then
      (.error ("cache blob ".toList ++ hash ++ ": ".toList ++ noSpace), w)
    else (.error message, w)

def copyBlobs : List Text → Counts → Copying σ Content → Checked Counts × Copying σ Content
  | [], counts, w => (.ok counts, w)
  | hash :: rest, counts, w =>
    match copyBlob t pid hash counts w with
    | (.ok counts, w) => copyBlobs rest counts w
    | (.error message, w) => (.error message, w)

def putActionOrRaise (key text : Text) (w : Copying σ Content) :
    Checked PublishResult × Copying σ Content :=
  let answer := t.putAction w.outer key text
  let w := { w with outer := answer.2, calls := w.calls ++ [.putAction key text] }
  match answer.1 with
  | .ok (.conflict detail) =>
    (.error ("destination cache action conflict: ".toList ++ key ++ " (".toList ++ detail ++ [')']), w)
  | result => (result, w)

/-- What a copy reports. -/
structure EntryResult where
  key : Text
  blobs : ℕ
  uploadedBlobs : ℕ
  reusedBlobs : ℕ
  action : PublishResult
deriving DecidableEq

def copyEntry (key : Text) (w : Copying σ Content) : Checked EntryResult × Copying σ Content :=
  let answer := t.getAction w.outer key
  let w := { w with outer := answer.2 }
  match answer.1 with
  | .ok (some text) =>
    let w := { w with calls := w.calls ++ [.gotAction key text] }
    match copyBlobs t pid (uniqueBlobs text) (0, 0) w with
    | (.ok counts, w) =>
      match putActionOrRaise t key text w with
      | (.ok action, w) => (.ok ⟨key, (uniqueBlobs text).length, counts.1, counts.2, action⟩, w)
      | (.error message, w) => (.error message, w)
    | (.error message, w) => (.error message, w)
  | .ok none => (.error ("source cache action missing: ".toList ++ key), w)
  | .error message => (.error message, w)

end Copy

/-! ### Between two caches of files -/

/-- A cache in a directory: the manifest of each action and the file of each blob. -/
structure FsCache (Content : Type) where
  actions : Text → Option Text
  blobs : Text → Option Content

section Fs

variable {Content : Type} (sha256 : Content → Text)

/-- Whether the file of a blob has its hash. -/
def FsCache.verifyBlob (cache : FsCache Content) (hash : Text) : Bool :=
  (cache.blobs hash).any fun content ↦ sha256 content = hash

def FsCache.fetchBlob (cache : FsCache Content) (hash : Text) : FetchResult × Option Content :=
  match cache.blobs hash with
  | none => (.miss, none)
  | some content =>
    if sha256 content = hash then (.hit, some content)
    else (.corrupt ("cache blob SHA256 mismatch: ".toList ++ hash), none)

def FsCache.publishBlob (cache : FsCache Content) (hash : Text) (file : Option Content) :
    PublishResult × FsCache Content :=
  match file.filter fun content ↦ sha256 content = hash with
  | none => (.conflict ("blob SHA256 mismatch: expected ".toList ++ hash), cache)
  | some content =>
    if cache.verifyBlob sha256 hash then (.alreadyPresent, cache)
    else (.published, { cache with blobs := Function.update cache.blobs hash (some content) })

def FsCache.putAction (cache : FsCache Content) (key text : Text) : PublishResult × FsCache Content :=
  let put := Cache.putAction key .putIfAbsentOrSame text ⟨cache.actions key, []⟩
  (put.2, { cache with actions := Function.update cache.actions key put.1.manifest })

/-- A copy from one cache of files to another, none of whose operations raises. -/
def fsTransfer : Transfer (FsCache Content × FsCache Content) Content where
  getAction s key := (.ok (s.1.actions key), s)
  fetchBlob s hash := (.ok (s.1.fetchBlob sha256 hash).1, (s.1.fetchBlob sha256 hash).2, s)
  publishBlob s hash file :=
    (.ok (s.2.publishBlob sha256 hash file).1, s.1, (s.2.publishBlob sha256 hash file).2)
  putAction s key text := (.ok (s.2.putAction key text).1, s.1, (s.2.putAction key text).2)
  outOfSpace s := (false, s)
  sha256 := sha256
  entry s := s.2.actions
  hash_of_hit := by
    intro s s' hash file h
    rw [FsCache.fetchBlob] at h
    split at h
    · cases h
    · next content _ =>
      split_ifs at h with hhash
      · cases h
        exact ⟨content, rfl, hhash⟩
      · cases h
  entry_getAction _ _ := rfl
  entry_fetchBlob _ _ := rfl
  entry_publishBlob s hash file := by
    rw [FsCache.publishBlob]
    split
    · rfl
    · split_ifs <;> rfl
  entry_outOfSpace _ := rfl

end Fs

/-! ### Copying the blobs -/

section Spec

variable {σ Content : Type} {t : Transfer σ Content} {pid hash path key : Text}
  {w w' w'' : Copying σ Content} {hashes : List Text}

/-- What copying blobs does not do: leave a file, change an entry of the destination, or put an action. -/
structure Quiet (t : Transfer σ Content) (w w' : Copying σ Content) : Prop where
  files : ∀ path content, w'.files path = some content → w.files path = some content
  entry : t.entry w'.outer = t.entry w.outer
  calls : ∃ new, w'.calls = w.calls ++ new ∧ ∀ key text, Call.putAction key text ∉ new

/-- A blob was fetched with its right hash and published without conflict. -/
def Copied (t : Transfer σ Content) (calls : List (Call Content)) (hash : Text) : Prop :=
  (∃ content, Call.fetched hash content ∈ calls ∧ t.sha256 content = hash) ∧
    ∃ result, Call.published hash result ∈ calls ∧ ∀ detail, result ≠ .conflict detail

theorem Quiet.refl : Quiet t w w :=
  ⟨fun _ _ h ↦ h, rfl, [], (List.append_nil _).symm, fun _ _ ↦ List.not_mem_nil⟩

theorem Quiet.trans (h : Quiet t w w') (h' : Quiet t w' w'') : Quiet t w w'' := by
  obtain ⟨new, hnew, hquiet⟩ := h.calls
  obtain ⟨new', hnew', hquiet'⟩ := h'.calls
  refine ⟨fun path content hfile ↦ h.files _ _ (h'.files _ _ hfile), h'.entry.trans h.entry,
    new ++ new', ?_, fun key text hmem ↦ ?_⟩
  · rw [hnew', hnew, List.append_assoc]
  · exact (List.mem_append.mp hmem).elim (hquiet key text) (hquiet' key text)

theorem Copied.mono {calls new : List (Call Content)} (h : Copied t calls hash) :
    Copied t (calls ++ new) hash := by
  obtain ⟨⟨content, hfetched, hhash⟩, result, hpublished, hresult⟩ := h
  exact ⟨⟨content, List.mem_append_left _ hfetched, hhash⟩, result,
    List.mem_append_left _ hpublished, hresult⟩

/-- Whether fetching a blob succeeds or not, only its temporary file is new. -/
theorem fetchBlobOrRaise_spec (t : Transfer σ Content) (hash path : Text) (w : Copying σ Content) :
    let r := fetchBlobOrRaise t hash path w
    (∀ other, other ≠ path → r.2.files other = w.files other) ∧
      t.entry r.2.outer = t.entry w.outer ∧
      (∃ new, r.2.calls = w.calls ++ new ∧ (∀ key text, Call.putAction key text ∉ new) ∧
        (r.1 = .ok () → ∃ content, Call.fetched hash content ∈ new ∧ t.sha256 content = hash)) := by
  intro r
  rcases hfetch : t.fetchBlob w.outer hash with ⟨answer, file, outer⟩
  have hentry : t.entry outer = t.entry w.outer := by
    have hkept := t.entry_fetchBlob w.outer hash
    rwa [hfetch] at hkept
  have hfiles : ∀ other, other ≠ path → Function.update w.files path file other = w.files other :=
    fun other hother ↦ Function.update_of_ne hother _ _
  have hnone : ∃ new, w.calls = w.calls ++ new ∧ ∀ key text, Call.putAction key text ∉ new :=
    ⟨[], (List.append_nil _).symm, fun _ _ ↦ List.not_mem_nil⟩
  obtain ⟨none, hcalls, hquiet⟩ := hnone
  have hr : r = fetchBlobOrRaise t hash path w := rfl
  rw [fetchBlobOrRaise, hfetch] at hr
  rcases answer with message | (_ | _ | detail)
  · rw [hr]
    exact ⟨hfiles, hentry, none, hcalls, hquiet, fun h ↦ nomatch h⟩
  · obtain ⟨content, rfl, hhash⟩ := t.hash_of_hit hfetch
    rw [hr]
    refine ⟨hfiles, hentry, [.fetched hash content], rfl, ?_, fun _ ↦ ?_⟩
    · exact fun key text hmem ↦ nomatch List.mem_singleton.mp hmem
    · exact ⟨content, List.mem_singleton_self _, hhash⟩
  · rw [hr]
    exact ⟨hfiles, hentry, none, hcalls, hquiet, fun h ↦ nomatch h⟩
  · rw [hr]
    exact ⟨hfiles, hentry, none, hcalls, hquiet, fun h ↦ nomatch h⟩

/-- Whether publishing a blob succeeds or not, no file is new. -/
theorem publishBlobOrRaise_spec (t : Transfer σ Content) (hash path : Text) (w : Copying σ Content) :
    let r := publishBlobOrRaise t hash path w
    r.2.files = w.files ∧ t.entry r.2.outer = t.entry w.outer ∧
      (∃ new, r.2.calls = w.calls ++ new ∧ (∀ key text, Call.putAction key text ∉ new) ∧
        ∀ counts, r.1 = .ok counts →
          ∃ result, Call.published hash result ∈ new ∧ ∀ detail, result ≠ .conflict detail) := by
  intro r
  rcases hpublish : t.publishBlob w.outer hash (w.files path) with ⟨answer, outer⟩
  have hentry : t.entry outer = t.entry w.outer := by
    have hkept := t.entry_publishBlob w.outer hash (w.files path)
    rwa [hpublish] at hkept
  have hr : r = publishBlobOrRaise t hash path w := rfl
  rw [publishBlobOrRaise, hpublish] at hr
  have hpublished : ∀ (result : PublishResult) (counts : Counts),
      (∀ detail, result ≠ .conflict detail) →
      r = (.ok counts, { w with outer, calls := w.calls ++ [.published hash result] }) →
      r.2.files = w.files ∧ t.entry r.2.outer = t.entry w.outer ∧
        (∃ new, r.2.calls = w.calls ++ new ∧ (∀ key text, Call.putAction key text ∉ new) ∧
          ∀ counts, r.1 = .ok counts →
            ∃ result, Call.published hash result ∈ new ∧ ∀ detail, result ≠ .conflict detail) := by
    intro result counts hresult hr
    rw [hr]
    refine ⟨rfl, hentry, [.published hash result], rfl, ?_, fun _ _ ↦ ?_⟩
    · exact fun key text hmem ↦ nomatch List.mem_singleton.mp hmem
    · exact ⟨result, List.mem_singleton_self _, hresult⟩
  rcases answer with message | (_ | _ | _ | detail)
  · rw [hr]
    exact ⟨rfl, hentry, [], (List.append_nil _).symm, fun _ _ ↦ List.not_mem_nil, fun _ h ↦ nomatch h⟩
  · exact hpublished .published _ (fun _ h ↦ nomatch h) hr
  · exact hpublished .alreadyPresent _ (fun _ h ↦ nomatch h) hr
  · exact hpublished .skipped _ (fun _ h ↦ nomatch h) hr
  · rw [hr]
    exact ⟨rfl, hentry, [], (List.append_nil _).symm, fun _ _ ↦ List.not_mem_nil, fun _ h ↦ nomatch h⟩

/-- Whether a blob is fetched and published or not, only its temporary file is new. -/
theorem fetchAndPublish_spec (t : Transfer σ Content) (hash path : Text) (w : Copying σ Content) :
    let r := fetchAndPublish t hash path w
    (∀ other, other ≠ path → r.2.files other = w.files other) ∧
      t.entry r.2.outer = t.entry w.outer ∧
      (∃ new, r.2.calls = w.calls ++ new ∧ (∀ key text, Call.putAction key text ∉ new) ∧
        ∀ counts, r.1 = .ok counts → Copied t new hash) := by
  dsimp only
  obtain ⟨hfiles, hentry, fetched, hcalls, hquiet, hfetched⟩ := fetchBlobOrRaise_spec t hash path w
  rw [fetchAndPublish]
  rcases hfetch : fetchBlobOrRaise t hash path w with ⟨message | _, v⟩
  · rw [hfetch] at hfiles hentry hcalls
    exact ⟨hfiles, hentry, fetched, hcalls, hquiet, fun _ h ↦ nomatch h⟩
  · rw [hfetch] at hfiles hentry hcalls hfetched
    obtain ⟨content, hcontent, hhash⟩ := hfetched rfl
    obtain ⟨hfiles', hentry', published, hcalls', hquiet', hpublished⟩ :=
      publishBlobOrRaise_spec t hash path v
    refine ⟨fun other hother ↦ (congrFun hfiles' other).trans (hfiles other hother),
      hentry'.trans hentry, fetched ++ published, ?_, fun key text hmem ↦ ?_, fun counts hok ↦ ?_⟩
    · rw [← List.append_assoc]
      exact hcalls'.trans (congrArg (· ++ published) hcalls)
    · exact (List.mem_append.mp hmem).elim (hquiet key text) (hquiet' key text)
    · obtain ⟨result, hresult, hconflict⟩ := hpublished counts hok
      exact ⟨⟨content, List.mem_append_left _ hcontent, hhash⟩, result,
        List.mem_append_right _ hresult, hconflict⟩

/-- A file that is there when a temporary one is removed, and new only as that one, was there before. -/
theorem files_of_removeFile (hsame : ∀ other, other ≠ path → w'.files other = w.files other)
    {other : Text} {content : Content} (hfile : (w'.removeFile path).files other = some content) :
    w.files other = some content := by
  have hupdate : Function.update w'.files path none other = some content := hfile
  by_cases hother : other = path
  · rw [hother, Function.update_self] at hupdate
    cases hupdate
  · rwa [Function.update_of_ne hother, hsame other hother] at hupdate

/-- A blob is copied, or an error raised, and its temporary file is gone. -/
theorem copyBlob_spec (t : Transfer σ Content) (pid hash : Text) (counts : Counts)
    (w : Copying σ Content) :
    let r := copyBlob t pid hash counts w
    Quiet t w r.2 ∧ ∀ counts', r.1 = .ok counts' → Copied t r.2.calls hash := by
  dsimp only
  obtain ⟨hfiles, hentry, new, hcalls, hquiet, hcopied⟩ :=
    fetchAndPublish_spec t hash (tempBlobPath pid hash (w.lastId + 1)) { w with lastId := w.lastId + 1 }
  rw [copyBlob]
  dsimp only
  rcases hcopy : fetchAndPublish t hash (tempBlobPath pid hash (w.lastId + 1))
    { w with lastId := w.lastId + 1 } with ⟨message | added, v⟩
  · rw [hcopy] at hfiles hentry hcalls
    have hquiet' : Quiet t w (({ v with outer := (t.outOfSpace v.outer).2 } :
        Copying σ Content).removeFile (tempBlobPath pid hash (w.lastId + 1))) :=
      ⟨fun _ _ ↦ files_of_removeFile hfiles, (t.entry_outOfSpace v.outer).trans hentry, new, hcalls,
        hquiet⟩
    dsimp only
    split_ifs
    · exact ⟨hquiet', fun _ h ↦ nomatch h⟩
    · exact ⟨hquiet', fun _ h ↦ nomatch h⟩
  · rw [hcopy] at hfiles hentry hcalls hcopied
    refine ⟨⟨fun _ _ ↦ files_of_removeFile hfiles, hentry, new, hcalls, hquiet⟩, fun _ _ ↦ ?_⟩
    obtain ⟨⟨content, hcontent, hhash⟩, result, hresult, hconflict⟩ := hcopied added rfl
    have hmem : ∀ call ∈ new, call ∈ v.calls := by
      intro call hcall
      rw [hcalls]
      exact List.mem_append_right _ hcall
    exact ⟨⟨content, hmem _ hcontent, hhash⟩, result, hmem _ hresult, hconflict⟩

/-- All the blobs are copied, or an error raised, and no temporary file is left. -/
theorem copyBlobs_spec (t : Transfer σ Content) (pid : Text) (hashes : List Text) :
    ∀ (counts : Counts) (w : Copying σ Content),
      let r := copyBlobs t pid hashes counts w
      Quiet t w r.2 ∧ ∀ counts', r.1 = .ok counts' → ∀ hash ∈ hashes, Copied t r.2.calls hash := by
  induction hashes with
  | nil => exact fun counts w ↦ ⟨.refl, fun _ _ hash h ↦ absurd h List.not_mem_nil⟩
  | cons hash rest ih =>
    intro counts w
    dsimp only
    obtain ⟨hquiet, hcopied⟩ := copyBlob_spec t pid hash counts w
    rw [copyBlobs]
    rcases hcopy : copyBlob t pid hash counts w with ⟨message | new, v⟩
    · rw [hcopy] at hquiet
      exact ⟨hquiet, fun _ h ↦ nomatch h⟩
    · rw [hcopy] at hquiet hcopied
      obtain ⟨hquiet', hcopied'⟩ := ih new v
      refine ⟨hquiet.trans hquiet', fun counts' hok other hother ↦ ?_⟩
      rcases List.mem_cons.mp hother with rfl | hother
      · obtain ⟨later, hlater, -⟩ := hquiet'.calls
        have hkept : Copied t (v.calls ++ later) other := (hcopied new rfl).mono
        rw [← hlater] at hkept
        exact hkept
      · exact hcopied' counts' hok other hother

/-! ### Copying an entry -/

/-- What copying an entry leaves: no action was put, the destination's entries are what they were and an
error is raised; or, after every blob that the source's manifest refers to, that manifest was put. -/
def EntryCopied (t : Transfer σ Content) (key : Text) (w w' : Copying σ Content)
    (result : Checked EntryResult) : Prop :=
  (∃ new, w'.calls = w.calls ++ new ∧ (∀ key text, Call.putAction key text ∉ new) ∧
      t.entry w'.outer = t.entry w.outer ∧ ∃ message, result = .error message) ∨
    ∃ text before, w'.calls = w.calls ++ before ++ [.putAction key text] ∧
      Call.gotAction key text ∈ before ∧ (∀ key text, Call.putAction key text ∉ before) ∧
        ∀ hash ∈ uniqueBlobs text, Copied t (w.calls ++ before) hash

theorem putActionOrRaise_calls (t : Transfer σ Content) (key text : Text) (w : Copying σ Content) :
    (putActionOrRaise t key text w).2.calls = w.calls ++ [.putAction key text] ∧
      (putActionOrRaise t key text w).2.files = w.files := by
  rw [putActionOrRaise]
  split
  · exact ⟨rfl, rfl⟩
  · exact ⟨rfl, rfl⟩

/-- Copying an entry is all or nothing, and leaves no file. -/
theorem copyEntry_spec (t : Transfer σ Content) (pid key : Text) (w : Copying σ Content) :
    let r := copyEntry t pid key w
    (∀ path content, r.2.files path = some content → w.files path = some content) ∧
      EntryCopied t key w r.2 r.1 := by
  dsimp only
  have hentry := t.entry_getAction w.outer key
  rw [copyEntry]
  dsimp only
  rcases hget : t.getAction w.outer key with ⟨message | (_ | text), outer⟩
  · rw [hget] at hentry
    exact ⟨fun _ _ h ↦ h, .inl ⟨[], (List.append_nil _).symm, fun _ _ ↦ List.not_mem_nil, hentry,
      _, rfl⟩⟩
  · rw [hget] at hentry
    exact ⟨fun _ _ h ↦ h, .inl ⟨[], (List.append_nil _).symm, fun _ _ ↦ List.not_mem_nil, hentry,
      _, rfl⟩⟩
  · rw [hget] at hentry
    dsimp only
    obtain ⟨hquiet, hcopied⟩ := copyBlobs_spec t pid (uniqueBlobs text) (0, 0)
      { w with outer, calls := w.calls ++ [.gotAction key text] }
    obtain ⟨new, hcalls, hputs⟩ := hquiet.calls
    have hputs' : ∀ key' text', Call.putAction key' text' ∉ Call.gotAction key text :: new := by
      intro key' text' hmem
      rcases List.mem_cons.mp hmem with heq | hmem
      · cases heq
      · exact hputs key' text' hmem
    rcases hcopy : copyBlobs t pid (uniqueBlobs text) (0, 0)
      { w with outer, calls := w.calls ++ [.gotAction key text] } with ⟨message | counts, v⟩
    · rw [hcopy] at hquiet hcalls
      refine ⟨hquiet.files, .inl ⟨.gotAction key text :: new, ?_, hputs',
        hquiet.entry.trans hentry, _, rfl⟩⟩
      rw [← List.singleton_append, ← List.append_assoc]
      exact hcalls
    · rw [hcopy] at hquiet hcalls hcopied
      have hcalls' : v.calls = w.calls ++ .gotAction key text :: new := by
        rw [← List.singleton_append, ← List.append_assoc]
        exact hcalls
      obtain ⟨hput, hfiles⟩ := putActionOrRaise_calls t key text v
      have hdone : ∀ result, EntryCopied t key w (putActionOrRaise t key text v).2 result := by
        intro result
        refine .inr ⟨text, .gotAction key text :: new, ?_, List.mem_cons_self, hputs',
          fun hash hhash ↦ ?_⟩
        · rw [hput, hcalls']
        · rw [← hcalls']
          exact hcopied counts rfl hash hhash
      have hleft : ∀ path content, (putActionOrRaise t key text v).2.files path = some content →
          w.files path = some content := by
        intro path content hfile
        rw [hfiles] at hfile
        exact hquiet.files path content hfile
      dsimp only
      rcases hresult : putActionOrRaise t key text v with ⟨message | action, u⟩
      · rw [hresult] at hdone hleft
        exact ⟨hleft, hdone _⟩
      · rw [hresult] at hdone hleft
        exact ⟨hleft, hdone _⟩

/-- Copying an entry is all or nothing and complete: whatever the source and the destination do, an
action is put only after every blob its manifest refers to was fetched with its right hash and published
without conflict, no temporary file is left, and otherwise the destination's entries are what they were.
The blobs it copies are those the collector keeps, those of a run's outputs, and those of a theory's
manifest and its template line. -/
theorem copyEntry_complete (t : Transfer σ Content) (pid key : Text) (w : Copying σ Content) :
    ((∀ path content, (copyEntry t pid key w).2.files path = some content →
        w.files path = some content) ∧
      EntryCopied t key w (copyEntry t pid key w).2 (copyEntry t pid key w).1) ∧
    ∀ inputKey text hash,
      (hash ∈ actionLiveBlobs text ↔ hash ∈ uniqueBlobs text) ∧
      (∀ manifest, cacheManifestBlobsFromLines inputKey (cacheManifestLines text) = .ok manifest →
        (hash ∈ uniqueBlobs text ↔
          hash ∈ manifest.hashes ∨ ∃ line ∈ cacheManifestLines text, IsTemplateLine line hash)) ∧
      ∀ outputs, runManifestOutputs inputKey text = .ok outputs →
        (hash ∈ uniqueBlobs text ↔ hash ∈ outputs.map Prod.snd) :=
  ⟨copyEntry_spec t pid key w, fun _ _ _ ↦ ⟨mem_actionLiveBlobs,
    fun _ h ↦ mem_uniqueBlobs_of_theory h, fun _ h ↦ mem_uniqueBlobs_of_run h⟩⟩

/-- A manifest with both an `sml` and an `sml-template` line. -/
def templateManifest : Text :=
  "holbuild-cache-action-v4\ninput_key=\nkind=theory\nload-metadata-v1\nblob sig ".toList ++
    List.replicate 64 'a' ++ "\nblob sml ".toList ++ List.replicate 64 'b' ++
      "\nblob sml-template ".toList ++ List.replicate 64 'c' ++ "\nblob dat ".toList ++
        List.replicate 64 'd' ++ ['\n']

/-- The blob of the template line is copied and kept, and is not in the manifest that is read. -/
theorem template_copied : ¬ ∀ inputKey text manifest,
    cacheManifestBlobsFromLines inputKey (cacheManifestLines text) = .ok manifest →
      ∀ hash, (hash ∈ uniqueBlobs text ↔ hash ∈ manifest.hashes) := by
  intro hsame
  have hread : cacheManifestBlobsFromLines [] (cacheManifestLines templateManifest) =
      .ok { sigHash := List.replicate 64 'a', smlHash := List.replicate 64 'b',
            datHash := List.replicate 64 'd', traceHash := none, extraHashes := [], parents := [],
            mldeps := [] } := by
    decide +kernel
  have hcopied : List.replicate 64 'c' ∈ uniqueBlobs templateManifest := by decide +kernel
  have hmem := (hsame _ _ _ hread _).mp hcopied
  exact absurd hmem (by decide +kernel)

end Spec

end Holbuild.Cache
