import Holbuild.Library.Machine
import Holbuild.Cache.References

/-!
# The toolchain that remote workers share

A worker that needs a HOL toolchain validates the entry of its own cache root, else restores the archive
that the remote's record names, else builds HOL and publishes an archive of what it built. A worker whose
archive did not become the remote's discards its build and restores the remote's archive, so that every
worker has the same bytes.

The remote has no compare-and-swap, and `build.ok` is written before the publication. Two workers can both
return with their own builds, and one that is killed before it has published returns with its own build when
it is started again (`workers_disagree`). Where no record is put over one that names a good archive, and no
worker is stopped while its entry is marked as built but is its own, every worker that returned has the bytes
that the remote's record names (`workers_agree`).
-/

set_option autoImplicit false
set_option relaxedAutoImplicit false

namespace Holbuild.Toolchain

open Library Cache

/-! ### Entries and archives -/

/-- What a toolchain's directory holds: the HOL checkout, and whether the two files that are generated
beside it are there. -/
structure Contents (Bytes : Type) where
  hol : Bytes
  sourceManifest : Bool
  theoryToolchain : Bool
deriving DecidableEq

/-- A toolchain's directory, with or without `build.ok`. -/
structure Entry (Bytes : Type) where
  contents : Contents Bytes
  ok : Bool
deriving DecidableEq

/-- An archive of a toolchain: its manifest, whether it contains a file that only an installed entry has,
and what it is an archive of. -/
structure Archive (Bytes : Type) where
  manifest : Text
  reserved : Bool
  contents : Contents Bytes
deriving DecidableEq

def isHex (c : Char) : Bool := c.isDigit || ('a' ≤ c && c ≤ 'f') || ('A' ≤ c && c ≤ 'F')

def validSha256 (text : Text) : Bool := text.length = 64 && text.all isHex

/-- What is asked of a HOL checkout, the identity of its archives, and the hashes of archives. -/
structure Setting (Bytes : Type) where
  built : Bytes → Bool
  hasGit : Bytes → Bool
  clean : Bytes → Bool
  heapLoads : Bytes → Bool
  /-- Whether the sources of an older checkout can be listed. -/
  listable : Bytes → Bool
  identity : Text
  fileSha256 : Archive Bytes → Text
  fileSha256_valid : ∀ archive, validSha256 (fileSha256 archive)

variable {Bytes : Type} (setting : Setting Bytes)

inductive Validity
  | valid
  | invalid
  | broken
deriving DecidableEq

/-- An entry is used, is replaced, or stops the program. -/
def validateEntry : Option (Entry Bytes) → Validity
  | none => .invalid
  | some entry =>
    if entry.ok = false then .invalid
    else if setting.built entry.contents.hol = false then .broken
    else if setting.hasGit entry.contents.hol = false then .invalid
    else if setting.clean entry.contents.hol then .valid
    else .broken

def completeToolchainContents (hol : Bytes) : Bool :=
  setting.built hol && setting.heapLoads hol && setting.clean hol

def archiveFormat : Text := "holbuild-toolchain-archive-v1".toList

def manifestMarker : Text := "identity-text-v1\n".toList

def manifestText (identity : Text) : Text := archiveFormat ++ '\n' :: (manifestMarker ++ identity)

def createArchive (contents : Contents Bytes) : Archive Bytes :=
  ⟨manifestText setting.identity, false, contents⟩

/-- Whether extracting an archive gives an entry for this identity. -/
def Archive.extracts (archive : Archive Bytes) : Bool :=
  archive.manifest = manifestText setting.identity && !archive.reserved

/-- Whether an archive is restored where there is no entry. -/
def Archive.good (archive : Archive Bytes) : Bool :=
  archive.extracts setting && completeToolchainContents setting archive.contents.hol

/-! ### Records -/

def remoteRecord (hash : Text) : Text := "blob=".toList ++ hash ++ ['\n']

/-- The blob that a record names; `none` when the record is rejected. -/
def parseRemoteRecord (text : Text) : Option Text :=
  match uniqueBlobs text with
  | [hash] => if validSha256 hash then some hash else none
  | _ => none

theorem isSpace_of_isHex {c : Char} (h : isHex c) : isSpace c = false := by
  have hlarge : 48 ≤ c.toNat := by
    simp only [isHex, Bool.or_eq_true, Bool.and_eq_true, decide_eq_true_eq, Char.isDigit] at h
    rcases h with (⟨hzero, -⟩ | ⟨ha, -⟩) | ⟨ha, -⟩
    · exact UInt32.le_iff_toNat_le.mp hzero
    · exact (show 48 ≤ 97 by decide).trans (UInt32.le_iff_toNat_le.mp (Char.le_def.mp ha))
    · exact (show 48 ≤ 65 by decide).trans (UInt32.le_iff_toNat_le.mp (Char.le_def.mp ha))
  have hne : c ≠ ' ' := by
    rintro rfl
    exact absurd hlarge (by decide)
  simp only [isSpace, decide_eq_false_iff_not, not_or]
  exact ⟨hne, by omega⟩

/-- A record reads back as the hash it was written for. -/
theorem parseRemoteRecord_remoteRecord {hash : Text} (h : validSha256 hash) :
    parseRemoteRecord (remoteRecord hash) = some hash := by
  obtain ⟨hlength, hhex⟩ : hash.length = 64 ∧ ∀ c ∈ hash, isHex c := by
    simpa [validSha256, List.all_eq_true] using h
  have hall : ("blob=".toList.all fun c ↦ !isSpace c) = true := by decide
  have hstart : ∀ c ∈ "blob=".toList, isSpace c = false := fun c hc ↦ by
    simpa using List.all_eq_true.mp hall c hc
  have hspace : ∀ c ∈ "blob=".toList ++ hash, isSpace c = false := by
    intro c hc
    rcases List.mem_append.mp hc with hc | hc
    · exact hstart c hc
    · exact isSpace_of_isHex (hhex c hc)
  have hnewline : '\n' ∉ "blob=".toList ++ hash := fun hmem ↦ absurd (hspace _ hmem) (by decide)
  have hlines : cacheManifestLines (remoteRecord hash) = ["blob=".toList ++ hash] := by
    refine tokens_append_singleton (by simp) (fun c hc ↦ ?_) (by decide)
    exact decide_eq_false fun heq ↦ hnewline (heq ▸ hc)
  have htoken : takeToken hash = hash := by
    refine List.takeWhile_eq_self_iff.mpr fun c hc ↦ decide_eq_true ?_
    have hc := isSpace_of_isHex (hhex c hc)
    refine ⟨?_, ?_, ?_⟩ <;> (rintro rfl; exact absurd hc (by decide))
  have hblob : blobRef ("blob=".toList ++ hash) = some hash := by
    rw [blobRef, trimNewline_eq_self hnewline, tokens_eq_singleton (by simp) hspace]
    show (afterStart _ ("blob=".toList ++ hash)).map takeToken = some hash
    simp [afterStart, htoken]
  have hblobs : uniqueBlobs (remoteRecord hash) = [hash] := by
    rw [uniqueBlobs, hlines, List.foldl_cons, List.foldl_nil, hblob]
    simp
  rw [parseRemoteRecord, hblobs]
  show (if validSha256 hash then some hash else none) = some hash
  rw [if_pos h]

/-! ### Workers and the remote -/

/-- The remote's record of the toolchain, and its blobs by hash. -/
structure Remote (Bytes : Type) where
  record : Option Text
  blobs : Text → Option (Archive Bytes)

/-- Why an entry is restored. -/
inductive Restore
  | first
  | adopting
deriving DecidableEq

/-- Why an entry is removed: HOL is built in its place, the remote's is restored in its place, or its
build failed. -/
inductive Removal
  | build (replace : Bool)
  | adopt
  | failed
deriving DecidableEq

/-- Where a worker is. -/
inductive Phase (Bytes : Type)
  /-- No program runs. -/
  | idle
  | validating
  | restoring (why : Restore)
  /-- The record is read; its blob is fetched. -/
  | fetching (hash : Text) (why : Restore)
  /-- The archive is renamed to the entry; the entry is checked. -/
  | installed (why : Restore)
  | removing (why : Removal)
  | building (replace : Bool)
  /-- The generated files are written; a build is published, replacing the record or not. -/
  | finishing (publication : Option Bool)
  | publishing (replace : Bool)
  | creating (replace : Bool)
  | uploading (replace : Bool) (archive : Archive Bytes)
  /-- The record is read before it is put. -/
  | reading (archive : Archive Bytes)
  | putting (archive : Archive Bytes)
  /-- The record is read after it was put. -/
  | confirming (archive : Archive Bytes)
  /-- The program goes on with the entry. -/
  | returned
deriving DecidableEq

structure Worker (Bytes : Type) where
  entry : Option (Entry Bytes)
  phase : Phase Bytes
deriving DecidableEq

/-- What follows when no archive is restored; a rejected one is replaced. -/
def notRestored (rejected : Bool) : Restore → Phase Bytes
  | .first => .removing (.build rejected)
  | .adopting => .idle

/-- What follows when an archive is restored. -/
def restored : Restore → Phase Bytes
  | .first => .finishing none
  | .adopting => .returned

def validate (worker : Worker Bytes) : Worker Bytes :=
  { worker with
    phase := match validateEntry setting worker.entry with
      | .valid => .finishing none
      | .invalid => .restoring .first
      | .broken => .idle }

/-- An entry without `build.ok` is removed, and the record is read. -/
def startRestore (remote : Remote Bytes) (why : Restore) (worker : Worker Bytes) : Worker Bytes where
  entry := worker.entry.filter (·.ok)
  phase := match remote.record with
    | none => notRestored false why
    | some text =>
      match parseRemoteRecord text with
      | none => notRestored true why
      | some hash => .fetching hash why

/-- The blob is fetched, and extracted where there is no entry. -/
def install (remote : Remote Bytes) (hash : Text) (why : Restore) (worker : Worker Bytes) :
    Worker Bytes :=
  match remote.blobs hash with
  | none => { worker with phase := notRestored true why }
  | some archive =>
    if setting.fileSha256 archive ≠ hash then { worker with phase := notRestored false why }
    else if worker.entry.isSome then { worker with phase := notRestored false why }
    else if archive.extracts setting then ⟨some ⟨archive.contents, false⟩, .installed why⟩
    else { worker with phase := notRestored true why }

/-- An installed entry is marked as built if it is complete, and removed if it is not. -/
def checkInstalled (why : Restore) (worker : Worker Bytes) : Worker Bytes :=
  match worker.entry with
  | some entry =>
    if completeToolchainContents setting entry.contents.hol then
      ⟨some { entry with ok := true }, restored why⟩
    else ⟨none, notRestored true why⟩
  | none => ⟨none, notRestored true why⟩

/-- What follows when an entry is removed. -/
def removed (why : Removal) : Worker Bytes where
  entry := none
  phase := match why with
    | .build replace => .building replace
    | .adopt => .restoring .adopting
    | .failed => .idle

/-- The generated files are written if they are missing. An entry whose sources cannot be listed is built
again. -/
def finishEntry (publication : Option Bool) (worker : Worker Bytes) : Worker Bytes :=
  match worker.entry with
  | some entry =>
    if entry.contents.theoryToolchain || setting.listable entry.contents.hol then
      ⟨some { entry with contents := ⟨entry.contents.hol, true, true⟩ },
        publication.elim .returned .publishing⟩
    else ⟨some { entry with contents := ⟨entry.contents.hol, true, false⟩ }, .removing (.build false)⟩
  | none => { worker with phase := .idle }

/-- A complete entry is published, unless there is a record that is not to be replaced. -/
def publishEntry (remote : Remote Bytes) (replace : Bool) (worker : Worker Bytes) : Worker Bytes :=
  match worker.entry with
  | some entry =>
    if entry.ok && completeToolchainContents setting entry.contents.hol &&
        (replace || remote.record.isNone) then { worker with phase := .creating replace }
    else { worker with phase := .removing .adopt }
  | none => { worker with phase := .removing .adopt }

/-- A blob that is there already is left alone. No two archives have the same hash: `none` where another
has it. -/
def Remote.publishBlob [DecidableEq Bytes] (remote : Remote Bytes) (archive : Archive Bytes) : Option (Remote Bytes) :=
  match remote.blobs (setting.fileSha256 archive) with
  | some present => if present = archive then some remote else none
  | none =>
    some { remote with blobs := Function.update remote.blobs (setting.fileSha256 archive) (some archive) }

/-- The next step of a worker by itself; `none` where HOL is built or no step is left. -/
def advance [DecidableEq Bytes] (remote : Remote Bytes) (worker : Worker Bytes) :
    Option (Remote Bytes × Worker Bytes) :=
  match worker.phase with
  | .idle => some (remote, { worker with phase := .validating })
  | .validating => some (remote, validate setting worker)
  | .restoring why => some (remote, startRestore remote why worker)
  | .fetching hash why => some (remote, install setting remote hash why worker)
  | .installed why => some (remote, checkInstalled setting why worker)
  | .removing why => some (remote, removed why)
  | .building _ => none
  | .finishing publication => some (remote, finishEntry setting publication worker)
  | .publishing replace => some (remote, publishEntry setting remote replace worker)
  | .creating replace =>
    worker.entry.map fun entry ↦
      (remote, { worker with phase := .uploading replace (createArchive setting entry.contents) })
  | .uploading replace archive =>
    (remote.publishBlob setting archive).map fun published ↦
      (published, { worker with phase := if replace then .putting archive else .reading archive })
  | .reading archive =>
    some (remote, { worker with
      phase := if remote.record.isNone then .putting archive else .removing .adopt })
  | .putting archive =>
    some ({ remote with record := some (remoteRecord (setting.fileSha256 archive)) },
      { worker with phase := .confirming archive })
  | .confirming archive =>
    some (remote, { worker with
      phase := if remote.record.bind parseRemoteRecord = some (setting.fileSha256 archive) then .returned
        else .removing .adopt })
  | .returned => none

/-! ### Runs -/

/-- What happens to a worker. -/
inductive Action (Bytes : Type)
  | advance
  /-- A removal or a build goes on, and leaves a part of an entry. -/
  | leave (part : Entry Bytes)
  /-- HOL is built. -/
  | build (hol : Bytes)
  /-- The build fails, or the archive cannot be created. -/
  | fail
  /-- The worker is killed, or its program ends. -/
  | stop
deriving DecidableEq

/-- One step of a worker. -/
def act [DecidableEq Bytes] (remote : Remote Bytes) (worker : Worker Bytes) :
    Action Bytes → Option (Remote Bytes × Worker Bytes)
  | .advance => advance setting remote worker
  | .leave part =>
    match worker.phase with
    | .removing _ =>
      if worker.entry.any fun entry ↦ entry.ok || !part.ok then
        some (remote, { worker with entry := some part })
      else none
    | .building _ => if part.ok then none else some (remote, { worker with entry := some part })
    | _ => none
  | .build hol =>
    match worker.phase with
    | .building replace =>
      if setting.built hol && setting.clean hol then
        some (remote, ⟨some ⟨⟨hol, true, true⟩, true⟩, .finishing (some replace)⟩)
      else none
    | _ => none
  | .fail =>
    match worker.phase with
    | .building _ => some (remote, { worker with phase := .removing .failed })
    | .creating _ => some (remote, { worker with phase := .removing .adopt })
    | _ => none
  | .stop => some (remote, { worker with phase := .idle })

/-- The remote and the workers, any number of them. -/
structure State (Bytes : Type) where
  remote : Remote Bytes
  workers : ℕ → Worker Bytes

/-- A remote that holds its blobs under their hashes, and the blob that its record names. -/
structure Start extends Remote Bytes where
  addressed : ∀ hash archive, blobs hash = some archive → setting.fileSha256 archive = hash
  resolved : ∀ text hash, record = some text → parseRemoteRecord text = some hash → (blobs hash).isSome

/-- Workers that start with empty cache roots. -/
def machine [DecidableEq Bytes] (start : Start setting) : Machine (State Bytes) (ℕ × Action Bytes) where
  initial := ⟨start.toRemote, fun _ ↦ ⟨none, .idle⟩⟩
  step s event := (act setting s.remote (s.workers event.1) event.2).map fun next ↦
    ⟨next.1, Function.update s.workers event.1 next.2⟩

/-- The contents of the archive that the remote's record names. -/
def Remote.named (remote : Remote Bytes) : Option (Archive Bytes) :=
  (remote.record.bind parseRemoteRecord).bind remote.blobs

/-- The HOL checkout that is restored from the remote. -/
def Remote.held (remote : Remote Bytes) : Option Bytes :=
  (remote.named.filter (·.good setting)).map (·.contents.hol)

/-- Whether a worker is killed or ended without an entry that is marked as built being its own build, or
a part of an entry. -/
def Worker.mayStop (worker : Worker Bytes) : Bool :=
  match worker.phase with
  | .removing _ => worker.entry.all fun entry ↦ !entry.ok
  | .finishing (some _) | .publishing _ | .creating _ | .uploading _ _ | .reading _ | .putting _ => false
  | _ => true

/-- Whether a worker puts its record. -/
def Worker.puts (worker : Worker Bytes) : Action Bytes → Bool
  | .advance => match worker.phase with
    | .putting _ => true
    | _ => false
  | _ => false

/-- A record is put only where the remote holds no good archive, and a worker is stopped only where it
may. -/
def careful (s : State Bytes) (event : ℕ × Action Bytes) : Bool :=
  (!(s.workers event.1).puts event.2 || (s.remote.held setting).isNone) &&
    match event.2 with
    | .stop => (s.workers event.1).mayStop
    | _ => true

def carefulMachine [DecidableEq Bytes] (start : Start setting) : Machine (State Bytes) (ℕ × Action Bytes) :=
  (machine setting start).guard fun s event ↦ careful setting s event

/-! ### What a careful run keeps -/

variable {setting} {remote remote' : Remote Bytes} {worker worker' : Worker Bytes}

/-- The remote's blobs are under their hashes, and its record names one of them. -/
structure Remote.Sound (setting : Setting Bytes) (remote : Remote Bytes) : Prop where
  addressed : ∀ hash archive, remote.blobs hash = some archive → setting.fileSha256 archive = hash
  resolved : ∀ text hash, remote.record = some text → parseRemoteRecord text = some hash →
    (remote.blobs hash).isSome

/-- A later remote holds the blobs of an earlier one, and the checkout that the earlier one held. -/
structure Remote.Extends (setting : Setting Bytes) (remote remote' : Remote Bytes) : Prop where
  blobs : ∀ hash archive, remote.blobs hash = some archive → remote'.blobs hash = some archive
  held : ∀ hol, remote.held setting = some hol → remote'.held setting = some hol

theorem Remote.Extends.refl (remote : Remote Bytes) : remote.Extends setting remote :=
  ⟨fun _ _ h ↦ h, fun _ h ↦ h⟩

/-- An entry that is marked as built is the remote's. -/
def Trusted (setting : Setting Bytes) (remote : Remote Bytes) (entry : Option (Entry Bytes)) : Prop :=
  ∀ e, entry = some e → e.ok = true → remote.held setting = some e.contents.hol

/-- There is an entry, and it is the remote's. -/
def Adopted (setting : Setting Bytes) (remote : Remote Bytes) (entry : Option (Entry Bytes)) : Prop :=
  ∃ e, entry = some e ∧ remote.held setting = some e.contents.hol

/-- There is a complete entry, of which a worker has made an archive. -/
def Archived (setting : Setting Bytes) (entry : Option (Entry Bytes)) (archive : Archive Bytes) : Prop :=
  ∃ e, entry = some e ∧ completeToolchainContents setting e.contents.hol ∧
    archive = createArchive setting e.contents

/-- What is known of a worker where it is. -/
def Worker.Ok (setting : Setting Bytes) (remote : Remote Bytes) (worker : Worker Bytes) : Prop :=
  match worker.phase with
  | .idle | .validating | .restoring _ => Trusted setting remote worker.entry
  | .fetching hash _ => Trusted setting remote worker.entry ∧ ∃ archive,
      remote.blobs hash = some archive ∧
        (archive.good setting → remote.held setting = some archive.contents.hol)
  | .installed _ => ∃ e, worker.entry = some e ∧ e.ok = false ∧
      (completeToolchainContents setting e.contents.hol → remote.held setting = some e.contents.hol)
  | .building _ => ∀ e, worker.entry = some e → e.ok = false
  | .creating _ => ∃ e, worker.entry = some e ∧ completeToolchainContents setting e.contents.hol
  | .uploading _ archive => Archived setting worker.entry archive
  | .reading archive | .putting archive => Archived setting worker.entry archive ∧
      remote.blobs (setting.fileSha256 archive) = some archive
  | .finishing none | .confirming _ | .returned => Adopted setting remote worker.entry
  | .removing _ | .finishing (some _) | .publishing _ => True

theorem Trusted.mono {entry : Option (Entry Bytes)} (h : Trusted setting remote entry)
    (hextends : remote.Extends setting remote') : Trusted setting remote' entry :=
  fun e he hok ↦ hextends.held _ (h e he hok)

theorem Adopted.mono {entry : Option (Entry Bytes)} (h : Adopted setting remote entry)
    (hextends : remote.Extends setting remote') : Adopted setting remote' entry := by
  obtain ⟨e, he, hheld⟩ := h
  exact ⟨e, he, hextends.held _ hheld⟩

/-- What is known of a worker stays known while the remote is extended. -/
theorem Worker.Ok.mono (h : worker.Ok setting remote) (hextends : remote.Extends setting remote') :
    worker.Ok setting remote' := by
  rcases worker with ⟨entry, phase⟩
  cases phase with
  | idle => exact Trusted.mono h hextends
  | validating => exact Trusted.mono h hextends
  | restoring why => exact Trusted.mono h hextends
  | fetching hash why =>
    obtain ⟨htrusted, archive, hblob, hheld⟩ := h
    exact ⟨htrusted.mono hextends, archive, hextends.blobs _ _ hblob, fun hgood ↦
      hextends.held _ (hheld hgood)⟩
  | installed why =>
    obtain ⟨e, he, hok, hheld⟩ := h
    exact ⟨e, he, hok, fun hcomplete ↦ hextends.held _ (hheld hcomplete)⟩
  | removing why => trivial
  | building replace => exact h
  | finishing publication =>
    cases publication with
    | none => exact Adopted.mono h hextends
    | some replace => trivial
  | publishing replace => trivial
  | creating replace => exact h
  | uploading replace archive => exact h
  | reading archive => exact ⟨h.1, hextends.blobs _ _ h.2⟩
  | putting archive => exact ⟨h.1, hextends.blobs _ _ h.2⟩
  | confirming archive => exact Adopted.mono h hextends
  | returned => exact Adopted.mono h hextends

/-- An adopted entry is trusted. -/
theorem Adopted.trusted {entry : Option (Entry Bytes)} (h : Adopted setting remote entry) :
    Trusted setting remote entry := by
  obtain ⟨e, rfl, hheld⟩ := h
  rintro e' he -
  exact Option.some.inj he ▸ hheld

theorem trusted_none : Trusted setting remote (none : Option (Entry Bytes)) :=
  fun _ he ↦ nomatch he

/-- Restoring fails without touching the entry. -/
theorem ok_notRestored {entry : Option (Entry Bytes)} (rejected : Bool) (why : Restore)
    (h : Trusted setting remote entry) :
    Worker.Ok setting remote ⟨entry, notRestored rejected why⟩ := by
  cases why with
  | first => trivial
  | adopting => exact h

/-- What a good record's archive is of is held. -/
theorem held_of_record {text hash : Text} {archive : Archive Bytes} (hrecord : remote.record = some text)
    (hparse : parseRemoteRecord text = some hash) (hblob : remote.blobs hash = some archive)
    (hgood : archive.good setting) : remote.held setting = some archive.contents.hol := by
  have hnamed : remote.named = some archive := by
    simp [Remote.named, hrecord, hparse, hblob]
  rw [Remote.held, hnamed, Option.filter_some_pos hgood, Option.map_some]

/-- An entry that is used is marked as built. -/
theorem ok_of_valid {entry : Option (Entry Bytes)} (h : validateEntry setting entry = .valid) :
    ∃ e, entry = some e ∧ e.ok = true := by
  rcases entry with _ | e
  · cases h
  · refine ⟨e, rfl, ?_⟩
    by_contra hok
    rw [validateEntry, if_pos (Bool.eq_false_iff.mpr hok)] at h
    cases h

theorem ok_validate (h : Trusted setting remote worker.entry) :
    (validate setting worker).Ok setting remote := by
  rw [validate]
  rcases hvalidity : validateEntry setting worker.entry with _ | _ | _
  · obtain ⟨e, he, hok⟩ := ok_of_valid hvalidity
    exact ⟨e, he, h e he hok⟩
  · exact h
  · exact h

theorem ok_startRestore (hsound : remote.Sound setting) (why : Restore)
    (h : Trusted setting remote worker.entry) : (startRestore remote why worker).Ok setting remote := by
  have hcleaned : Trusted setting remote (worker.entry.filter (·.ok)) := fun e he ↦
    h e (Option.filter_eq_some_iff.mp he).1
  rw [startRestore]
  cases hrecord : remote.record with
  | none => exact ok_notRestored false why hcleaned
  | some text =>
    dsimp only
    cases hparse : parseRemoteRecord text with
    | none => exact ok_notRestored true why hcleaned
    | some hash =>
      obtain ⟨archive, hblob⟩ := Option.isSome_iff_exists.mp (hsound.resolved text hash hrecord hparse)
      exact ⟨hcleaned, archive, hblob, held_of_record hrecord hparse hblob⟩

theorem ok_install {hash : Text} (why : Restore) (h : Trusted setting remote worker.entry)
    (hblob : ∃ archive, remote.blobs hash = some archive ∧
      (archive.good setting → remote.held setting = some archive.contents.hol)) :
    (install setting remote hash why worker).Ok setting remote := by
  obtain ⟨archive, hblob, hheld⟩ := hblob
  rw [install, hblob]
  dsimp only
  split_ifs with hhash hentry hextracts
  · exact ok_notRestored false why h
  · exact ok_notRestored false why h
  · refine ⟨_, rfl, rfl, fun hcomplete ↦ hheld ?_⟩
    rw [Archive.good, hextracts, hcomplete, Bool.and_self]
  · exact ok_notRestored true why h

theorem ok_checkInstalled (why : Restore) {e : Entry Bytes} (he : worker.entry = some e)
    (hheld : completeToolchainContents setting e.contents.hol →
      remote.held setting = some e.contents.hol) :
    (checkInstalled setting why worker).Ok setting remote := by
  rw [checkInstalled, he]
  dsimp only
  split_ifs with hcomplete
  · cases why with
    | first => exact ⟨_, rfl, hheld hcomplete⟩
    | adopting => exact ⟨_, rfl, hheld hcomplete⟩
  · exact ok_notRestored true why trusted_none

theorem ok_removed (why : Removal) : (removed why).Ok setting remote := by
  cases why with
  | build replace => exact fun e he ↦ nomatch he
  | adopt => exact trusted_none
  | failed => exact trusted_none

theorem ok_finishEntry {publication : Option Bool}
    (h : publication = none → Adopted setting remote worker.entry) :
    (finishEntry setting publication worker).Ok setting remote := by
  rw [finishEntry]
  cases hentry : worker.entry with
  | none => exact trusted_none
  | some entry =>
    dsimp only
    split_ifs with htheory
    · cases publication with
      | none =>
        obtain ⟨e, he, hheld⟩ := h rfl
        cases hentry.symm.trans he
        exact ⟨_, rfl, hheld⟩
      | some replace => trivial
    · trivial

theorem ok_publishEntry (replace : Bool) : (publishEntry setting remote replace worker).Ok setting remote := by
  rw [publishEntry]
  cases hentry : worker.entry with
  | none => trivial
  | some entry =>
    dsimp only
    split_ifs with hpublish
    · simp only [Bool.and_eq_true] at hpublish
      exact ⟨entry, rfl, hpublish.1.2⟩
    · trivial

/-! ### What is done to the remote -/

/-- A blob is published under its hash, and no other is changed. -/
theorem sound_publishBlob [DecidableEq Bytes] {archive : Archive Bytes} (hsound : remote.Sound setting)
    (h : remote.publishBlob setting archive = some remote') :
    remote'.Sound setting ∧ remote.Extends setting remote' ∧
      remote'.blobs (setting.fileSha256 archive) = some archive := by
  rw [Remote.publishBlob] at h
  split at h
  · next present hpresent =>
    split_ifs at h with hsame
    cases h
    exact ⟨hsound, .refl _, hsame ▸ hpresent⟩
  · next habsent =>
    cases h
    have hblobs : ∀ hash blob, remote.blobs hash = some blob →
        Function.update remote.blobs (setting.fileSha256 archive) (some archive) hash = some blob := by
      intro hash blob hblob
      have hne : hash ≠ setting.fileSha256 archive := by
        rintro rfl
        cases habsent.symm.trans hblob
      rw [Function.update_of_ne hne, hblob]
    refine ⟨⟨fun hash blob hblob ↦ ?_, fun text hash hrecord hparse ↦ ?_⟩, ⟨hblobs, fun hol hheld ↦ ?_⟩,
      Function.update_self ..⟩
    · dsimp only at hblob
      rcases eq_or_ne hash (setting.fileSha256 archive) with rfl | hne
      · rw [Function.update_self] at hblob
        cases hblob
        rfl
      · rw [Function.update_of_ne hne] at hblob
        exact hsound.addressed hash blob hblob
    · obtain ⟨blob, hblob⟩ := Option.isSome_iff_exists.mp (hsound.resolved text hash hrecord hparse)
      exact Option.isSome_iff_exists.mpr ⟨blob, hblobs hash blob hblob⟩
    · obtain ⟨old, hold, rfl⟩ := Option.map_eq_some_iff.mp hheld
      obtain ⟨hnamed, hgood⟩ := Option.filter_eq_some_iff.mp hold
      obtain ⟨hash, hrecord, hblob⟩ := Option.bind_eq_some_iff.mp hnamed
      obtain ⟨text, htext, hparse⟩ := Option.bind_eq_some_iff.mp hrecord
      exact held_of_record htext hparse (hblobs hash old hblob) hgood

/-- Where the remote holds no good archive, putting the record of a complete one makes it held. -/
theorem sound_putRecord (hsound : remote.Sound setting) {archive : Archive Bytes}
    (hblob : remote.blobs (setting.fileSha256 archive) = some archive) (hgood : archive.good setting)
    (hnone : remote.held setting = none)
    (hremote : remote' = { remote with record := some (remoteRecord (setting.fileSha256 archive)) }) :
    remote'.Sound setting ∧ remote.Extends setting remote' ∧
      remote'.held setting = some archive.contents.hol := by
  have hparse := parseRemoteRecord_remoteRecord (setting.fileSha256_valid archive)
  subst hremote
  refine ⟨⟨hsound.addressed, fun text hash hrecord htext ↦ ?_⟩, ⟨fun _ _ h ↦ h, fun hol hheld ↦ ?_⟩,
    held_of_record rfl hparse hblob hgood⟩
  · cases hrecord
    cases hparse.symm.trans htext
    rw [hblob, Option.isSome_some]
  · cases hnone.symm.trans hheld

/-- The archive of a complete entry is good. -/
theorem good_createArchive {contents : Contents Bytes}
    (h : completeToolchainContents setting contents.hol) : (createArchive setting contents).good setting := by
  simp [Archive.good, Archive.extracts, createArchive, h]

/-- What a worker's own step keeps. A record is put only where no good archive is held. -/
theorem ok_advance [DecidableEq Bytes] {next : Remote Bytes × Worker Bytes}
    (hsound : remote.Sound setting) (h : worker.Ok setting remote) (hstep : advance setting remote worker = some next)
    (hputs : worker.puts .advance → remote.held setting = none) :
    next.1.Sound setting ∧ remote.Extends setting next.1 ∧ next.2.Ok setting next.1 := by
  rcases worker with ⟨entry, phase⟩
  cases phase with
  | idle =>
    cases hstep
    exact ⟨hsound, .refl _, h⟩
  | validating =>
    cases hstep
    exact ⟨hsound, .refl _, ok_validate h⟩
  | restoring why =>
    cases hstep
    exact ⟨hsound, .refl _, ok_startRestore hsound why h⟩
  | fetching hash why =>
    cases hstep
    exact ⟨hsound, .refl _, ok_install why h.1 h.2⟩
  | installed why =>
    cases hstep
    obtain ⟨e, he, -, hheld⟩ := h
    exact ⟨hsound, .refl _, ok_checkInstalled why he hheld⟩
  | removing why =>
    cases hstep
    exact ⟨hsound, .refl _, ok_removed why⟩
  | building replace => cases hstep
  | finishing publication =>
    cases hstep
    refine ⟨hsound, .refl _, ok_finishEntry fun hnone ↦ ?_⟩
    subst hnone
    exact h
  | publishing replace =>
    cases hstep
    exact ⟨hsound, .refl _, ok_publishEntry replace⟩
  | creating replace =>
    obtain ⟨e, he, hcomplete⟩ := h
    cases he
    cases hstep
    exact ⟨hsound, .refl _, e, rfl, hcomplete, rfl⟩
  | uploading replace archive =>
    obtain ⟨published, hpublished, rfl⟩ := Option.map_eq_some_iff.mp hstep
    obtain ⟨hsound', hextends, hblob⟩ := sound_publishBlob hsound hpublished
    refine ⟨hsound', hextends, ?_⟩
    cases replace with
    | true => exact ⟨h, hblob⟩
    | false => exact ⟨h, hblob⟩
  | reading archive =>
    cases hstep
    refine ⟨hsound, .refl _, ?_⟩
    cases remote.record with
    | none => exact h
    | some text => trivial
  | putting archive =>
    cases hstep
    obtain ⟨⟨e, he, hcomplete, rfl⟩, hblob⟩ := h
    obtain ⟨hsound', hextends, hheld⟩ :=
      sound_putRecord hsound hblob (good_createArchive hcomplete) (hputs rfl) rfl
    exact ⟨hsound', hextends, e, he, hheld⟩
  | confirming archive =>
    cases hstep
    refine ⟨hsound, .refl _, ?_⟩
    dsimp only
    split_ifs with hours
    · exact h
    · trivial
  | returned => cases hstep

/-- A worker that may stop leaves an entry that is the remote's if it is marked as built. -/
theorem ok_stop (h : worker.Ok setting remote) (hstop : worker.mayStop) :
    Worker.Ok setting remote { worker with phase := .idle } := by
  show Trusted setting remote worker.entry
  rcases worker with ⟨entry, phase⟩
  cases phase with
  | idle => exact h
  | validating => exact h
  | restoring why => exact h
  | fetching hash why => exact h.1
  | installed why =>
    obtain ⟨e, rfl, hok, -⟩ := h
    rintro e' he hok'
    cases he
    exact absurd (hok.symm.trans hok') (by decide)
  | removing why =>
    rintro e rfl hok
    exact absurd hstop (by simp [Worker.mayStop, hok])
  | building replace =>
    intro e he hok
    exact absurd ((h e he).symm.trans hok) (by decide)
  | finishing publication =>
    cases publication with
    | none => exact Adopted.trusted h
    | some replace => cases hstop
  | publishing replace => cases hstop
  | creating replace => cases hstop
  | uploading replace archive => cases hstop
  | reading archive => cases hstop
  | putting archive => cases hstop
  | confirming archive => exact Adopted.trusted h
  | returned => exact Adopted.trusted h

/-- What a careful step of a worker keeps. -/
theorem ok_act [DecidableEq Bytes] {action : Action Bytes} {next : Remote Bytes × Worker Bytes}
    (hsound : remote.Sound setting) (h : worker.Ok setting remote) (hstep : act setting remote worker action = some next)
    (hputs : worker.puts action → remote.held setting = none)
    (hstop : action = .stop → worker.mayStop) :
    next.1.Sound setting ∧ remote.Extends setting next.1 ∧ next.2.Ok setting next.1 := by
  cases action with
  | advance => exact ok_advance hsound h hstep hputs
  | leave part =>
    rcases worker with ⟨entry, phase⟩
    rw [act] at hstep
    split at hstep
    · split_ifs at hstep
      cases hstep
      rename_i hphase _
      dsimp only at hphase
      subst hphase
      exact ⟨hsound, .refl _, trivial⟩
    · split_ifs at hstep with hok
      cases hstep
      rename_i hphase
      dsimp only at hphase
      subst hphase
      refine ⟨hsound, .refl _, fun e he ↦ ?_⟩
      cases he
      exact Bool.eq_false_iff.mpr hok
    · cases hstep
  | build hol =>
    rw [act] at hstep
    split at hstep
    · split_ifs at hstep
      cases hstep
      exact ⟨hsound, .refl _, trivial⟩
    · cases hstep
  | fail =>
    rw [act] at hstep
    split at hstep
    · cases hstep
      exact ⟨hsound, .refl _, trivial⟩
    · cases hstep
      exact ⟨hsound, .refl _, trivial⟩
    · cases hstep
  | stop =>
    cases hstep
    exact ⟨hsound, .refl _, ok_stop h (hstop rfl)⟩

/-- The remote is sound, and every worker is where it is known to be. -/
structure State.Inv (setting : Setting Bytes) (s : State Bytes) : Prop where
  sound : s.remote.Sound setting
  workers : ∀ w, (s.workers w).Ok setting s.remote

/-- A careful step keeps what is known, and extends the remote. -/
theorem State.Inv.step [DecidableEq Bytes] {start : Start setting} {s s' : State Bytes}
    {event : ℕ × Action Bytes}
    (h : s.Inv setting) (hstep : (carefulMachine setting start).step s event = some s') :
    s'.Inv setting ∧ s.remote.Extends setting s'.remote := by
  obtain ⟨w, action⟩ := event
  obtain ⟨hcareful, hstep⟩ := Machine.guard_step.mp hstep
  obtain ⟨next, hnext, rfl⟩ := Option.map_eq_some_iff.mp hstep
  rw [careful, Bool.and_eq_true, Bool.or_eq_true] at hcareful
  obtain ⟨hsound, hextends, hok⟩ := ok_act h.sound (h.workers w) hnext
    (fun hputs ↦ hcareful.1.elim (fun hnot ↦ absurd hputs (by simpa using hnot))
      fun hnone ↦ Option.isNone_iff_eq_none.mp hnone)
    (by rintro rfl; exact hcareful.2)
  refine ⟨⟨hsound, fun other ↦ ?_⟩, hextends⟩
  dsimp only
  rcases eq_or_ne other w with rfl | hne
  · rw [Function.update_self]
    exact hok
  · rw [Function.update_of_ne hne]
    exact (h.workers other).mono hextends

theorem inv_of_reachable [DecidableEq Bytes] {start : Start setting} {s : State Bytes}
    (h : (carefulMachine setting start).Reachable s) : s.Inv setting :=
  h.invariant ⟨⟨start.addressed, start.resolved⟩, fun _ ↦ trusted_none⟩
    fun _ _ _ _ hinv hstep ↦ (hinv.step hstep).1

/-- What the remote holds in a state it holds in every later one. -/
theorem held_of_run [DecidableEq Bytes] {start : Start setting} {hol : Bytes}
    {events : List (ℕ × Action Bytes)} :
    ∀ {s s' : State Bytes}, s.Inv setting → (carefulMachine setting start).run s events = some s' →
      s.remote.held setting = some hol → s'.remote.held setting = some hol := by
  induction events with
  | nil =>
    intro s s' _ hrun hheld
    cases hrun
    exact hheld
  | cons event rest ih =>
    intro s s' hinv hrun hheld
    obtain ⟨next, hnext, hrest⟩ := Option.bind_eq_some_iff.mp hrun
    obtain ⟨hinv', hextends⟩ := hinv.step hnext
    exact ih hinv' hrest (hextends.held _ hheld)

/-- In runs in which a record is put only where the remote holds no good archive, and no worker is stopped
while its entry is marked as built but is its own, a worker that has returned has the bytes of the archive
that the remote's record names then and in every later state, so that no two workers that have returned
have different bytes. -/
theorem workers_agree [DecidableEq Bytes] {start : Start setting} {s : State Bytes}
    (h : (carefulMachine setting start).Reachable s) :
    (∀ w, (s.workers w).phase = .returned → ∃ entry, (s.workers w).entry = some entry ∧
      ∀ events s', (carefulMachine setting start).run s events = some s' → ∃ archive,
        s'.remote.named = some archive ∧ entry.contents.hol = archive.contents.hol) ∧
    ∀ w w' entry entry', (s.workers w).phase = .returned → (s.workers w').phase = .returned →
      (s.workers w).entry = some entry → (s.workers w').entry = some entry' →
        entry.contents.hol = entry'.contents.hol := by
  have hinv := inv_of_reachable h
  have hadopted : ∀ w, (s.workers w).phase = .returned →
      Adopted setting s.remote (s.workers w).entry := by
    intro w hreturned
    have hok := hinv.workers w
    rw [Worker.Ok, hreturned] at hok
    exact hok
  constructor
  · intro w hreturned
    obtain ⟨entry, hentry, hheld⟩ := hadopted w hreturned
    refine ⟨entry, hentry, fun events s' hrun ↦ ?_⟩
    obtain ⟨archive, harchive, hhol⟩ := Option.map_eq_some_iff.mp (held_of_run hinv hrun hheld)
    exact ⟨archive, (Option.filter_eq_some_iff.mp harchive).1, hhol.symm⟩
  · intro w w' entry entry' hreturned hreturned' hentry hentry'
    obtain ⟨e, he, hheld⟩ := hadopted w hreturned
    obtain ⟨e', he', hheld'⟩ := hadopted w' hreturned'
    cases hentry.symm.trans he
    cases hentry'.symm.trans he'
    exact Option.some.inj (hheld.symm.trans hheld')

/-! ### Two workers that build -/

/-- Every checkout is complete, and there are two of them. -/
def twoBuilds : Setting Bool where
  built _ := true
  hasGit _ := true
  clean _ := true
  heapLoads _ := true
  listable _ := true
  identity := []
  fileSha256 archive := List.replicate 64 (if archive.contents.hol then 'a' else 'b')
  fileSha256_valid archive := by
    cases archive.contents.hol with
    | true => decide
    | false => decide

/-- A remote that holds nothing yet. -/
def emptyRemote : Start twoBuilds where
  record := none
  blobs _ := none
  addressed _ _ h := nomatch h
  resolved _ _ h := nomatch h

/-- A worker goes on by itself. -/
def advances (w count : ℕ) : List (ℕ × Action Bool) := List.replicate count (w, .advance)

/-- A worker finds no archive, and builds. -/
def builds (w : ℕ) (hol : Bool) : List (ℕ × Action Bool) := advances w 4 ++ [(w, .build hol)]

/-- Both workers look for a record before either puts one. The first reads back its own before the second
puts. -/
def racingRun : List (ℕ × Action Bool) :=
  builds 0 true ++ builds 1 false ++ advances 0 5 ++ advances 1 5 ++ advances 0 2 ++ advances 1 2

/-- A worker is killed before it publishes its build, and is started again when another has published. -/
def killedRun : List (ℕ × Action Bool) :=
  builds 0 true ++ [(0, .stop)] ++ builds 1 false ++ advances 1 7 ++ advances 0 3

/-- A worker builds and publishes. Another finds no archive, builds, finds that there is a record before it
puts one, and takes the archive. -/
def adoptingRun : List (ℕ × Action Bool) :=
  builds 0 true ++ builds 1 false ++ advances 1 4 ++ advances 0 7 ++ advances 1 5

def disagreement (s : State Bool) : Bool :=
  (s.workers 0).phase = .returned ∧ (s.workers 0).entry.any (·.contents.hol) ∧
    s.remote.named.any fun archive ↦ !archive.contents.hol

/-- After these events the first worker has returned with a toolchain that the remote's record does not
name. -/
def Disagree (events : List (ℕ × Action Bool)) : Prop :=
  ∃ s, (machine twoBuilds emptyRemote).run (machine twoBuilds emptyRemote).initial events = some s ∧
    (s.workers 0).phase = .returned ∧ ∃ entry archive, (s.workers 0).entry = some entry ∧
      s.remote.named = some archive ∧ entry.contents.hol ≠ archive.contents.hol

theorem disagree_of_run {events : List (ℕ × Action Bool)} (h : ((machine twoBuilds emptyRemote).run
    (machine twoBuilds emptyRemote).initial events).any disagreement) : Disagree events := by
  obtain ⟨s, hrun, hs⟩ := (Option.any_eq_true _ _).mp h
  obtain ⟨hreturned, hentry, harchive⟩ := of_decide_eq_true hs
  obtain ⟨entry, hsome, hhol⟩ := (Option.any_eq_true _ _).mp hentry
  obtain ⟨archive, hnamed, hother⟩ := (Option.any_eq_true _ _).mp harchive
  refine ⟨s, hrun, hreturned, entry, archive, hsome, hnamed, fun heq ↦ ?_⟩
  rw [← heq, hhol] at hother
  cases hother

theorem disagreement_of_runs : ∀ events ∈ [racingRun, killedRun], ((machine twoBuilds emptyRemote).run
    (machine twoBuilds emptyRemote).initial events).any disagreement := by
  decide +kernel

theorem adoptingRun_isSome : ((carefulMachine twoBuilds emptyRemote).run
    (carefulMachine twoBuilds emptyRemote).initial adoptingRun).isSome := by
  decide +kernel

/-- Two workers that build return with different toolchains, the first with one that the remote's record
does not name: where neither is killed, and where the first is killed before it publishes. -/
theorem workers_disagree : Disagree racingRun ∧ Disagree killedRun :=
  ⟨disagree_of_run (disagreement_of_runs racingRun (by simp)),
    disagree_of_run (disagreement_of_runs killedRun (by simp))⟩

/-- The state that a careful run ends in. -/
def adoptingState : State Bool :=
  ((carefulMachine twoBuilds emptyRemote).run (carefulMachine twoBuilds emptyRemote).initial
    adoptingRun).get adoptingRun_isSome

/-- The worker that built second has the first one's toolchain. -/
theorem adoptingRun_agrees : (∀ w, (adoptingState.workers w).phase = .returned →
    ∃ entry, (adoptingState.workers w).entry = some entry ∧
      ∀ events s', (carefulMachine twoBuilds emptyRemote).run adoptingState events = some s' → ∃ archive,
        s'.remote.named = some archive ∧ entry.contents.hol = archive.contents.hol) ∧
    (adoptingState.workers 1).phase = .returned ∧
    (adoptingState.workers 1).entry.map (·.contents.hol) = some true :=
  ⟨(workers_agree (Machine.reachable_of_run adoptingRun_isSome)).1, by decide +kernel, by decide +kernel⟩

end Holbuild.Toolchain
