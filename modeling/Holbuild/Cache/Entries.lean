import Holbuild.Cache.Manifests
import Holbuild.Library.Machine
import Mathlib.Data.List.Basic

/-!
# The life of a cache entry

The entry for one action key is a manifest, if there is one, and the blobs that are stored with their
right bytes. Publishers change it under the action lock, one at a time: `putAction` from a manifest's
text, `publishCacheManifest` from the files of a build. They compare what they bring with the resident
manifest in different ways, the first by the text without the timeout lines, the second by the hashes
of the outputs, but both only ever strengthen it (`strengthens_of_step`): in a run in which no publisher
finds the resident unusable, and each brings a manifest that records the timeout it was given, whatever
a publisher was promised stays true (`entry_only_gets_stronger`).
-/

set_option autoImplicit false
set_option relaxedAutoImplicit false

namespace Holbuild.Cache

open Library

/-! ### Publishing -/

/-- The entry for a key: its manifest, and the blobs of the cache that verify. -/
structure Entry where
  manifest : Option Text
  blobs : List Text
deriving DecidableEq

inductive PublishPolicy
  | putIfAbsent
  | putIfAbsentOrSame
deriving DecidableEq

inductive PublishResult
  | published
  | alreadyPresent
  | skipped
  | conflict (detail : Text)
deriving DecidableEq

/-- Where the manifest for a key is, in the cache. -/
def actionManifest (inputKey : Text) : Text := "actions/".toList ++ inputKey ++ "/manifest".toList

def Entry.write (entry : Entry) (text : Text) : Entry := { entry with manifest := some text }

/-- What becomes of an entry whose manifest is `actual`. -/
def existingActionResult (inputKey : Text) (policy : PublishPolicy) (expected actual : Text)
    (entry : Entry) : Entry × PublishResult :=
  match policy with
  | .putIfAbsent => (entry, .conflict (actionManifest inputKey))
  | .putIfAbsentOrSame =>
    if actual = expected then (entry, .alreadyPresent)
    else
      match cacheManifestContract inputKey actual, cacheManifestContract inputKey expected with
      | .ok resident, .ok incoming =>
        if resident.nonTimeoutText ≠ incoming.nonTimeoutText then (entry, .conflict (actionManifest inputKey))
        else if timeoutAtLeastAsStrong resident.proofTimeout incoming.proofTimeout then
          (entry, .alreadyPresent)
        else (entry.write expected, .published)
      | _, _ => (entry, .conflict (actionManifest inputKey))

def putAction (inputKey : Text) (policy : PublishPolicy) (text : Text) (entry : Entry) :
    Entry × PublishResult :=
  match entry.manifest with
  | some old => existingActionResult inputKey policy text old entry
  | none => (entry.write text, .published)

/-- Whether two manifests have the same outputs; a run's are compared by name and hash. -/
def cacheManifestOutputsEqual (inputKey left right : Text) : Checked Bool :=
  if isRunManifest left || isRunManifest right then do
    let leftOutputs ← runManifestOutputs inputKey left
    let rightOutputs ← runManifestOutputs inputKey right
    .ok (leftOutputs = rightOutputs)
  else do
    let leftBlobs ← cacheManifestBlobsFromLines inputKey (cacheManifestLines left)
    let rightBlobs ← cacheManifestBlobsFromLines inputKey (cacheManifestLines right)
    .ok (leftBlobs.toOutputs = rightBlobs.toOutputs)

/-- Whether a manifest can be read and all its blobs verify. -/
def cacheEntryUsable (inputKey : Text) (blobs : List Text) (text : Text) : Bool :=
  match cacheManifestProofTimeout (cacheManifestLines text),
    cacheManifestBlobsFromLines inputKey (cacheManifestLines text) with
  | .ok _, .ok manifest => manifest.hashes.all blobs.contains
  | _, _ => false

/-- A build's entry: what its manifest says and the timeout it was built under. -/
structure Publication where
  manifest : CacheManifest
  proofTimeout : Timeout
deriving DecidableEq

def Publication.text (inputKey : Text) (publication : Publication) : Text :=
  cacheManifestText inputKey publication.manifest publication.proofTimeout

/-- What a build's publication did: it touched the resident manifest, wrote one where there was none or
one with the same outputs, warned of different outputs, replaced an unusable manifest, or raised. -/
inductive Outcome
  | touched
  | written
  | warned
  | replaced
  | raised (message : Text)
deriving DecidableEq

/-- Publishes over a usable manifest with the same outputs. -/
def publishSameOutputs (inputKey : Text) (publication : Publication) (old : Text) (entry : Entry) :
    Entry × Outcome :=
  match cacheManifestProofTimeoutText inputKey old with
  | .ok oldTimeout =>
    let bestTimeout := timeoutMin oldTimeout publication.proofTimeout
    if timeoutEqual oldTimeout bestTimeout then (entry, .touched)
    else (entry.write (cacheManifestText inputKey publication.manifest bestTimeout), .written)
  | .error message => (entry, .raised message)

/-- Publishes a build's blobs and then its manifest. -/
def publishCacheManifest (inputKey : Text) (publication : Publication) (entry : Entry) :
    Entry × Outcome :=
  let manifest := publication.text inputKey
  let entry := { entry with blobs := publication.manifest.hashes ++ entry.blobs }
  match entry.manifest with
  | some old =>
    if old = manifest then (entry, .touched)
    else if cacheEntryUsable inputKey entry.blobs old then
      match cacheManifestOutputsEqual inputKey old manifest with
      | .ok true => publishSameOutputs inputKey publication old entry
      | .ok false => (entry, .warned)
      | .error message => (entry, .raised message)
    else (entry.write manifest, .replaced)
  | none => (entry.write manifest, .written)

/-! ### Runs -/

inductive EntryEvent
  | putAction (text : Text)
  | publishCacheManifest (publication : Publication)
  | publishBlob (hash : Text)
  | touchAction
deriving DecidableEq

variable (inputKey : Text)

/-- What an event leaves of an entry. -/
def EntryEvent.apply (entry : Entry) : EntryEvent → Entry
  | .putAction text => (Cache.putAction inputKey .putIfAbsentOrSame text entry).1
  | .publishCacheManifest publication => (Cache.publishCacheManifest inputKey publication entry).1
  | .publishBlob hash => { entry with blobs := hash :: entry.blobs }
  | .touchAction => entry

/-- The manifest an event brings. -/
def EntryEvent.text : EntryEvent → Option Text
  | .putAction text => some text
  | .publishCacheManifest publication => some (publication.text inputKey)
  | _ => none

/-- Whether a publisher is told that the entry is there. -/
def EntryEvent.accepted (entry : Entry) : EntryEvent → Bool
  | .putAction text =>
    let result := (Cache.putAction inputKey .putIfAbsentOrSame text entry).2
    result = .published || result = .alreadyPresent
  | .publishCacheManifest publication =>
    let outcome := (Cache.publishCacheManifest inputKey publication entry).2
    outcome = .touched || outcome = .written
  | _ => false

/-- The manifests whose publishers are told that the entry is there. -/
def observeAccepted (entry : Entry) (event : EntryEvent) : List Text :=
  if event.accepted inputKey entry then (event.text inputKey).toList else []

def entryMachine (start : Entry) : Machine Entry EntryEvent where
  initial := start
  step entry event := some (event.apply inputKey entry)

/-- Whether a publication finds a manifest it does not bring itself and cannot use. -/
def Publication.findsUnusable (publication : Publication) (entry : Entry) : Bool :=
  entry.manifest.any fun old ↦ old ≠ publication.text inputKey &&
    !cacheEntryUsable inputKey (publication.manifest.hashes ++ entry.blobs) old

/-- Whether a publication's manifest can be read and records the timeout it was given. -/
def Publication.recorded (publication : Publication) : Bool :=
  match cacheManifestProofTimeoutText inputKey (publication.text inputKey) with
  | .ok timeout => timeout = publication.proofTimeout
  | .error _ => false

/-- Whether an event is not that of a publisher that fails to record its timeout or finds the resident
unusable. -/
def orderly (entry : Entry) : EntryEvent → Bool
  | .publishCacheManifest publication =>
    publication.recorded inputKey && !publication.findsUnusable inputKey entry
  | _ => true

/-- The runs of orderly publishers. -/
def orderlyMachine (start : Entry) : Machine Entry EntryEvent :=
  (entryMachine inputKey start).guard fun entry event ↦ orderly inputKey entry event

/-! ### What a manifest promises -/

/-- The outputs of a manifest that can be read. -/
def outputsOf (text : Text) : Option Outputs :=
  (cacheManifestBlobsFromLines inputKey (cacheManifestLines text)).toOption.map (·.toOutputs)

/-- Whether the entry of a manifest is restored for a request. -/
def Serves (text : Text) (request : Timeout) : Prop :=
  ∃ contract, cacheManifestContract inputKey text = .ok contract ∧
    timeoutSatisfies request contract.proofTimeout

instance (text : Text) (request : Timeout) : Decidable (Serves inputKey text request) :=
  decidable_of_iff
    (((cacheManifestContract inputKey text).toOption.any fun contract ↦
      timeoutSatisfies request contract.proofTimeout) = true) (by
    rw [Serves]
    cases cacheManifestContract inputKey text with
    | error message => simp [Except.toOption]
    | ok contract => simp [Except.toOption])

/-- A manifest has the outputs of another and a timeout at least as strong. -/
def Strengthens (old new : Text) : Prop :=
  outputsOf inputKey new = outputsOf inputKey old ∧
    ∀ contract, cacheManifestContract inputKey old = .ok contract →
      ∃ contract', cacheManifestContract inputKey new = .ok contract' ∧
        timeoutAtLeastAsStrong contract'.proofTimeout contract.proofTimeout

variable {inputKey} {old new other text : Text} {entry : Entry} {event : EntryEvent}
  {publication : Publication}

theorem Strengthens.refl : Strengthens inputKey text text :=
  ⟨rfl, fun contract hcontract ↦ ⟨contract, hcontract, atLeastAsStrong_refl _⟩⟩

theorem Strengthens.trans (h : Strengthens inputKey old new) (h' : Strengthens inputKey new other) :
    Strengthens inputKey old other := by
  refine ⟨h'.1.trans h.1, fun contract hcontract ↦ ?_⟩
  obtain ⟨contract', hcontract', hstrong⟩ := h.2 contract hcontract
  obtain ⟨contract'', hcontract'', hstrong'⟩ := h'.2 contract' hcontract'
  exact ⟨contract'', hcontract'', atLeastAsStrong_trans hstrong' hstrong⟩

/-- A stronger manifest serves every request that the other serves. -/
theorem Strengthens.serves (h : Strengthens inputKey old new) {request : Timeout}
    (hserves : Serves inputKey old request) : Serves inputKey new request := by
  obtain ⟨contract, hcontract, hsatisfies⟩ := hserves
  obtain ⟨contract', hcontract', hstrong⟩ := h.2 contract hcontract
  exact ⟨contract', hcontract', timeoutSatisfies_of_atLeastAsStrong hstrong hsatisfies⟩

/-- Manifests with one text outside the timeout have the same outputs. -/
theorem outputsOf_eq_of_nonTimeoutText (h : nonTimeoutText old = nonTimeoutText new) :
    outputsOf inputKey old = outputsOf inputKey new := by
  rw [outputsOf, outputsOf, ← cacheManifestBlobs_nonTimeoutText, h, cacheManifestBlobs_nonTimeoutText]

/-! ### What one step does -/

/-- The possible results of putting a manifest over another. -/
theorem existingActionResult_cases (inputKey expected actual : Text) (entry : Entry) :
    let result := existingActionResult inputKey .putIfAbsentOrSame expected actual entry
    result = (entry, .alreadyPresent) ∧ Strengthens inputKey expected actual ∨
      result = (entry.write expected, .published) ∧ Strengthens inputKey actual expected ∨
        result = (entry, .conflict (actionManifest inputKey)) := by
  intro result
  by_cases hsame : actual = expected
  · exact .inl ⟨if_pos hsame, hsame ▸ .refl⟩
  · have hresult : result = match cacheManifestContract inputKey actual,
        cacheManifestContract inputKey expected with
      | .ok resident, .ok incoming =>
        if resident.nonTimeoutText ≠ incoming.nonTimeoutText then (entry, .conflict (actionManifest inputKey))
        else if timeoutAtLeastAsStrong resident.proofTimeout incoming.proofTimeout then
          (entry, .alreadyPresent)
        else (entry.write expected, .published)
      | _, _ => (entry, .conflict (actionManifest inputKey)) := if_neg hsame
    rw [hresult]
    cases hactual : cacheManifestContract inputKey actual with
    | error message => exact .inr (.inr rfl)
    | ok resident =>
      cases hexpected : cacheManifestContract inputKey expected with
      | error message => exact .inr (.inr rfl)
      | ok incoming =>
        dsimp only
        by_cases htext : resident.nonTimeoutText ≠ incoming.nonTimeoutText
        · exact .inr (.inr (if_pos htext))
        · rw [if_neg htext]
          have houtputs : outputsOf inputKey actual = outputsOf inputKey expected := by
            apply outputsOf_eq_of_nonTimeoutText
            rw [← (cacheManifestContract_eq_ok_iff.mp hactual).2.2,
              ← (cacheManifestContract_eq_ok_iff.mp hexpected).2.2]
            exact not_not.mp htext
          by_cases hstrong : timeoutAtLeastAsStrong resident.proofTimeout incoming.proofTimeout
          · refine .inl ⟨if_pos hstrong, houtputs, fun contract hcontract ↦ ?_⟩
            rw [hexpected, Except.ok.injEq] at hcontract
            exact ⟨resident, hactual, hcontract ▸ hstrong⟩
          · refine .inr (.inl ⟨if_neg hstrong, houtputs.symm, fun contract hcontract ↦ ?_⟩)
            rw [hactual, Except.ok.injEq] at hcontract
            exact ⟨incoming, hexpected,
              hcontract ▸ atLeastAsStrong_total (Bool.eq_false_iff.mpr hstrong)⟩

/-- A usable manifest can be read, and its blobs are stored. -/
theorem cacheEntryUsable_iff {blobs : List Text} :
    cacheEntryUsable inputKey blobs text ↔
      ∃ timeout manifest, cacheManifestProofTimeout (cacheManifestLines text) = .ok timeout ∧
        cacheManifestBlobsFromLines inputKey (cacheManifestLines text) = .ok manifest ∧
          ∀ hash ∈ manifest.hashes, hash ∈ blobs := by
  rw [cacheEntryUsable]
  cases cacheManifestProofTimeout (cacheManifestLines text) with
  | error message => simp
  | ok timeout =>
    cases cacheManifestBlobsFromLines inputKey (cacheManifestLines text) with
    | error message => simp
    | ok manifest => simp

theorem cacheManifestProofTimeoutText_eq_ok_iff {timeout : Timeout} :
    cacheManifestProofTimeoutText inputKey text = .ok timeout ↔
      (∃ manifest, cacheManifestBlobsFromLines inputKey (cacheManifestLines text) = .ok manifest) ∧
        cacheManifestProofTimeout (cacheManifestLines text) = .ok timeout := by
  rw [cacheManifestProofTimeoutText, bind_eq_ok_iff, exists_and_right]

theorem outputsOf_eq_some {manifest : CacheManifest}
    (h : cacheManifestBlobsFromLines inputKey (cacheManifestLines text) = .ok manifest) :
    outputsOf inputKey text = some manifest.toOutputs := by
  rw [outputsOf, h]
  rfl

/-- Manifests of theories with equal outputs have the same outputs. -/
theorem outputsOf_eq_of_outputsEqual {left right : CacheManifest}
    (hleft : cacheManifestBlobsFromLines inputKey (cacheManifestLines old) = .ok left)
    (hright : cacheManifestBlobsFromLines inputKey (cacheManifestLines new) = .ok right)
    (h : cacheManifestOutputsEqual inputKey old new = .ok true) :
    outputsOf inputKey old = outputsOf inputKey new := by
  rw [cacheManifestOutputsEqual, isRunManifest_eq_false hleft, isRunManifest_eq_false hright, hleft,
    hright] at h
  have heq : decide (left.toOutputs = right.toOutputs) = true := Except.ok.inj h
  rw [outputsOf_eq_some hleft, outputsOf_eq_some hright, of_decide_eq_true heq]

theorem recorded_iff : publication.recorded inputKey ↔
    cacheManifestProofTimeoutText inputKey (publication.text inputKey) =
      .ok publication.proofTimeout := by
  rw [Publication.recorded]
  cases cacheManifestProofTimeoutText inputKey (publication.text inputKey) with
  | error message => simp
  | ok timeout => simp

/-- The possible results of publishing a build over a usable manifest with its outputs: it keeps a
manifest at least as strong as its own, or it writes its own, which is at least as strong. -/
theorem publishSameOutputs_cases {blobs : List Text} (hrecorded : publication.recorded inputKey)
    (husable : cacheEntryUsable inputKey blobs old)
    (hequal : cacheManifestOutputsEqual inputKey old (publication.text inputKey) = .ok true) :
    let result := publishSameOutputs inputKey publication old entry
    result = (entry, .touched) ∧ Strengthens inputKey (publication.text inputKey) old ∨
      result = (entry.write (publication.text inputKey), .written) ∧
        Strengthens inputKey old (publication.text inputKey) := by
  intro result
  obtain ⟨oldTimeout, left, htimeout, hleft, -⟩ := cacheEntryUsable_iff.mp husable
  obtain ⟨⟨right, hright⟩, hownTimeout⟩ :=
    cacheManifestProofTimeoutText_eq_ok_iff.mp (recorded_iff.mp hrecorded)
  have houtputs := outputsOf_eq_of_outputsEqual hleft hright hequal
  have hold : cacheManifestContract inputKey old = .ok ⟨oldTimeout, nonTimeoutText old⟩ :=
    cacheManifestContract_eq_ok_iff.mpr ⟨⟨left, hleft⟩, htimeout, rfl⟩
  have hown : cacheManifestContract inputKey (publication.text inputKey) =
      .ok ⟨publication.proofTimeout, nonTimeoutText (publication.text inputKey)⟩ :=
    cacheManifestContract_eq_ok_iff.mpr ⟨⟨right, hright⟩, hownTimeout, rfl⟩
  have hresult : result =
      if timeoutEqual oldTimeout (timeoutMin oldTimeout publication.proofTimeout) then
        (entry, .touched)
      else (entry.write (cacheManifestText inputKey publication.manifest
        (timeoutMin oldTimeout publication.proofTimeout)), .written) := by
    show publishSameOutputs inputKey publication old entry = _
    rw [publishSameOutputs, cacheManifestProofTimeoutText_eq_ok_iff.mpr ⟨⟨left, hleft⟩, htimeout⟩]
  rw [hresult]
  rcases timeoutMin_cases oldTimeout publication.proofTimeout with ⟨hmin, hstrong⟩ | ⟨hmin, hstrong⟩
  · refine .inl ⟨if_pos (timeoutEqual_iff.mpr hmin.symm), houtputs, fun contract hcontract ↦ ?_⟩
    rw [hown, Except.ok.injEq] at hcontract
    exact ⟨_, hold, hcontract ▸ hstrong⟩
  · rw [hmin]
    by_cases hequal : timeoutEqual oldTimeout publication.proofTimeout
    · refine .inl ⟨if_pos hequal, houtputs, fun contract hcontract ↦ ?_⟩
      rw [hown, Except.ok.injEq] at hcontract
      refine ⟨_, hold, hcontract ▸ ?_⟩
      rw [timeoutEqual_iff.mp hequal]
      exact atLeastAsStrong_refl _
    · refine .inr ⟨if_neg hequal, houtputs.symm, fun contract hcontract ↦ ?_⟩
      rw [hold, Except.ok.injEq] at hcontract
      exact ⟨_, hown, hcontract ▸ hstrong⟩

/-- An event of an orderly publisher keeps the resident manifest, which then is at least as strong as
what the publisher is told is there, or writes what it brings, which is at least as strong as the
resident. -/
theorem apply_cases (horderly : orderly inputKey entry event) :
    (event.apply inputKey entry).manifest = entry.manifest ∧
        (∀ text ∈ observeAccepted inputKey entry event,
          ∃ resident, entry.manifest = some resident ∧ Strengthens inputKey text resident) ∨
      ∃ text, event.text inputKey = some text ∧ observeAccepted inputKey entry event = [text] ∧
        (event.apply inputKey entry).manifest = some text ∧
          ∀ resident, entry.manifest = some resident → Strengthens inputKey resident text := by
  have hkeep : ∀ resident text : Text, event.text inputKey = some text →
      entry.manifest = some resident → Strengthens inputKey text resident →
        ∀ text ∈ observeAccepted inputKey entry event,
          ∃ resident, entry.manifest = some resident ∧ Strengthens inputKey text resident := by
    intro resident text htext hresident hstrong other hother
    rw [observeAccepted, htext] at hother
    split at hother
    · rw [List.mem_singleton.mp hother]
      exact ⟨resident, hresident, hstrong⟩
    · exact absurd hother List.not_mem_nil
  have hrefused : event.accepted inputKey entry = false →
      ∀ text ∈ observeAccepted inputKey entry event,
        ∃ resident, entry.manifest = some resident ∧ Strengthens inputKey text resident := by
    intro hrefused text htext
    rw [observeAccepted, hrefused] at htext
    exact absurd htext List.not_mem_nil
  have haccepted : ∀ text : Text, event.text inputKey = some text →
      event.accepted inputKey entry = true → observeAccepted inputKey entry event = [text] := by
    intro text htext haccepted
    rw [observeAccepted, if_pos haccepted, htext]
    rfl
  cases event with
  | touchAction => exact .inl ⟨rfl, hrefused rfl⟩
  | publishBlob hash => exact .inl ⟨rfl, hrefused rfl⟩
  | putAction text =>
    rw [EntryEvent.accepted] at hrefused haccepted
    rw [EntryEvent.apply]
    rcases hmanifest : entry.manifest with _ | old
    · have hput : putAction inputKey .putIfAbsentOrSame text entry =
          (entry.write text, .published) := by
        rw [putAction, hmanifest]
      rw [hput] at haccepted ⊢
      exact .inr ⟨text, rfl, haccepted text rfl rfl, rfl, fun resident h ↦ nomatch h⟩
    · have hput : putAction inputKey .putIfAbsentOrSame text entry =
          existingActionResult inputKey .putIfAbsentOrSame text old entry := by
        rw [putAction, hmanifest]
      rw [hput] at haccepted hrefused ⊢
      rw [← hmanifest]
      rcases existingActionResult_cases inputKey text old entry with
        ⟨hresult, hstrong⟩ | ⟨hresult, hstrong⟩ | hresult
      · rw [hresult]
        exact .inl ⟨rfl, hkeep old text rfl hmanifest hstrong⟩
      · rw [hresult] at haccepted ⊢
        refine .inr ⟨text, rfl, haccepted text rfl rfl, rfl, fun resident hresident ↦ ?_⟩
        rw [hmanifest, Option.some.injEq] at hresident
        exact hresident ▸ hstrong
      · rw [hresult] at hrefused ⊢
        exact .inl ⟨rfl, hrefused rfl⟩
  | publishCacheManifest publication =>
    obtain ⟨hrecorded, husable⟩ := Bool.and_eq_true_iff.mp horderly
    rw [Bool.not_eq_true'] at husable
    rw [EntryEvent.accepted] at hrefused haccepted
    rw [EntryEvent.apply]
    rcases hmanifest : entry.manifest with _ | old
    · have hpublish : publishCacheManifest inputKey publication entry =
          (({ entry with blobs := publication.manifest.hashes ++ entry.blobs } : Entry).write
            (publication.text inputKey), .written) := by
        simp only [publishCacheManifest, hmanifest]
      rw [hpublish] at haccepted ⊢
      exact .inr ⟨_, rfl, haccepted _ rfl rfl, rfl, fun resident h ↦ nomatch h⟩
    · rw [← hmanifest]
      by_cases hsame : old = publication.text inputKey
      · have hpublish : publishCacheManifest inputKey publication entry =
            ({ entry with blobs := publication.manifest.hashes ++ entry.blobs }, .touched) := by
          simp only [publishCacheManifest, hmanifest, if_pos hsame]
        rw [hpublish]
        exact .inl ⟨rfl, hkeep old _ rfl hmanifest (hsame ▸ .refl)⟩
      · have husable' : cacheEntryUsable inputKey (publication.manifest.hashes ++ entry.blobs) old := by
          rw [Publication.findsUnusable, hmanifest, Option.any_some, Bool.and_eq_false_iff] at husable
          rcases husable with hne | husable
          · exact absurd (not_not.mp (of_decide_eq_false hne)) hsame
          · simpa using husable
        cases hequal : cacheManifestOutputsEqual inputKey old (publication.text inputKey) with
        | error message =>
          have hpublish : publishCacheManifest inputKey publication entry =
              ({ entry with blobs := publication.manifest.hashes ++ entry.blobs },
                .raised message) := by
            simp only [publishCacheManifest, hmanifest, if_neg hsame, if_pos husable', hequal]
          rw [hpublish] at hrefused ⊢
          exact .inl ⟨rfl, hrefused rfl⟩
        | ok same =>
          cases same with
          | false =>
            have hpublish : publishCacheManifest inputKey publication entry =
                ({ entry with blobs := publication.manifest.hashes ++ entry.blobs }, .warned) := by
              simp only [publishCacheManifest, hmanifest, if_neg hsame, if_pos husable', hequal]
            rw [hpublish] at hrefused ⊢
            exact .inl ⟨rfl, hrefused rfl⟩
          | true =>
            have hpublish : publishCacheManifest inputKey publication entry =
                publishSameOutputs inputKey publication old
                  { entry with blobs := publication.manifest.hashes ++ entry.blobs } := by
              simp only [publishCacheManifest, hmanifest, if_neg hsame, if_pos husable', hequal]
            rw [hpublish] at haccepted ⊢
            rcases publishSameOutputs_cases hrecorded husable' hequal with
              ⟨hresult, hstrong⟩ | ⟨hresult, hstrong⟩
            · rw [hresult]
              exact .inl ⟨rfl, hkeep old _ rfl hmanifest hstrong⟩
            · rw [hresult] at haccepted ⊢
              refine .inr ⟨_, rfl, haccepted _ rfl rfl, rfl, fun resident hresident ↦ ?_⟩
              rw [hmanifest, Option.some.injEq] at hresident
              exact hresident ▸ hstrong

/-- Events only add blobs. -/
theorem mem_blobs_apply {hash : Text} (h : hash ∈ entry.blobs) :
    hash ∈ (event.apply inputKey entry).blobs := by
  have hexisting : ∀ (expected actual : Text) (entry : Entry),
      (existingActionResult inputKey .putIfAbsentOrSame expected actual entry).1.blobs =
        entry.blobs := by
    intro expected actual entry
    rcases existingActionResult_cases inputKey expected actual entry with
      ⟨hresult, -⟩ | ⟨hresult, -⟩ | hresult
    · exact congrArg (·.1.blobs) hresult
    · exact congrArg (·.1.blobs) hresult
    · exact congrArg (·.1.blobs) hresult
  cases event with
  | touchAction => exact h
  | publishBlob other => exact List.mem_cons_of_mem _ h
  | putAction text =>
    rw [EntryEvent.apply, putAction]
    split
    · rwa [hexisting]
    · exact h
  | publishCacheManifest publication =>
    have hadded : hash ∈ publication.manifest.hashes ++ entry.blobs := List.mem_append_right _ h
    rw [EntryEvent.apply, publishCacheManifest]
    dsimp only
    split
    · split_ifs
      · exact hadded
      · split
        · rw [publishSameOutputs]
          split
          · dsimp only
            split <;> exact hadded
          · exact hadded
        · exact hadded
        · exact hadded
      · exact hadded
    · exact hadded

/-- A manifest that strengthens a usable one is usable, as long as no blob is lost. -/
theorem Strengthens.usable {blobs blobs' : List Text} (h : Strengthens inputKey old new)
    (husable : cacheEntryUsable inputKey blobs old) (hblobs : ∀ hash ∈ blobs, hash ∈ blobs') :
    cacheEntryUsable inputKey blobs' new := by
  obtain ⟨timeout, manifest, htimeout, hmanifest, hstored⟩ := cacheEntryUsable_iff.mp husable
  obtain ⟨contract, hcontract, -⟩ := h.2 ⟨timeout, nonTimeoutText old⟩
    (cacheManifestContract_eq_ok_iff.mpr ⟨⟨manifest, hmanifest⟩, htimeout, rfl⟩)
  obtain ⟨⟨manifest', hmanifest'⟩, htimeout', -⟩ := cacheManifestContract_eq_ok_iff.mp hcontract
  have houtputs : manifest'.toOutputs = manifest.toOutputs := by
    have hsame := h.1
    rwa [outputsOf_eq_some hmanifest, outputsOf_eq_some hmanifest', Option.some.injEq] at hsame
  refine cacheEntryUsable_iff.mpr ⟨_, manifest', htimeout', hmanifest', fun hash hhash ↦ ?_⟩
  exact hblobs hash (hstored hash (houtputs ▸ hhash))

/-- An orderly event strengthens the resident manifest, and keeps it when it brings other outputs. -/
theorem strengthens_of_step (horderly : orderly inputKey entry event) {resident : Text}
    (hresident : entry.manifest = some resident) :
    ∃ resident', (event.apply inputKey entry).manifest = some resident' ∧
      Strengthens inputKey resident resident' ∧
      (cacheEntryUsable inputKey entry.blobs resident →
        cacheEntryUsable inputKey (event.apply inputKey entry).blobs resident') ∧
      ∀ text, event.text inputKey = some text →
        outputsOf inputKey text ≠ outputsOf inputKey resident → resident' = resident := by
  rcases apply_cases horderly with ⟨hkept, -⟩ | ⟨text, htext, -, hwritten, hstrong⟩
  · exact ⟨resident, hkept.trans hresident, .refl,
      fun husable ↦ Strengthens.refl.usable husable fun hash ↦ mem_blobs_apply, fun _ _ _ ↦ rfl⟩
  · refine ⟨text, hwritten, hstrong resident hresident,
      fun husable ↦ (hstrong resident hresident).usable husable fun hash ↦ mem_blobs_apply, ?_⟩
    intro other hother hdifferent
    rw [htext, Option.some.injEq] at hother
    exact absurd (hother ▸ (hstrong resident hresident).1) hdifferent

/-! ### Whole runs -/

section Runs

variable {start next : Entry} {observed : List Text}

theorem step_orderlyMachine : (orderlyMachine inputKey start).step entry event = some next ↔
    orderly inputKey entry event ∧ event.apply inputKey entry = next := by
  rw [orderlyMachine, Machine.guard_step]
  exact and_congr_right fun _ ↦ Option.some_inj

/-- The resident manifest is the one there was at first or one an accepted publisher brought, and it is
at least as strong as every accepted one. -/
theorem resident_of_run
    (hrun : (orderlyMachine inputKey start).Run (observeAccepted inputKey) observed entry) :
    (∀ resident, entry.manifest = some resident →
      start.manifest = some resident ∨ resident ∈ observed) ∧
    ∀ text ∈ observed, ∃ resident, entry.manifest = some resident ∧
      Strengthens inputKey text resident := by
  induction hrun with
  | initial => exact ⟨fun resident h ↦ .inl h, fun text h ↦ absurd h List.not_mem_nil⟩
  | @step observed entry next event _ hstep ih =>
    obtain ⟨horigin, hpromises⟩ := ih
    obtain ⟨horderly, rfl⟩ := step_orderlyMachine.mp hstep
    rcases apply_cases horderly with ⟨hkept, hnew⟩ | ⟨text, -, hobserved, hwritten, hstrong⟩
    · rw [hkept]
      refine ⟨fun resident hresident ↦ ?_, fun text htext ↦ ?_⟩
      · exact (horigin resident hresident).imp_right (List.mem_append_left _)
      · rcases List.mem_append.mp htext with hold | hnow
        · exact hpromises text hold
        · exact hnew text hnow
    · rw [hwritten, hobserved]
      refine ⟨fun resident hresident ↦ ?_, fun other hother ↦ ?_⟩
      · rw [← Option.some.inj hresident]
        exact .inr (List.mem_append_right _ List.mem_cons_self)
      · rcases List.mem_append.mp hother with hold | hnow
        · obtain ⟨resident, hresident, hpromise⟩ := hpromises other hold
          exact ⟨text, rfl, hpromise.trans (hstrong resident hresident)⟩
        · exact ⟨text, rfl, List.mem_singleton.mp hnow ▸ .refl⟩

/-- A cache entry only gets stronger. In every run in which no publisher finds the resident manifest
unusable and each records the timeout it was given, an event keeps the outputs of the resident manifest,
its usability and its timeout or strengthens that, and keeps every byte when it brings other outputs; the
resident is always the first one or one that an accepted publisher brought; and it has the outputs of
each accepted publisher and serves what that publisher's manifest serves. -/
theorem entry_only_gets_stronger
    (hrun : (orderlyMachine inputKey start).Run (observeAccepted inputKey) observed entry) :
    (∀ event next, (orderlyMachine inputKey start).step entry event = some next →
      ∀ resident, entry.manifest = some resident →
        ∃ resident', next.manifest = some resident' ∧
          outputsOf inputKey resident' = outputsOf inputKey resident ∧
          (cacheEntryUsable inputKey entry.blobs resident →
            cacheEntryUsable inputKey next.blobs resident') ∧
          (∀ contract, cacheManifestContract inputKey resident = .ok contract →
            ∃ contract', cacheManifestContract inputKey resident' = .ok contract' ∧
              timeoutAtLeastAsStrong contract'.proofTimeout contract.proofTimeout) ∧
          ∀ text, event.text inputKey = some text →
            outputsOf inputKey text ≠ outputsOf inputKey resident → resident' = resident) ∧
    (∀ resident, entry.manifest = some resident →
      start.manifest = some resident ∨ resident ∈ observed) ∧
    ∀ text ∈ observed, ∃ resident, entry.manifest = some resident ∧
      outputsOf inputKey resident = outputsOf inputKey text ∧
      ∀ request, Serves inputKey text request → Serves inputKey resident request := by
  obtain ⟨horigin, hpromises⟩ := resident_of_run hrun
  refine ⟨fun event next hstep resident hresident ↦ ?_, horigin, fun text htext ↦ ?_⟩
  · obtain ⟨horderly, rfl⟩ := step_orderlyMachine.mp hstep
    obtain ⟨resident', hresident', hstrong, husable, hkept⟩ := strengthens_of_step horderly hresident
    exact ⟨resident', hresident', hstrong.1, husable, hstrong.2, hkept⟩
  · obtain ⟨resident, hresident, hstrong⟩ := hpromises text htext
    exact ⟨resident, hresident, hstrong.1, fun request ↦ hstrong.serves⟩

/-! ### Concrete runs -/

/-- A build whose files all have one hash. -/
def buildOf (c : Char) (proofTimeout : Timeout) : Publication where
  manifest := {
    sigHash := List.replicate 64 c
    smlHash := List.replicate 64 c
    datHash := List.replicate 64 c
    traceHash := none
    extraHashes := []
    parents := []
    mldeps := [] }
  proofTimeout

def noEntry : Entry := ⟨none, []⟩

/-- A build under five seconds, and then a manifest of the same files checked under one. -/
def strongerRun : List EntryEvent :=
  [.publishCacheManifest (buildOf 'a' (some (5 * second))),
    .putAction ((buildOf 'a' (some second)).text [])]

theorem strongerRun_isSome : ((orderlyMachine [] noEntry).run noEntry strongerRun).isSome := by
  decide +kernel

/-- The second publisher's manifest serves what both promised. -/
theorem strongerRun_served :
    (orderlyMachine [] noEntry).log (observeAccepted []) noEntry strongerRun ≠ [] ∧
    ∀ text ∈ (orderlyMachine [] noEntry).log (observeAccepted []) noEntry strongerRun,
      ∃ resident,
        (((orderlyMachine [] noEntry).run noEntry strongerRun).get strongerRun_isSome).manifest =
          some resident ∧ outputsOf [] resident = outputsOf [] text ∧
            ∀ request, Serves [] text request → Serves [] resident request := by
  have hrun : (orderlyMachine [] noEntry).Run (observeAccepted [])
      ([] ++ (orderlyMachine [] noEntry).log (observeAccepted []) noEntry strongerRun)
      (((orderlyMachine [] noEntry).run noEntry strongerRun).get strongerRun_isSome) :=
    Machine.Run.initial.log (Option.some_get strongerRun_isSome).symm
  rw [List.nil_append] at hrun
  exact ⟨by decide +kernel, (entry_only_gets_stronger hrun).2.2⟩

/-- The manifest of a build with a timeout written out. -/
def manifestUnder (timeout : String) : Text :=
  "holbuild-cache-action-v4\ninput_key=\nkind=theory\nproof-timeout=".toList ++ timeout.toList ++
    "\nload-metadata-v1\nblob sig ".toList ++ List.replicate 64 'a' ++ "\nblob sml ".toList ++
      List.replicate 64 'a' ++ "\nblob dat ".toList ++ List.replicate 64 'a' ++ ['\n']

/-- A manifest whose blobs are missing, and then a build with other files. -/
def replacingRun : List EntryEvent :=
  [.putAction (manifestUnder "1.0"), .publishCacheManifest (buildOf 'b' (some (5 * second)))]

/-- A manifest whose timeout has fourteen digits, and then a build of the same files under a shorter
timeout, whose thirteen digits are written rounded up. -/
def roundingRun : List EntryEvent :=
  [.publishBlob (List.replicate 64 'a'), .putAction (manifestUnder "1.0000000000061"),
    .publishCacheManifest (buildOf 'a' (some (seconds 1000000000006 (-12))))]

theorem weakerRuns_isSome : ((entryMachine [] noEntry).run noEntry replacingRun).isSome ∧
    ((entryMachine [] noEntry).run noEntry roundingRun).isSome := by
  decide +kernel

/-- Two publishers were told that their manifests are there, and the resident manifest does not serve
what they promised: one was found unusable and replaced by a build with other files and a weaker
timeout, the other was replaced, though usable, by a build whose timeout is written rounded up. -/
theorem accepted_manifest_weakened :
    (∃ observed entry, (entryMachine [] noEntry).Run (observeAccepted []) observed entry ∧
      ∃ text ∈ observed, Serves [] text (some second) ∧
        ¬ ∃ resident, entry.manifest = some resident ∧ Serves [] resident (some second)) ∧
    ∃ observed entry, (entryMachine [] noEntry).Run (observeAccepted []) observed entry ∧
      ∃ text ∈ observed, cacheEntryUsable [] entry.blobs text ∧
        ∃ request, Serves [] text request ∧
          ¬ ∃ resident, entry.manifest = some resident ∧ Serves [] resident request := by
  constructor
  · refine ⟨_, _, Machine.Run.initial.log (Option.some_get weakerRuns_isSome.1).symm,
      manifestUnder "1.0", by decide +kernel, by decide +kernel, ?_⟩
    rintro ⟨resident, hresident, hserves⟩
    have hbuilt : (((entryMachine [] noEntry).run noEntry replacingRun).get
        weakerRuns_isSome.1).manifest = some ((buildOf 'b' (some (5 * second))).text []) := by
      decide +kernel
    rw [Option.some.inj (hresident.symm.trans hbuilt)] at hserves
    exact absurd hserves (by decide +kernel)
  · refine ⟨_, _, Machine.Run.initial.log (Option.some_get weakerRuns_isSome.2).symm,
      manifestUnder "1.0000000000061", by decide +kernel, by decide +kernel,
      some (seconds 10000000000061 (-13)), by decide +kernel, ?_⟩
    rintro ⟨resident, hresident, hserves⟩
    have hbuilt : (((entryMachine [] noEntry).run noEntry roundingRun).get
        weakerRuns_isSome.2).manifest =
          some ((buildOf 'a' (some (seconds 1000000000006 (-12)))).text []) := by
      decide +kernel
    rw [Option.some.inj (hresident.symm.trans hbuilt)] at hserves
    exact absurd hserves (by decide +kernel)

end Runs

end Holbuild.Cache
