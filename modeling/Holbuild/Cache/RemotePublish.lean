import Holbuild.Cache.Entries
import Holbuild.Cache.References

/-!
# Publishing to the remote cache

The remote cache is an HTTP store without a compare-and-swap: an entry is read by a GET and overwritten
by a PUT, and each request may be answered, get another status, or fail. `putRemoteTheoryAction` reads
the resident manifest, puts its own where there is none or a weaker one, and verifies; `publishActionEntry`
also replaces a resident whose recorded parents no build can use any more.

A read that is not answered counts as a miss, in `getAction` and so in the read that `putAction` makes
before it writes. Where that read is answered, publishing never destroys a good entry
(`publish_keeps_resident`); where it is not, it can (`unanswered_read_destroys`).
-/

set_option autoImplicit false
set_option relaxedAutoImplicit false

namespace Holbuild.Cache.Remote

open Library

/-! ### Requests -/

/-- How a request ends: it is answered; it fails or gets another status, and a PUT may be stored all the
same; or it is not sent, while the cache is disabled after failures. -/
inductive Reply
  | right
  | wrong (stored : Bool) (message : Text)
  | unsent
deriving DecidableEq

/-- The requests for an action's record, the reads that precede a write apart. -/
inductive Request
  | read (reply : Reply)
  | readBeforeWrite (reply : Reply)
  | write (reply : Reply)
deriving DecidableEq

/-- The remote's manifest for the key, the replies still to come, whether the cache is found disabled at
each check still to come, the blobs this process knows to be in the remote, and the requests so far. -/
structure Session where
  entry : Option Text
  replies : List Reply
  disabled : List Bool
  known : List Text
  requests : List Request
deriving DecidableEq

def Session.nextReply (s : Session) : Reply := s.replies.headD .right

/-- Reads the record of the key; a read that is not answered is a miss. -/
def getAction (request : Reply → Request) (s : Session) : Option Text × Session :=
  let reply := s.nextReply
  let s := { s with replies := s.replies.tail, requests := s.requests ++ [request reply] }
  match reply, s.entry with
  | .right, some text => (some text, { s with known := uniqueBlobs text ++ s.known })
  | _, _ => (none, s)

/-- Writes the record of the key, whatever is there. -/
def publishActionMetadata (text : Text) (s : Session) : PublishResult × Session :=
  let reply := s.nextReply
  let s := { s with replies := s.replies.tail, requests := s.requests ++ [.write reply] }
  match reply with
  | .right => (.published, { s with entry := some text })
  | .wrong stored message => (.conflict message, if stored then { s with entry := some text } else s)
  | .unsent => (.skipped, s)

/-- Whether the cache is found disabled. -/
def checkDisabled (s : Session) : Bool × Session :=
  (s.disabled.headD false, { s with disabled := s.disabled.tail })

/-- Whether all the blobs a manifest refers to are known to be in the remote. -/
def allKnown (text : Text) (s : Session) : Bool := (uniqueBlobs text).all s.known.contains

def missingMetadata (key : Text) : Text :=
  "remote action is missing published blob metadata for ".toList ++ key

def replaceActionUnconditionally (key text : Text) (s : Session) : PublishResult × Session :=
  let check := checkDisabled s
  if check.1 then (.skipped, check.2)
  else if allKnown text check.2 then publishActionMetadata text check.2
  else (.conflict (missingMetadata key), check.2)

/-- What putting an action does after its read. -/
def putAfterRead (policy : PublishPolicy) (key text : Text) (existing : Option Text × Session) :
    PublishResult × Session :=
  match existing.1 with
  | some actual =>
    match policy with
    | .putIfAbsent => (.conflict key, existing.2)
    | .putIfAbsentOrSame =>
      if actual = text then (.alreadyPresent, existing.2) else (.conflict key, existing.2)
  | none => publishActionMetadata text existing.2

/-- Puts an action where there is none; there is none when a read is not answered. -/
def putAction (policy : PublishPolicy) (key text : Text) (s : Session) : PublishResult × Session :=
  let check := checkDisabled s
  if check.1 then (.skipped, check.2)
  else if allKnown text check.2 then
    putAfterRead policy key text (getAction .readBeforeWrite check.2)
  else (.conflict (missingMetadata key), check.2)

/-! ### Putting a theory's action -/

section Put

variable (key text : Text) (incoming : Contract)

def conflict (detail : Text) : PublishResult :=
  .conflict ("remote theory action ".toList ++ key ++ ": ".toList ++ detail)

/-- The resident's contract, if the resident has the incoming text outside the timeout. -/
def compatibleContract (residentText : Text) : Checked Contract := do
  let resident ← cacheManifestContract key residentText
  if resident.nonTimeoutText = incoming.nonTimeoutText then .ok resident
  else .error "resident manifest differs outside proof-timeout".toList

abbrev Answer := Checked PublishResult × Session

/-- Reads again what was published. -/
def verify (retry : Text → Session → Answer) (result : PublishResult) (s : Session) : Answer :=
  let observed := getAction .read s
  match observed.1 with
  | none => retry "action missing after publication".toList observed.2
  | some observedText =>
    match compatibleContract key incoming observedText with
    | .error message => (.error message, observed.2)
    | .ok contract =>
      if timeoutAtLeastAsStrong contract.proofTimeout incoming.proofTimeout then
        (.ok result, observed.2)
      else retry "weaker proof-timeout observed after publication".toList observed.2

/-- What follows a write. -/
def afterWrite (retry : Text → Session → Answer) (written : PublishResult × Session) : Answer :=
  match written.1 with
  | .published => verify key incoming retry .published written.2
  | .alreadyPresent => verify key incoming retry .alreadyPresent written.2
  | .conflict detail => retry detail written.2
  | .skipped => (.ok .skipped, written.2)

/-- One attempt to publish. -/
def attemptOnce (retry : Text → Session → Answer) (s : Session) : Answer :=
  let resident := getAction .read s
  match resident.1 with
  | none =>
    afterWrite key incoming retry (putAction .putIfAbsentOrSame key text resident.2)
  | some residentText =>
    match compatibleContract key incoming residentText with
    | .error message => (.error message, resident.2)
    | .ok contract =>
      if timeoutAtLeastAsStrong contract.proofTimeout incoming.proofTimeout then
        (.ok .alreadyPresent, resident.2)
      else if timeoutAtLeastAsStrong incoming.proofTimeout contract.proofTimeout then
        afterWrite key incoming retry (replaceActionUnconditionally key text resident.2)
      else (.ok (conflict key "proof-timeout contracts are incomparable".toList), resident.2)

/-- As many attempts as are left after the first one. -/
def attempt : ℕ → Session → Answer
  | 0, s => attemptOnce key text incoming (fun detail s ↦ (.ok (conflict key detail), s)) s
  | left + 1, s => attemptOnce key text incoming (fun _ s ↦ attempt left s) s

def remoteTheoryPublishAttempts : ℕ := 3

end Put

def putRemoteTheoryAction (key text : Text) (s : Session) : PublishResult × Session :=
  match cacheManifestContract key text with
  | .error message => (.conflict message, s)
  | .ok incoming =>
    match attempt key text incoming (remoteTheoryPublishAttempts - 1) s with
    | (.ok result, s) => (result, s)
    | (.error message, s) => (.conflict message, s)

/-! ### Publishing an action's entry -/

/-- A theory that the action depends on: its name, its key, and the hash of its restored `.dat`. -/
structure Dep where
  name : Text
  key : Text
  datHash : Option Text
deriving DecidableEq

/-- What an action's entry is published with: the action's key, the manifest of the entry in the local
cache, the restored dependencies, the entries of the local and the remote cache for other keys, and the
parents that the remote's `.dat` blobs record, each with its hash. -/
structure Action where
  key : Text
  manifest : Option Text
  deps : List Dep
  localEntries : Text → Option Text
  remoteEntries : Text → Option Text
  datParents : Text → Option (List (Text × Text))

/-- The hash that a `.dat` records for a parent. -/
def recordedHash (recorded : List (Text × Text)) (name : Text) : Option Text :=
  (recorded.find? (·.1 = name)).map (·.2)

/-- Whether every recorded dependency is recorded with the hash of its restored `.dat`. -/
def specParentHashesMatch (deps : List Dep) (recorded : List (Text × Text)) : Bool :=
  deps.all fun dep ↦
    match recordedHash recorded dep.name with
    | none => true
    | some hash => dep.datHash = some hash

/-- Takes the next reply for a request about another record than the key's. -/
def takeReply (s : Session) : Reply × Session := (s.nextReply, { s with replies := s.replies.tail })

/-- Whether a restored dependency has the outputs of the remote's entry. -/
def asRemote (action : Action) (depKey : Text) (s : Session) : Bool × Session :=
  match action.localEntries depKey with
  | none => (false, (takeReply s).2)
  | some mine =>
    let reply := takeReply s
    match reply.1, action.remoteEntries depKey with
    | .right, some theirs => (cacheManifestOutputsEqual depKey mine theirs matches .ok true, reply.2)
    | _, _ => (false, reply.2)

/-- Whether every recorded dependency has the outputs of the remote's entry. -/
def allAsRemote (action : Action) (recorded : List (Text × Text)) : List Dep → Session → Bool × Session
  | [], s => (true, s)
  | dep :: rest, s =>
    if (recordedHash recorded dep.name).isNone then allAsRemote action recorded rest s
    else
      let same := asRemote action dep.key s
      if same.1 then allAsRemote action recorded rest same.2 else (false, same.2)

/-- Whether the remote's entry records parents other than the restored ones, each of which is the
remote's. -/
def residentMisfitsParents (action : Action) (resident : Text) (s : Session) : Bool × Session :=
  match cacheManifestBlobsFromLines action.key (cacheManifestLines resident) with
  | .error _ => (false, s)
  | .ok manifest =>
    if s.known.contains manifest.datHash then
      let reply := takeReply s
      match reply.1, action.datParents manifest.datHash with
      | .right, some recorded =>
        if specParentHashesMatch action.deps recorded then (false, reply.2)
        else allAsRemote action recorded action.deps reply.2
      | _, _ => (false, reply.2)
    else (false, s)

/-- Replaces a resident with other outputs that misfits its parents. -/
def replaceMisfit (action : Action) (manifest : Text) (resident : Option Text × Session) : Session :=
  match resident.1 with
  | some text =>
    if cacheManifestOutputsEqual action.key text manifest matches .ok true then resident.2
    else
      let misfits := residentMisfitsParents action text resident.2
      if misfits.1 then (replaceActionUnconditionally action.key manifest misfits.2).2 else misfits.2
  | none => resident.2

/-- Publishes the local entry once its blobs are in the remote; `copied` are the blobs that copying them
adds to the known ones, if it does not raise. -/
def publishActionEntry (action : Action) (copied : Option (List Text)) (s : Session) :
    Option PublishResult × Session :=
  match action.manifest, copied with
  | some manifest, some blobs =>
    let put := putRemoteTheoryAction action.key manifest
      (replaceMisfit action manifest (getAction .read { s with known := blobs ++ s.known }))
    (some put.1, put.2)
  | _, _ => (none, s)

/-! ### What requests do -/

section Requests

variable {key text resident : Text} {incoming contract : Contract} {s s' s'' : Session}
  {request : Reply → Request}

/-- The requests of one session continue those of another. -/
def Grows (s s' : Session) : Prop := ∃ new, s'.requests = s.requests ++ new

/-- Every read that precedes a write is answered. -/
def Answered (s : Session) : Prop := ∀ reply, .readBeforeWrite reply ∈ s.requests → reply = .right

theorem Grows.of_eq (h : s'.requests = s.requests) : Grows s s' :=
  ⟨[], h.trans (List.append_nil _).symm⟩

theorem Grows.trans (h : Grows s s') (h' : Grows s' s'') : Grows s s'' := by
  obtain ⟨new, hnew⟩ := h
  obtain ⟨new', hnew'⟩ := h'
  exact ⟨new ++ new', by rw [hnew', hnew, List.append_assoc]⟩

theorem Grows.answered (h : Grows s s') (hanswered : Answered s') : Answered s := by
  obtain ⟨new, hnew⟩ := h
  intro reply hreply
  exact hanswered reply (hnew ▸ List.mem_append_left _ hreply)

/-- A read changes nothing; what it finds is there, and where it is answered and finds nothing, nothing
is there. -/
theorem getAction_spec (request : Reply → Request) (s : Session) :
    let r := getAction request s
    r.2.entry = s.entry ∧ r.2.requests = s.requests ++ [request s.nextReply] ∧
      (∀ text, r.1 = some text → s.entry = some text) ∧
      (s.nextReply = .right → r.1 = none → s.entry = none) := by
  dsimp only
  rw [getAction]
  dsimp only
  split
  · next text _ hentry =>
    refine ⟨hentry ▸ rfl, rfl, fun found hfound ↦ ?_, fun _ h ↦ nomatch h⟩
    exact hentry.trans hfound
  · next hother =>
    refine ⟨rfl, rfl, (fun _ h ↦ nomatch h), fun hreply _ ↦ ?_⟩
    rcases hentry : s.entry with _ | text
    · rfl
    · exact (hother text hreply hentry).elim

theorem getAction_grows : Grows s (getAction request s).2 := ⟨_, (getAction_spec request s).2.1⟩

/-- A write leaves the record as it was or stores its own. -/
theorem publishActionMetadata_spec (text : Text) (s : Session) :
    let r := publishActionMetadata text s
    Grows s r.2 ∧ (r.2.entry = s.entry ∨ r.2.entry = some text) := by
  dsimp only
  rw [publishActionMetadata]
  dsimp only
  split
  · exact ⟨⟨_, rfl⟩, .inr rfl⟩
  · next stored message _ =>
    cases stored with
    | true => exact ⟨⟨_, rfl⟩, .inr rfl⟩
    | false => exact ⟨⟨_, rfl⟩, .inl rfl⟩
  · exact ⟨⟨_, rfl⟩, .inl rfl⟩

theorem replaceActionUnconditionally_spec (key text : Text) (s : Session) :
    let r := replaceActionUnconditionally key text s
    Grows s r.2 ∧ (r.2.entry = s.entry ∨ r.2.entry = some text) := by
  dsimp only
  rw [replaceActionUnconditionally]
  split
  · exact ⟨.of_eq rfl, .inl rfl⟩
  · split
    · exact publishActionMetadata_spec text (checkDisabled s).2
    · exact ⟨.of_eq rfl, .inl rfl⟩

/-- Where its read is answered, putting an action changes the record only if there is none. -/
theorem putAction_spec (policy : PublishPolicy) (key text : Text) (s : Session) :
    let r := putAction policy key text s
    Grows s r.2 ∧ (r.2.entry = s.entry ∨ r.2.entry = some text) ∧
      (Answered r.2 → r.2.entry ≠ s.entry → s.entry = none) := by
  dsimp only
  rw [putAction]
  have hsame : ∀ s' : Session, s'.requests = s.requests → s'.entry = s.entry →
      Grows s s' ∧ (s'.entry = s.entry ∨ s'.entry = some text) ∧
        (Answered s' → s'.entry ≠ s.entry → s.entry = none) :=
    fun s' hrequests hentry ↦ ⟨.of_eq hrequests, .inl hentry, fun _ hne ↦ absurd hentry hne⟩
  split
  · exact hsame _ rfl rfl
  · split
    · obtain ⟨hentry, hrequests, hfound, hnone⟩ := getAction_spec .readBeforeWrite (checkDisabled s).2
      have hkept : Grows s (getAction .readBeforeWrite (checkDisabled s).2).2 ∧
          ((getAction .readBeforeWrite (checkDisabled s).2).2.entry = s.entry ∨
            (getAction .readBeforeWrite (checkDisabled s).2).2.entry = some text) ∧
          (Answered (getAction .readBeforeWrite (checkDisabled s).2).2 →
            (getAction .readBeforeWrite (checkDisabled s).2).2.entry ≠ s.entry → s.entry = none) :=
        ⟨⟨_, hrequests⟩, .inl hentry, fun _ hne ↦ absurd hentry hne⟩
      rw [putAfterRead]
      split
      · split
        · exact hkept
        · split
          · exact hkept
          · exact hkept
      · next hexisting =>
        obtain ⟨hgrows, hwritten⟩ :=
          publishActionMetadata_spec text (getAction .readBeforeWrite (checkDisabled s).2).2
        rw [hentry] at hwritten
        refine ⟨.trans ⟨_, hrequests⟩ hgrows, hwritten, fun hanswered _ ↦ ?_⟩
        refine hnone (hgrows.answered hanswered _ ?_) hexisting
        rw [hrequests]
        exact List.mem_append_right _ (List.mem_singleton_self _)
    · exact hsame _ rfl rfl

/-! ### What an attempt does -/

/-- The record is what it was at first, or the incoming manifest, which then may replace that. -/
def KeptOr (allowed : Prop) (first : Option Text) (text : Text) (entry : Option Text) : Prop :=
  entry = first ∨ entry = some text ∧ allowed

/-- The record has the incoming text outside the timeout and a contract at least as strong. -/
def HoldsAtLeast (key : Text) (incoming : Contract) (entry : Option Text) : Prop :=
  ∃ observed contract, entry = some observed ∧ cacheManifestContract key observed = .ok contract ∧
    contract.nonTimeoutText = incoming.nonTimeoutText ∧
      timeoutAtLeastAsStrong contract.proofTimeout incoming.proofTimeout

/-- When a manifest may replace what was there at first: where there was nothing, or a manifest with the
same text outside the timeout and a contract that the incoming one is at least as strong as. -/
def MayReplace (key text : Text) (first : Option Text) : Prop :=
  first = none ∨ ∃ resident contract incoming, first = some resident ∧
    cacheManifestContract key resident = .ok contract ∧ cacheManifestContract key text = .ok incoming ∧
      contract.nonTimeoutText = incoming.nonTimeoutText ∧
        timeoutAtLeastAsStrong incoming.proofTimeout contract.proofTimeout

/-- What is known of an answer to a session. -/
structure Sound (allowed : Prop) (key text : Text) (incoming : Contract) (first : Option Text)
    (s : Session) (answer : Answer) : Prop where
  grows : Grows s answer.2
  kept : Answered answer.2 → KeptOr allowed first text s.entry →
    KeptOr allowed first text answer.2.entry
  holds : answer.1 = .ok .published ∨ answer.1 = .ok .alreadyPresent →
    HoldsAtLeast key incoming answer.2.entry

variable {allowed : Prop} {first : Option Text} {retry : Text → Session → Answer} {answer : Answer}

/-- What follows a session that grew and kept its record is known of the session too. -/
theorem Sound.of_grows (h : Sound allowed key text incoming first s' answer) (hgrows : Grows s s')
    (hkept : Answered s' → KeptOr allowed first text s.entry → KeptOr allowed first text s'.entry) :
    Sound allowed key text incoming first s answer where
  grows := hgrows.trans h.grows
  kept hanswered hfirst := h.kept hanswered (hkept (h.grows.answered hanswered) hfirst)
  holds := h.holds

/-- An answer that is no success and changes nothing. -/
theorem sound_of_ne {result : Checked PublishResult} (hpublished : result ≠ .ok .published)
    (hpresent : result ≠ .ok .alreadyPresent) :
    Sound allowed key text incoming first s (result, s) where
  grows := .of_eq rfl
  kept _ hfirst := hfirst
  holds h := h.elim (fun h ↦ absurd h hpublished) fun h ↦ absurd h hpresent

theorem sound_error {message : Text} :
    Sound allowed key text incoming first s (.error message, s) :=
  sound_of_ne (fun h ↦ nomatch h) fun h ↦ nomatch h

theorem sound_conflict {detail : Text} :
    Sound allowed key text incoming first s (.ok (.conflict detail), s) :=
  sound_of_ne (fun h ↦ nomatch h) fun h ↦ nomatch h

theorem compatibleContract_eq_ok (h : compatibleContract key incoming resident = .ok contract) :
    cacheManifestContract key resident = .ok contract ∧
      contract.nonTimeoutText = incoming.nonTimeoutText := by
  obtain ⟨read, hread, hrest⟩ := bind_eq_ok_iff.mp h
  split_ifs at hrest with htext
  cases hrest
  exact ⟨hread, htext⟩

theorem verify_sound {result : PublishResult}
    (hretry : ∀ detail s, Sound allowed key text incoming first s (retry detail s)) (s : Session) :
    Sound allowed key text incoming first s (verify key incoming retry result s) := by
  obtain ⟨hentry, -, hfound, -⟩ := getAction_spec .read s
  have hkept : Answered (getAction .read s).2 → KeptOr allowed first text s.entry →
      KeptOr allowed first text (getAction .read s).2.entry := fun _ hfirst ↦ hentry ▸ hfirst
  rw [verify]
  split
  · exact (hretry _ _).of_grows getAction_grows hkept
  · next observedText hobserved =>
    split
    · exact sound_error.of_grows getAction_grows hkept
    · next contract hcontract =>
      split
      · next hstrong =>
        obtain ⟨hread, htext⟩ := compatibleContract_eq_ok hcontract
        exact {
          grows := getAction_grows
          kept := hkept
          holds := fun _ ↦ ⟨observedText, contract, hentry.trans (hfound _ hobserved), hread, htext,
            hstrong⟩ }
      · exact (hretry _ _).of_grows getAction_grows hkept

theorem afterWrite_sound
    (hretry : ∀ detail s, Sound allowed key text incoming first s (retry detail s))
    (written : PublishResult × Session) :
    Sound allowed key text incoming first written.2 (afterWrite key incoming retry written) := by
  rw [afterWrite]
  split
  · exact verify_sound hretry _
  · exact verify_sound hretry _
  · exact hretry _ _
  · exact sound_of_ne (fun h ↦ nomatch h) fun h ↦ nomatch h

/-- One attempt, where the incoming manifest may replace nothing and a weaker manifest. -/
theorem attemptOnce_sound (hnone : first = none → allowed)
    (hweaker : ∀ resident contract, first = some resident →
      cacheManifestContract key resident = .ok contract →
        contract.nonTimeoutText = incoming.nonTimeoutText →
          timeoutAtLeastAsStrong incoming.proofTimeout contract.proofTimeout → allowed)
    (hretry : ∀ detail s, Sound allowed key text incoming first s (retry detail s)) (s : Session) :
    Sound allowed key text incoming first s (attemptOnce key text incoming retry s) := by
  obtain ⟨hentry, -, hfound, -⟩ := getAction_spec .read s
  have hkept : Answered (getAction .read s).2 → KeptOr allowed first text s.entry →
      KeptOr allowed first text (getAction .read s).2.entry := fun _ hfirst ↦ hentry ▸ hfirst
  rw [attemptOnce]
  split
  · -- there is no record, or the read is not answered: `putAction` reads again
    obtain ⟨hgrows, hwritten, hput⟩ :=
      putAction_spec .putIfAbsentOrSame key text (getAction .read s).2
    refine ((afterWrite_sound hretry _).of_grows hgrows fun hanswered hfirst ↦ ?_).of_grows
      getAction_grows hkept
    by_cases hsame : (putAction .putIfAbsentOrSame key text (getAction .read s).2).2.entry =
        (getAction .read s).2.entry
    · exact hsame ▸ hfirst
    · have habsent := hput hanswered hsame
      refine .inr ⟨hwritten.resolve_left hsame, ?_⟩
      rcases hfirst with hfirst | ⟨hstored, hallowed⟩
      · exact hnone (hfirst.symm.trans habsent)
      · exact hallowed
  · next residentText hresident =>
    split
    · exact sound_error.of_grows getAction_grows hkept
    · next contract hcontract =>
      obtain ⟨hread, htext⟩ := compatibleContract_eq_ok hcontract
      split
      · next hstrong =>
        exact {
          grows := getAction_grows
          kept := hkept
          holds := fun _ ↦ ⟨residentText, contract, hentry.trans (hfound _ hresident), hread, htext,
            hstrong⟩ }
      · split
        · next hstrong =>
          -- a weaker resident is read: it may be replaced
          obtain ⟨hgrows, hwritten⟩ :=
            replaceActionUnconditionally_spec key text (getAction .read s).2
          refine ((afterWrite_sound hretry _).of_grows hgrows fun _ hfirst ↦ ?_).of_grows
            getAction_grows hkept
          rcases hwritten with hsame | hstored
          · exact hsame ▸ hfirst
          · refine .inr ⟨hstored, ?_⟩
            rcases hfirst with hfirst | ⟨-, hallowed⟩
            · refine hweaker residentText contract ?_ hread htext hstrong
              exact hfirst.symm.trans (hentry.trans (hfound _ hresident))
            · exact hallowed
        · exact sound_conflict.of_grows getAction_grows hkept

theorem attempt_sound (hnone : first = none → allowed)
    (hweaker : ∀ resident contract, first = some resident →
      cacheManifestContract key resident = .ok contract →
        contract.nonTimeoutText = incoming.nonTimeoutText →
          timeoutAtLeastAsStrong incoming.proofTimeout contract.proofTimeout → allowed)
    (left : ℕ) (s : Session) :
    Sound allowed key text incoming first s (attempt key text incoming left s) := by
  induction left generalizing s with
  | zero =>
    rw [attempt]
    exact attemptOnce_sound hnone hweaker (fun _ _ ↦ sound_conflict) s
  | succ left ih =>
    rw [attempt]
    exact attemptOnce_sound hnone hweaker (fun _ s ↦ ih s) s

end Requests

/-! ### Whole publications -/

section Publications

/-- The resident records parents other than the restored ones, and each parent it records was restored
from an entry with the remote's outputs. -/
def Misfits (action : Action) (resident : Text) : Prop :=
  ∃ manifest recorded,
    cacheManifestBlobsFromLines action.key (cacheManifestLines resident) = .ok manifest ∧
    action.datParents manifest.datHash = some recorded ∧
    specParentHashesMatch action.deps recorded = false ∧
    ∀ dep ∈ action.deps, recordedHash recorded dep.name ≠ none →
      ∃ mine theirs, action.localEntries dep.key = some mine ∧
        action.remoteEntries dep.key = some theirs ∧
          cacheManifestOutputsEqual dep.key mine theirs = .ok true

/-- Putting a theory's action keeps the record, or stores the incoming manifest where it may. -/
theorem putRemoteTheoryAction_spec (first : Option Text) (extra : Prop) (key text : Text)
    (s : Session) :
    let r := putRemoteTheoryAction key text s
    Grows s r.2 ∧
      (Answered r.2 → KeptOr (MayReplace key text first ∨ extra) first text s.entry →
        KeptOr (MayReplace key text first ∨ extra) first text r.2.entry) ∧
      (r.1 = .published ∨ r.1 = .alreadyPresent →
        ∃ incoming, cacheManifestContract key text = .ok incoming ∧
          HoldsAtLeast key incoming r.2.entry) := by
  dsimp only
  rw [putRemoteTheoryAction]
  cases hincoming : cacheManifestContract key text with
  | error message => exact ⟨.of_eq rfl, fun _ h ↦ h, fun h ↦ nomatch h⟩
  | ok incoming =>
    have hsound : Sound (MayReplace key text first ∨ extra) key text incoming first s
        (attempt key text incoming (remoteTheoryPublishAttempts - 1) s) :=
      attempt_sound (fun hfirst ↦ .inl (.inl hfirst)) (fun resident contract hfirst hread htext hstrong ↦
        .inl (.inr ⟨resident, contract, incoming, hfirst, hread, hincoming, htext, hstrong⟩)) _ s
    dsimp only
    rcases hanswer : attempt key text incoming (remoteTheoryPublishAttempts - 1) s with
      ⟨message | result, s'⟩
    · rw [hanswer] at hsound
      exact ⟨hsound.grows, hsound.kept, fun h ↦ nomatch h⟩
    · rw [hanswer] at hsound
      exact ⟨hsound.grows, hsound.kept, fun h ↦ ⟨incoming, rfl,
        hsound.holds (h.imp (congrArg Except.ok) (congrArg Except.ok))⟩⟩

/-- Requests about other records leave the record and its requests. -/
theorem allAsRemote_spec (action : Action) (recorded : List (Text × Text)) (deps : List Dep) :
    ∀ s : Session, (allAsRemote action recorded deps s).2.entry = s.entry ∧
      (allAsRemote action recorded deps s).2.requests = s.requests ∧
      ((allAsRemote action recorded deps s).1 →
        ∀ dep ∈ deps, recordedHash recorded dep.name ≠ none →
          ∃ mine theirs, action.localEntries dep.key = some mine ∧
            action.remoteEntries dep.key = some theirs ∧
              cacheManifestOutputsEqual dep.key mine theirs = .ok true) := by
  induction deps with
  | nil => exact fun s ↦ ⟨rfl, rfl, fun _ dep hdep ↦ absurd hdep List.not_mem_nil⟩
  | cons dep rest ih =>
    intro s
    rw [allAsRemote]
    split
    · next hnone =>
      obtain ⟨hentry, hrequests, hall⟩ := ih s
      refine ⟨hentry, hrequests, fun h ↦ List.forall_mem_cons.mpr ⟨fun hrecorded ↦ ?_, hall h⟩⟩
      exact absurd (Option.isNone_iff_eq_none.mp hnone) hrecorded
    · have hsame : (asRemote action dep.key s).2.entry = s.entry ∧
          (asRemote action dep.key s).2.requests = s.requests ∧
          ((asRemote action dep.key s).1 →
            ∃ mine theirs, action.localEntries dep.key = some mine ∧
              action.remoteEntries dep.key = some theirs ∧
                cacheManifestOutputsEqual dep.key mine theirs = .ok true) := by
        rw [asRemote]
        split
        · exact ⟨rfl, rfl, fun h ↦ nomatch h⟩
        · next mine hmine =>
          dsimp only
          split
          · next theirs _ htheirs =>
            refine ⟨rfl, rfl, fun h ↦ ⟨mine, theirs, hmine, htheirs, ?_⟩⟩
            revert h
            cases cacheManifestOutputsEqual dep.key mine theirs with
            | error message => exact fun h ↦ nomatch h
            | ok same => cases same <;> simp
          · exact ⟨rfl, rfl, fun h ↦ nomatch h⟩
      dsimp only
      split
      · next htrue =>
        obtain ⟨hentry, hrequests, hall⟩ := ih (asRemote action dep.key s).2
        exact ⟨hentry.trans hsame.1, hrequests.trans hsame.2.1,
          fun h ↦ List.forall_mem_cons.mpr ⟨fun _ ↦ hsame.2.2 htrue, hall h⟩⟩
      · exact ⟨hsame.1, hsame.2.1, fun h ↦ nomatch h⟩

/-- A resident is found to misfit its parents only when it does. -/
theorem residentMisfitsParents_spec (action : Action) (resident : Text) (s : Session) :
    (residentMisfitsParents action resident s).2.entry = s.entry ∧
      (residentMisfitsParents action resident s).2.requests = s.requests ∧
      ((residentMisfitsParents action resident s).1 → Misfits action resident) := by
  rw [residentMisfitsParents]
  split
  · exact ⟨rfl, rfl, fun h ↦ nomatch h⟩
  · next manifest hmanifest =>
    split
    · dsimp only
      split
      · next recorded _ hrecorded =>
        split
        · exact ⟨rfl, rfl, fun h ↦ nomatch h⟩
        · next hmatch =>
          obtain ⟨hentry, hrequests, hall⟩ := allAsRemote_spec action recorded action.deps (takeReply s).2
          exact ⟨hentry, hrequests, fun h ↦
            ⟨manifest, recorded, hmanifest, hrecorded, Bool.eq_false_iff.mpr hmatch, hall h⟩⟩
      · exact ⟨rfl, rfl, fun h ↦ nomatch h⟩
    · exact ⟨rfl, rfl, fun h ↦ nomatch h⟩

/-- Only a resident that misfits its parents is replaced. -/
theorem replaceMisfit_spec (action : Action) (manifest : Text) (s : Session) :
    let r := replaceMisfit action manifest (getAction .read s)
    Grows s r ∧ (r.entry = s.entry ∨ r.entry = some manifest ∧
      ∃ resident, s.entry = some resident ∧ Misfits action resident) := by
  obtain ⟨hentry, -, hfound, -⟩ := getAction_spec .read s
  dsimp only
  rw [replaceMisfit]
  split
  · next resident hresident =>
    by_cases hequal : (cacheManifestOutputsEqual action.key resident manifest matches .ok true) = true
    · rw [if_pos hequal]
      exact ⟨getAction_grows, .inl hentry⟩
    · rw [if_neg hequal]
      obtain ⟨hentry', hrequests', hmisfits⟩ :=
        residentMisfitsParents_spec action resident (getAction .read s).2
      have hgrows := getAction_grows.trans (Grows.of_eq hrequests')
      dsimp only
      split
      · next htrue =>
        obtain ⟨hgrows', hwritten⟩ := replaceActionUnconditionally_spec action.key manifest
          (residentMisfitsParents action resident (getAction .read s).2).2
        refine ⟨hgrows.trans hgrows', hwritten.imp (fun hsame ↦ ?_) fun hstored ↦ ?_⟩
        · exact hsame.trans (hentry'.trans hentry)
        · exact ⟨hstored, resident, hfound _ hresident, hmisfits htrue⟩
      · exact ⟨hgrows, .inl (hentry'.trans hentry)⟩
  · exact ⟨getAction_grows, .inl hentry⟩

/-- Publishing to the remote cache never destroys a good entry, where every read that precedes a write is
answered: the record is what it was, or the incoming manifest, and the incoming one only where there was
nothing, or a manifest with the same text outside the timeout and a contract that the incoming one is at
least as strong as, or, for an action's entry, a manifest that misfits its parents. What is answered to
have been published or to be present already is there, with a contract at least as strong. -/
theorem publish_keeps_resident (s : Session) :
    (∀ key text, Answered (putRemoteTheoryAction key text s).2 →
      KeptOr (MayReplace key text s.entry) s.entry text (putRemoteTheoryAction key text s).2.entry) ∧
    (∀ action copied, Answered (publishActionEntry action copied s).2 →
      (publishActionEntry action copied s).2.entry = s.entry ∨
        ∃ manifest, action.manifest = some manifest ∧
          (publishActionEntry action copied s).2.entry = some manifest ∧
            (MayReplace action.key manifest s.entry ∨
              ∃ resident, s.entry = some resident ∧ Misfits action resident)) ∧
    ∀ key text, (putRemoteTheoryAction key text s).1 = .published ∨
        (putRemoteTheoryAction key text s).1 = .alreadyPresent →
      ∃ incoming, cacheManifestContract key text = .ok incoming ∧
        HoldsAtLeast key incoming (putRemoteTheoryAction key text s).2.entry := by
  refine ⟨fun key text hanswered ↦ ?_, fun action copied hanswered ↦ ?_, fun key text ↦ ?_⟩
  · obtain ⟨-, hkept, -⟩ :=
      putRemoteTheoryAction_spec s.entry False key text s
    exact (hkept hanswered (.inl rfl)).imp_right (And.imp_right fun h ↦ h.resolve_right id)
  · rcases hmanifest : action.manifest with _ | manifest
    · exact .inl (by simp only [publishActionEntry, hmanifest])
    · rcases copied with _ | blobs
      · exact .inl (by simp only [publishActionEntry, hmanifest])
      · have hresult : (publishActionEntry action (some blobs) s).2 =
            (putRemoteTheoryAction action.key manifest
              (replaceMisfit action manifest
                (getAction .read { s with known := blobs ++ s.known }))).2 := by
          simp only [publishActionEntry, hmanifest]
        obtain ⟨hgrows, hreplaced⟩ :=
          replaceMisfit_spec action manifest { s with known := blobs ++ s.known }
        obtain ⟨-, hkept, -⟩ := putRemoteTheoryAction_spec s.entry
          (∃ resident, s.entry = some resident ∧ Misfits action resident) action.key manifest
          (replaceMisfit action manifest (getAction .read { s with known := blobs ++ s.known }))
        rw [hresult] at hanswered ⊢
        rcases hkept hanswered (hreplaced.imp_right (And.imp_right .inr)) with hsame | ⟨hstored, hallowed⟩
        · exact .inl hsame
        · exact .inr ⟨manifest, rfl, hstored, hallowed⟩
  · exact (putRemoteTheoryAction_spec none False key text s).2.2

/-! ### Concrete publications -/

/-- A resident with one build's files, and the reads of another build that get no answer. -/
def unansweredSession : Session where
  entry := some ((buildOf 'a' (some second)).text [])
  replies := [.wrong false [], .wrong false []]
  disabled := []
  known := [List.replicate 64 'b']
  requests := []

/-- Two reads without an answer count as misses: the write after them destroys an entry with other
files, and the publication is answered to have succeeded. -/
theorem unanswered_read_destroys :
    (putRemoteTheoryAction [] ((buildOf 'b' (some second)).text []) unansweredSession).1 = .published ∧
      ¬ KeptOr (MayReplace [] ((buildOf 'b' (some second)).text []) unansweredSession.entry)
        unansweredSession.entry ((buildOf 'b' (some second)).text [])
        (putRemoteTheoryAction [] ((buildOf 'b' (some second)).text []) unansweredSession).2.entry := by
  refine ⟨by decide +kernel, ?_⟩
  rintro (hsame | ⟨-, hnone | ⟨resident, contract, incoming, hresident, hread, hincoming, htext, -⟩⟩)
  · exact absurd hsame (by decide +kernel)
  · cases hnone
  · rw [← Option.some.inj hresident] at hread
    have hown := (cacheManifestContract_eq_ok_iff.mp hread).2.2
    have hother := (cacheManifestContract_eq_ok_iff.mp hincoming).2.2
    rw [htext, hother] at hown
    exact absurd hown (by decide +kernel)

/-- A resident of the same files under a weaker timeout, and requests that are all answered. -/
def weakerSession : Session where
  entry := some ((buildOf 'a' (some (5 * second))).text [])
  replies := []
  disabled := []
  known := [List.replicate 64 'a']
  requests := []

/-- A weaker resident is replaced, and what replaces it may. -/
theorem weakerSession_replaced :
    (putRemoteTheoryAction [] ((buildOf 'a' (some second)).text []) weakerSession).1 = .published ∧
      KeptOr (MayReplace [] ((buildOf 'a' (some second)).text []) weakerSession.entry)
        weakerSession.entry ((buildOf 'a' (some second)).text [])
        (putRemoteTheoryAction [] ((buildOf 'a' (some second)).text []) weakerSession).2.entry := by
  refine ⟨by decide +kernel, (publish_keeps_resident weakerSession).1 _ _ fun reply hreply ↦ ?_⟩
  have hnone : ∀ request ∈ (putRemoteTheoryAction [] ((buildOf 'a' (some second)).text [])
      weakerSession).2.requests, request = .read .right ∨ request = .write .right := by
    decide +kernel
  rcases hnone _ hreply with h | h
  · cases h
  · cases h

end Publications

end Holbuild.Cache.Remote
