import Holbuild.Cache.Entries
import Holbuild.Cache.References
import Mathlib.Data.Finset.Lattice.Basic
import Mathlib.Data.List.AList

/-!
# Collecting a cache while it is published to

The collector visits the actions, removes those whose manifests are older than a cutoff, and takes down
what the others refer to; then it visits the blobs, and removes those that are older than the cutoff and
were not taken down. It holds no lock that publishers take. They put an entry by publishing each of its
blobs, which leaves alone one that is there already, and then its manifest.

A publisher that finds an old blob there relies on a file that the collector may remove: then a manifest
is left that names a blob that is gone (`published_blob_collected`). Where publishers find only blobs that
are not old, or that the collector has taken down, every manifest names only blobs that are there, and
only old blobs that no manifest names are removed (`collection_sound`).
-/

set_option autoImplicit false
set_option relaxedAutoImplicit false

namespace Holbuild.Cache

open Library

/-! ### What a publisher does to a manifest -/

inductive Decision
  | write (text : Text)
  | touch
  | leave
deriving DecidableEq

/-- Whether an event finds a manifest that it touches. -/
def EntryEvent.touches (inputKey : Text) (entry : Entry) : EntryEvent → Bool
  | .publishCacheManifest publication =>
    (Cache.publishCacheManifest inputKey publication entry).2 = .touched
  | _ => false

/-- What an event does to the manifest it finds. -/
def EntryEvent.decision (inputKey : Text) (entry : Entry) (event : EntryEvent) : Decision :=
  match (event.apply inputKey entry).manifest with
  | some text =>
    if entry.manifest = some text then
      if event.touches inputKey entry then .touch else .leave
    else .write text
  | none => .leave

/-- An event leaves the manifest it finds, or writes the one it brings. -/
theorem apply_manifest (inputKey : Text) (entry : Entry) (event : EntryEvent) :
    (event.apply inputKey entry).manifest = entry.manifest ∨
      (event.apply inputKey entry).manifest = event.text inputKey := by
  cases event with
  | touchAction => exact .inl rfl
  | publishBlob hash => exact .inl rfl
  | putAction text =>
    rw [EntryEvent.apply, putAction]
    split
    · next old _ =>
      rcases existingActionResult_cases inputKey text old entry with
        ⟨hresult, -⟩ | ⟨hresult, -⟩ | hresult
      · exact .inl (congrArg (·.1.manifest) hresult)
      · exact .inr (congrArg (·.1.manifest) hresult)
      · exact .inl (congrArg (·.1.manifest) hresult)
    · exact .inr rfl
  | publishCacheManifest publication =>
    rw [EntryEvent.apply, publishCacheManifest]
    dsimp only
    split
    · next old hold =>
      split_ifs
      · exact .inl rfl
      · split
        · rw [publishSameOutputs]
          split
          · next oldTimeout _ =>
            dsimp only
            split_ifs with hequal
            · exact .inl rfl
            · -- the timeout written is not the old one, so it is the publisher's own
              rcases timeoutMin_cases oldTimeout publication.proofTimeout with ⟨hmin, -⟩ | ⟨hmin, -⟩
              · exact absurd (timeoutEqual_iff.mpr hmin.symm) hequal
              · rw [hmin]
                exact .inr rfl
          · exact .inl rfl
        · exact .inl rfl
        · exact .inl rfl
      · exact .inr rfl
    · exact .inr rfl

/-- The manifest that is written is the one that is brought. -/
theorem text_of_decision {inputKey text : Text} {entry : Entry} {event : EntryEvent}
    (h : event.decision inputKey entry = .write text) : event.text inputKey = some text := by
  rw [EntryEvent.decision] at h
  split at h
  · next found hfound =>
    split_ifs at h with hsame
    cases h
    rcases apply_manifest inputKey entry event with hkept | hwritten
    · exact absurd (hkept.symm.trans hfound) hsame
    · exact hwritten.symm.trans hfound
  · cases h

namespace Collection

/-! ### Caches -/

/-- A manifest with the time its file was last written or touched. -/
structure Manifest where
  text : Text
  time : ℕ
deriving DecidableEq

/-- The actions of a cache by key, and the times of its blobs' files by hash. -/
structure Store where
  actions : AList fun _ : Text ↦ Manifest
  blobs : AList fun _ : Text ↦ ℕ

/-- Every manifest names only blobs that are there. -/
def Store.Whole (store : Store) : Prop :=
  ∀ key manifest, store.actions.lookup key = some manifest →
    ∀ hash ∈ uniqueBlobs manifest.text, hash ∈ store.blobs

/-- A cache in which every manifest names only blobs that are there. -/
structure WholeCache extends Store where
  whole : toStore.Whole

/-- What a publisher is doing: the key, what it brings and its manifest, the blobs it found missing and
those it found there or stored, and what it has decided to do to the manifest. -/
structure Task where
  key : Text
  event : EntryEvent
  text : Text
  missing : List Text
  stored : List Text
  decision : Option Decision
deriving DecidableEq

/-- Where the collector is: what it has still to visit, and what it is about to do to an action or a
blob that it has looked at. -/
inductive Collector
  | idle
  | visiting (todo : List Text)
  | removing (key : Text) (todo : List Text)
  | reading (key : Text) (todo : List Text)
  | sweeping (todo : List Text)
  | unlinking (hash : Text) (todo : List Text)
  | finished
deriving DecidableEq

structure State extends Store where
  tasks : ℕ → Option Task
  collector : Collector
  live : Finset Text

inductive Event
  /-- A publisher starts to bring a manifest. -/
  | start (p : ℕ) (key : Text) (event : EntryEvent)
  /-- A publisher looks for a blob. -/
  | lookBlob (p : ℕ) (hash : Text)
  /-- A publisher stores a blob it found missing. -/
  | writeBlob (p : ℕ) (hash : Text) (now : ℕ)
  /-- A publisher, all of whose blobs are there, reads the resident manifest. -/
  | decide (p : ℕ)
  /-- A publisher does what it has decided. -/
  | act (p : ℕ) (now : ℕ)
  /-- A publisher raises an error or is killed. -/
  | stop (p : ℕ)
  /-- An action is restored and its manifest touched. -/
  | touch (key : Text) (now : ℕ)
  /-- The collector lists the actions. -/
  | list
  /-- The collector looks at the next action; a directory without a manifest may be old. -/
  | lookAction (oldDirectory : Bool)
  /-- The collector removes or reads the action it looked at. -/
  | handleAction
  /-- The collector lists the blobs. -/
  | sweep
  /-- The collector looks at the next blob. -/
  | checkBlob
  | unlinkBlob
  /-- The collector has visited everything, or it stops before. -/
  | finish
deriving DecidableEq

variable (cutoff : ℕ)

def State.touch (s : State) (key : Text) (now : ℕ) : State :=
  match s.actions.lookup key with
  | some manifest => { s with actions := s.actions.insert key { manifest with time := now } }
  | none => s

def State.setTask (s : State) (p : ℕ) (task : Option Task) : State :=
  { s with tasks := Function.update s.tasks p task }

/-- What a publisher's decision makes of the actions. -/
def State.act (s : State) (key : Text) (now : ℕ) : Decision → State
  | .write text => { s with actions := s.actions.insert key ⟨text, now⟩ }
  | .touch => s.touch key now
  | .leave => s

/-- The entry for a key, with the blobs that are there. -/
def State.entry (s : State) (key : Text) : Entry :=
  ⟨(s.actions.lookup key).map (·.text), s.blobs.keys⟩

def stepLookBlob (s : State) (p : ℕ) (hash : Text) : Option State :=
  match s.tasks p with
  | some task =>
    if s.blobs.lookup hash = none then
      some (s.setTask p (some { task with missing := hash :: task.missing }))
    else some (s.setTask p (some { task with stored := hash :: task.stored }))
  | none => none

def stepWriteBlob (s : State) (p : ℕ) (hash : Text) (now : ℕ) : Option State :=
  match s.tasks p with
  | some task =>
    if hash ∈ task.missing ∧ cutoff ≤ now then
      some (({ s with blobs := s.blobs.insert hash now } : State).setTask p
        (some { task with stored := hash :: task.stored }))
    else none
  | none => none

def stepDecide (s : State) (p : ℕ) : Option State :=
  match s.tasks p with
  | some task =>
    if ∀ hash ∈ uniqueBlobs task.text, hash ∈ task.stored then
      some (s.setTask p
        (some { task with decision := some (task.event.decision task.key (s.entry task.key)) }))
    else none
  | none => none

def stepAct (s : State) (p : ℕ) (now : ℕ) : Option State :=
  match s.tasks p with
  | some task =>
    match task.decision with
    | some decision =>
      if cutoff ≤ now then some ((s.act task.key now decision).setTask p none) else none
    | none => none
  | none => none

/-- The collector looks at the next action. -/
def stepLookAction (s : State) (oldDirectory : Bool) : Option State :=
  match s.collector with
  | .visiting (key :: todo) =>
    match s.actions.lookup key with
    | some manifest =>
      if manifest.time < cutoff then some { s with collector := .removing key todo }
      else some { s with collector := .reading key todo }
    | none =>
      if oldDirectory then some { s with collector := .removing key todo }
      else some { s with collector := .visiting todo }
  | _ => none

def stepHandleAction (s : State) : Option State :=
  match s.collector with
  | .removing key todo =>
    some { s with actions := s.actions.erase key, collector := .visiting todo }
  | .reading key todo =>
    let found := (s.actions.lookup key).elim ∅ fun manifest ↦ actionLiveBlobs manifest.text
    some { s with live := s.live ∪ found, collector := .visiting todo }
  | _ => none

def stepCheckBlob (s : State) : Option State :=
  match s.collector with
  | .sweeping (hash :: todo) =>
    if (∃ time ∈ s.blobs.lookup hash, time < cutoff) ∧ hash ∉ s.live then
      some { s with collector := .unlinking hash todo }
    else some { s with collector := .sweeping todo }
  | _ => none

def step (s : State) : Event → Option State
  | .start p key event =>
    match event.text key with
    | some text =>
      if s.tasks p = none then some (s.setTask p (some ⟨key, event, text, [], [], none⟩)) else none
    | none => none
  | .lookBlob p hash => stepLookBlob s p hash
  | .writeBlob p hash now => stepWriteBlob cutoff s p hash now
  | .decide p => stepDecide s p
  | .act p now => stepAct cutoff s p now
  | .stop p => some (s.setTask p none)
  | .touch key now => if cutoff ≤ now then some (s.touch key now) else none
  | .list =>
    if s.collector = .idle then some { s with collector := .visiting s.actions.keys } else none
  | .lookAction oldDirectory => stepLookAction cutoff s oldDirectory
  | .handleAction => stepHandleAction s
  | .sweep =>
    if s.collector = .visiting [] then some { s with collector := .sweeping s.blobs.keys } else none
  | .checkBlob => stepCheckBlob cutoff s
  | .unlinkBlob =>
    match s.collector with
    | .unlinking hash todo =>
      some { s with blobs := s.blobs.erase hash, collector := .sweeping todo }
    | _ => none
  | .finish => if s.collector = .idle then none else some { s with collector := .finished }

/-- One collection of a cache and any number of publishers. -/
def machine (start : WholeCache) : Machine State Event where
  initial := { start.toStore with tasks := fun _ ↦ none, collector := .idle, live := ∅ }
  step := step cutoff

/-- Whether an event is not that of a publisher that finds an old blob which the collector, if it is not
done, has not taken down. -/
def careful (s : State) : Event → Bool
  | .lookBlob _ hash =>
    match s.blobs.lookup hash with
    | some time => cutoff ≤ time || hash ∈ s.live || s.collector = .finished
    | none => true
  | _ => true

/-! ### What is kept -/

variable {cutoff} {s s' : State} {hash text : Text} {task : Task}

/-- A blob is there, and the collector does not remove it: it is not old, it was taken down, or the
collector is done. -/
def State.Kept (s : State) (cutoff : ℕ) (hash : Text) : Prop :=
  ∃ time, s.blobs.lookup hash = some time ∧
    (cutoff ≤ time ∨ hash ∈ s.live ∨ s.collector = .finished)

theorem State.Kept.mem (h : s.Kept cutoff hash) : hash ∈ s.blobs := by
  obtain ⟨time, htime, -⟩ := h
  exact AList.lookup_isSome.mp (htime ▸ rfl)

/-- What a publisher has done and will do rests on blobs that are kept. -/
structure TaskOk (cutoff : ℕ) (s : State) (task : Task) : Prop where
  brings : task.event.text task.key = some task.text
  stored : ∀ hash ∈ task.stored, s.Kept cutoff hash
  missing : ∀ hash ∈ task.missing, ∀ time, s.blobs.lookup hash = some time → cutoff ≤ time
  decided : ∀ text, task.decision = some (.write text) → ∀ hash ∈ uniqueBlobs text, hash ∈ task.stored

theorem TaskOk.mono (h : TaskOk cutoff s task) (hkept : ∀ hash, s.Kept cutoff hash → s'.Kept cutoff hash)
    (hold : ∀ hash time, s'.blobs.lookup hash = some time → cutoff ≤ time ∨
      s.blobs.lookup hash = some time) : TaskOk cutoff s' task where
  brings := h.brings
  stored hash hhash := hkept hash (h.stored hash hhash)
  missing hash hhash time htime := (hold hash time htime).elim id (h.missing hash hhash time)
  decided := h.decided

/-- The actions that the collector has still to visit or to handle. -/
def Collector.awaited : Collector → List Text
  | .visiting todo => todo
  | .removing key todo => key :: todo
  | .reading key todo => key :: todo
  | _ => []

/-- The manifests name only blobs that are there; those of the actions that the collector is done with
name only blobs that are kept; publishers rest on such blobs; and a blob about to be removed is old and
was not taken down. -/
structure Inv (cutoff : ℕ) (s : State) : Prop where
  whole : s.Whole
  visited : s.collector ≠ .idle → ∀ key manifest, s.actions.lookup key = some manifest →
    key ∉ s.collector.awaited → ∀ hash ∈ uniqueBlobs manifest.text, s.Kept cutoff hash
  tasks : ∀ p task, s.tasks p = some task → TaskOk cutoff s task
  unlinking : ∀ hash todo, s.collector = .unlinking hash todo →
    hash ∉ s.live ∧ ∃ time, s.blobs.lookup hash = some time ∧ time < cutoff

/-- A step of a publisher on its own task. -/
theorem Inv.setTask (h : Inv cutoff s) (p : ℕ) {task : Option Task}
    (htask : ∀ task', task = some task' → TaskOk cutoff s task') : Inv cutoff (s.setTask p task) where
  whole := h.whole
  visited := h.visited
  tasks q task' hq := by
    by_cases hqp : q = p
    · subst hqp
      have hself : Function.update s.tasks q task q = some task' := hq
      rw [Function.update_self] at hself
      exact (htask task' hself).mono (fun _ hkept ↦ hkept) fun _ _ hlookup ↦ .inr hlookup
    · have hother : Function.update s.tasks p task q = some task' := hq
      rw [Function.update_of_ne hqp] at hother
      exact (h.tasks q task' hother).mono (fun _ hkept ↦ hkept) fun _ _ hlookup ↦ .inr hlookup
  unlinking := h.unlinking

/-- A blob that is not about to be removed is stored anew. -/
theorem Inv.writeBlob (h : Inv cutoff s) {now : ℕ} (hnow : cutoff ≤ now)
    (hfresh : ∀ time, s.blobs.lookup hash = some time → cutoff ≤ time) :
    Inv cutoff { s with blobs := s.blobs.insert hash now } := by
  have hkept : ∀ other, s.Kept cutoff other →
      State.Kept { s with blobs := s.blobs.insert hash now } cutoff other := by
    rintro other ⟨time, htime, hsafe⟩
    by_cases hother : other = hash
    · subst hother
      exact ⟨now, AList.lookup_insert _, .inl hnow⟩
    · exact ⟨time, (AList.lookup_insert_ne hother).trans htime, hsafe⟩
  have hold : ∀ other time, (s.blobs.insert hash now).lookup other = some time →
      cutoff ≤ time ∨ s.blobs.lookup other = some time := by
    intro other time htime
    by_cases hother : other = hash
    · subst hother
      rw [AList.lookup_insert, Option.some.injEq] at htime
      exact .inl (htime ▸ hnow)
    · rw [AList.lookup_insert_ne hother] at htime
      exact .inr htime
  constructor
  · intro key manifest hmanifest other hother
    exact (AList.mem_insert _).mpr (.inr (h.whole key manifest hmanifest other hother))
  · intro hidle key manifest hmanifest hkey other hother
    exact hkept other (h.visited hidle key manifest hmanifest hkey other hother)
  · intro p task hp
    exact (h.tasks p task hp).mono hkept hold
  · intro other todo hother
    obtain ⟨hlive, time, htime, hlt⟩ := h.unlinking other todo hother
    refine ⟨hlive, time, (AList.lookup_insert_ne ?_).trans htime, hlt⟩
    rintro rfl
    exact absurd (hfresh time htime) (not_le.mpr hlt)

/-- A manifest all of whose blobs are kept is written. -/
theorem Inv.insertAction (h : Inv cutoff s) {key : Text} {manifest : Manifest}
    (hkept : ∀ hash ∈ uniqueBlobs manifest.text, s.Kept cutoff hash) :
    Inv cutoff { s with actions := s.actions.insert key manifest } := by
  have hlookup : ∀ other found, (s.actions.insert key manifest).lookup other = some found →
      found = manifest ∨ s.actions.lookup other = some found := by
    intro other found hfound
    by_cases hother : other = key
    · subst hother
      rw [AList.lookup_insert, Option.some.injEq] at hfound
      exact .inl hfound.symm
    · rw [AList.lookup_insert_ne hother] at hfound
      exact .inr hfound
  constructor
  · intro other found hfound hash hhash
    rcases hlookup other found hfound with rfl | hbefore
    · exact (hkept hash hhash).mem
    · exact h.whole other found hbefore hash hhash
  · intro hidle other found hfound hother hash hhash
    rcases hlookup other found hfound with rfl | hbefore
    · exact hkept hash hhash
    · exact h.visited hidle other found hbefore hother hash hhash
  · exact fun p task hp ↦ (h.tasks p task hp).mono (fun _ hkept ↦ hkept) fun _ _ h ↦ .inr h
  · exact h.unlinking

/-- A manifest is touched. -/
theorem Inv.touch (h : Inv cutoff s) (key : Text) (now : ℕ) : Inv cutoff (s.touch key now) := by
  rw [State.touch]
  split
  · next manifest hmanifest =>
    have hlookup : ∀ other found,
        (s.actions.insert key { manifest with time := now }).lookup other = some found →
          ∃ before, s.actions.lookup other = some before ∧ before.text = found.text := by
      intro other found hfound
      by_cases hother : other = key
      · subst hother
        rw [AList.lookup_insert, Option.some.injEq] at hfound
        exact ⟨manifest, hmanifest, hfound ▸ rfl⟩
      · rw [AList.lookup_insert_ne hother] at hfound
        exact ⟨found, hfound, rfl⟩
    constructor
    · intro other found hfound hash hhash
      obtain ⟨before, hbefore, htext⟩ := hlookup other found hfound
      exact h.whole other before hbefore hash (htext ▸ hhash)
    · intro hidle other found hfound hother hash hhash
      obtain ⟨before, hbefore, htext⟩ := hlookup other found hfound
      exact h.visited hidle other before hbefore hother hash (htext ▸ hhash)
    · exact fun p task hp ↦ (h.tasks p task hp).mono (fun _ hkept ↦ hkept) fun _ _ h ↦ .inr h
    · exact h.unlinking
  · exact h

/-- What is known of a state carries over to one with the same files in which the same blobs are kept. -/
theorem Inv.collect (h : Inv cutoff s) {collector : Collector} {live : Finset Text}
    (hkept : ∀ hash, s.Kept cutoff hash → State.Kept { s with collector, live } cutoff hash)
    (hvisited : ∀ key manifest, s.actions.lookup key = some manifest →
      key ∉ collector.awaited → ∀ hash ∈ uniqueBlobs manifest.text,
        State.Kept { s with collector, live } cutoff hash)
    (hunlinking : ∀ hash todo, collector = .unlinking hash todo →
      hash ∉ live ∧ ∃ time, s.blobs.lookup hash = some time ∧ time < cutoff) :
    Inv cutoff { s with collector, live } where
  whole := h.whole
  visited _ := hvisited
  tasks p task hp := (h.tasks p task hp).mono hkept fun _ _ hlookup ↦ .inr hlookup
  unlinking := hunlinking

/-- The collector removes an action. -/
theorem Inv.eraseAction (h : Inv cutoff s) {key : Text} {todo : List Text}
    (hremoving : s.collector = .removing key todo) :
    Inv cutoff { s with actions := s.actions.erase key, collector := .visiting todo } := by
  have hlookup : ∀ other found, (s.actions.erase key).lookup other = some found →
      other ≠ key ∧ s.actions.lookup other = some found := by
    intro other found hfound
    by_cases hother : other = key
    · rw [hother, AList.lookup_erase] at hfound
      cases hfound
    · rw [AList.lookup_erase_ne hother] at hfound
      exact ⟨hother, hfound⟩
  have hkept : ∀ hash, s.Kept cutoff hash →
      State.Kept { s with actions := s.actions.erase key, collector := .visiting todo } cutoff hash := by
    rintro hash ⟨time, htime, hnew | hlive | hfinished⟩
    · exact ⟨time, htime, .inl hnew⟩
    · exact ⟨time, htime, .inr (.inl hlive)⟩
    · cases hremoving.symm.trans hfinished
  constructor
  · intro other found hfound hash hhash
    exact h.whole other found (hlookup other found hfound).2 hash hhash
  · intro _ other found hfound hother hash hhash
    obtain ⟨hne, hbefore⟩ := hlookup other found hfound
    refine hkept hash (h.visited (fun heq ↦ nomatch hremoving.symm.trans heq) other found hbefore ?_
      hash hhash)
    rw [hremoving]
    exact fun hmem ↦ (List.mem_cons.mp hmem).elim hne hother
  · exact fun p task hp ↦ (h.tasks p task hp).mono hkept fun _ _ h ↦ .inr h
  · exact fun _ _ heq ↦ nomatch heq

/-- The collector removes a blob that is not kept. -/
theorem Inv.eraseBlob (h : Inv cutoff s) {todo : List Text}
    (hunlinking : s.collector = .unlinking hash todo) :
    Inv cutoff { s with blobs := s.blobs.erase hash, collector := .sweeping todo } ∧
      ∀ key manifest, s.actions.lookup key = some manifest → hash ∉ uniqueBlobs manifest.text := by
  obtain ⟨hlive, time, htime, hlt⟩ := h.unlinking hash todo hunlinking
  have hnot : ¬ s.Kept cutoff hash := by
    rintro ⟨time', htime', hnew | hlive' | hfinished⟩
    · rw [htime, Option.some.injEq] at htime'
      omega
    · exact hlive hlive'
    · cases hunlinking.symm.trans hfinished
  have hnamed : ∀ key manifest, s.actions.lookup key = some manifest →
      ∀ other ∈ uniqueBlobs manifest.text, s.Kept cutoff other := by
    intro key manifest hmanifest
    refine h.visited (fun heq ↦ nomatch hunlinking.symm.trans heq) key manifest hmanifest ?_
    rw [hunlinking]
    exact List.not_mem_nil
  have hkept : ∀ other, s.Kept cutoff other →
      State.Kept { s with blobs := s.blobs.erase hash, collector := .sweeping todo } cutoff other := by
    intro other hother
    have hne : other ≠ hash := fun heq ↦ hnot (heq ▸ hother)
    obtain ⟨time', htime', hnew | hlive' | hfinished⟩ := hother
    · exact ⟨time', (AList.lookup_erase_ne hne).trans htime', .inl hnew⟩
    · exact ⟨time', (AList.lookup_erase_ne hne).trans htime', .inr (.inl hlive')⟩
    · cases hunlinking.symm.trans hfinished
  refine ⟨⟨?_, ?_, ?_, fun _ _ heq ↦ nomatch heq⟩, fun key manifest hmanifest hmem ↦
    hnot (hnamed key manifest hmanifest hash hmem)⟩
  · intro key manifest hmanifest other hother
    exact (hkept other (hnamed key manifest hmanifest other hother)).mem
  · intro _ key manifest hmanifest _ other hother
    exact hkept other (hnamed key manifest hmanifest other hother)
  · intro p task hp
    refine (h.tasks p task hp).mono hkept fun other time' hother ↦ .inr ?_
    by_cases hne : other = hash
    · rw [hne, AList.lookup_erase] at hother
      cases hother
    · rwa [AList.lookup_erase_ne hne] at hother

/-! ### Publishers' steps -/

/-- A publisher looks for a blob, and finds it only where it is kept. -/
theorem Inv.lookBlob (h : Inv cutoff s) {p : ℕ} (hcareful : careful cutoff s (.lookBlob p hash))
    (hstep : stepLookBlob s p hash = some s') : Inv cutoff s' := by
  rw [stepLookBlob] at hstep
  split at hstep
  · next task htask =>
    have hok := h.tasks p task htask
    split_ifs at hstep with hnone
    · cases hstep
      refine h.setTask p fun task' htask' ↦ ?_
      cases htask'
      refine ⟨hok.brings, hok.stored, List.forall_mem_cons.mpr ⟨fun time htime ↦ ?_, hok.missing⟩,
        hok.decided⟩
      cases hnone.symm.trans htime
    · cases hstep
      obtain ⟨time, htime⟩ := Option.ne_none_iff_exists'.mp hnone
      have hkept : s.Kept cutoff hash := by
        refine ⟨time, htime, ?_⟩
        rw [careful, htime] at hcareful
        simpa [or_assoc] using hcareful
      refine h.setTask p fun task' htask' ↦ ?_
      cases htask'
      refine ⟨hok.brings, List.forall_mem_cons.mpr ⟨hkept, hok.stored⟩, hok.missing,
        fun text htext other hother ↦ List.mem_cons_of_mem _ (hok.decided text htext other hother)⟩
  · cases hstep

/-- A publisher stores a blob that it found missing, which the collector is not about to remove. -/
theorem Inv.stepWriteBlob (h : Inv cutoff s) {p now : ℕ}
    (hstep : Collection.stepWriteBlob cutoff s p hash now = some s') : Inv cutoff s' := by
  rw [Collection.stepWriteBlob] at hstep
  split at hstep
  · next task htask =>
    split_ifs at hstep with hcond
    cases hstep
    obtain ⟨hmissing, hnow⟩ := hcond
    have hwritten := h.writeBlob hnow ((h.tasks p task htask).missing hash hmissing)
    have hok := hwritten.tasks p task htask
    refine hwritten.setTask p fun task' htask' ↦ ?_
    cases htask'
    refine ⟨hok.brings, List.forall_mem_cons.mpr ⟨?_, hok.stored⟩, hok.missing,
      fun text htext other hother ↦ List.mem_cons_of_mem _ (hok.decided text htext other hother)⟩
    exact ⟨now, AList.lookup_insert _, .inl hnow⟩
  · cases hstep

/-- A publisher decides to write only the manifest it brings, all of whose blobs it found or stored. -/
theorem Inv.decide (h : Inv cutoff s) {p : ℕ} (hstep : stepDecide s p = some s') : Inv cutoff s' := by
  rw [stepDecide] at hstep
  split at hstep
  · next task htask =>
    have hok := h.tasks p task htask
    split_ifs at hstep with hstored
    cases hstep
    refine h.setTask p fun task' htask' ↦ ?_
    cases htask'
    refine ⟨hok.brings, hok.stored, hok.missing, fun text htext ↦ ?_⟩
    have hbrought := text_of_decision (Option.some.inj htext)
    rw [hok.brings, Option.some.injEq] at hbrought
    exact hbrought ▸ hstored
  · cases hstep

/-- A publisher writes or touches a manifest. -/
theorem Inv.act (h : Inv cutoff s) {p now : ℕ} (hstep : stepAct cutoff s p now = some s') :
    Inv cutoff s' := by
  rw [stepAct] at hstep
  split at hstep
  · next task htask =>
    have hok := h.tasks p task htask
    split at hstep
    · next decision hdecision =>
      split_ifs at hstep
      cases hstep
      have hacted : Inv cutoff (s.act task.key now decision) := by
        cases decision with
        | leave => exact h
        | touch => exact h.touch task.key now
        | write text =>
          exact h.insertAction fun hash hhash ↦ hok.stored hash (hok.decided text hdecision hash hhash)
      exact hacted.setTask p fun _ htask' ↦ nomatch htask'
    · cases hstep
  · cases hstep

/-! ### The collector's steps -/

/-- Blobs stay kept while the collector goes on, unless it was finished. -/
theorem State.Kept.collect (h : s.Kept cutoff hash) (collector : Collector) (live : Finset Text)
    (hlive : s.live ⊆ live) (hfinished : s.collector = .finished → collector = .finished) :
    State.Kept { s with collector, live } cutoff hash := by
  obtain ⟨time, htime, hnew | hmem | hdone⟩ := h
  · exact ⟨time, htime, .inl hnew⟩
  · exact ⟨time, htime, .inr (.inl (hlive hmem))⟩
  · exact ⟨time, htime, .inr (.inr (hfinished hdone))⟩

/-- The collector goes on without changing files or what it has taken down: it may stop awaiting actions
that have no manifest, and be about to remove a blob that is old and was not taken down. -/
theorem Inv.goOn (h : Inv cutoff s) {collector : Collector} (hidle : s.collector ≠ .idle)
    (hfinished : s.collector ≠ .finished)
    (hawaited : ∀ key manifest, s.actions.lookup key = some manifest →
      key ∈ s.collector.awaited → key ∈ collector.awaited)
    (hunlinking : ∀ hash todo, collector = .unlinking hash todo →
      hash ∉ s.live ∧ ∃ time, s.blobs.lookup hash = some time ∧ time < cutoff) :
    Inv cutoff { s with collector } := by
  have hkept : ∀ hash, s.Kept cutoff hash →
      State.Kept { s with collector, live := s.live } cutoff hash :=
    fun hash hhash ↦ hhash.collect _ _ (Finset.Subset.refl _) fun h ↦ absurd h hfinished
  refine h.collect hkept (fun key manifest hmanifest hkey hash hhash ↦ ?_) hunlinking
  exact hkept hash (h.visited hidle key manifest hmanifest
    (fun hmem ↦ hkey (hawaited key manifest hmanifest hmem)) hash hhash)

theorem Inv.lookAction (h : Inv cutoff s) {oldDirectory : Bool}
    (hstep : stepLookAction cutoff s oldDirectory = some s') : Inv cutoff s' := by
  rw [stepLookAction] at hstep
  split at hstep
  · next key todo hvisiting =>
    have hidle : s.collector ≠ .idle := fun heq ↦ nomatch hvisiting.symm.trans heq
    have hfinished : s.collector ≠ .finished := fun heq ↦ nomatch hvisiting.symm.trans heq
    have hremoving : Inv cutoff { s with collector := .removing key todo } :=
      h.goOn hidle hfinished (fun _ _ _ hmem ↦ by rwa [hvisiting] at hmem) fun _ _ heq ↦ nomatch heq
    split at hstep
    · split_ifs at hstep
      · cases hstep
        exact hremoving
      · cases hstep
        exact h.goOn hidle hfinished (fun _ _ _ hmem ↦ by rwa [hvisiting] at hmem)
          fun _ _ heq ↦ nomatch heq
    · next hnone =>
      split_ifs at hstep
      · cases hstep
        exact hremoving
      · cases hstep
        refine h.goOn hidle hfinished (fun other manifest hmanifest hmem ↦ ?_)
          fun _ _ heq ↦ nomatch heq
        rw [hvisiting] at hmem
        refine (List.mem_cons.mp hmem).resolve_left ?_
        rintro rfl
        cases hnone.symm.trans hmanifest
  · cases hstep

/-- The collector removes an action, or takes down the blobs its manifest names. -/
theorem Inv.handleAction (h : Inv cutoff s) (hstep : stepHandleAction s = some s') :
    Inv cutoff s' := by
  rw [stepHandleAction] at hstep
  split at hstep
  · next key todo hremoving =>
    cases hstep
    exact h.eraseAction hremoving
  · next key todo hreading =>
    cases hstep
    have hfinished : s.collector ≠ .finished := fun heq ↦ nomatch hreading.symm.trans heq
    have hidle : s.collector ≠ .idle := fun heq ↦ nomatch hreading.symm.trans heq
    have hkept := fun hash (hhash : s.Kept cutoff hash) ↦
      hhash.collect (.visiting todo) (s.live ∪ (s.actions.lookup key).elim ∅
        fun manifest ↦ actionLiveBlobs manifest.text) Finset.subset_union_left
          fun heq ↦ absurd heq hfinished
    refine h.collect hkept (fun other manifest hmanifest hother hash hhash ↦ ?_)
      fun _ _ heq ↦ nomatch heq
    by_cases hkey : other = key
    · subst hkey
      obtain ⟨time, htime⟩ := Option.isSome_iff_exists.mp
        (AList.lookup_isSome.mpr (h.whole other manifest hmanifest hash hhash))
      refine ⟨time, htime, .inr (.inl (Finset.mem_union_right _ ?_))⟩
      rw [hmanifest]
      exact mem_actionLiveBlobs.mpr hhash
    · refine hkept hash (h.visited hidle other manifest hmanifest ?_ hash hhash)
      rw [hreading]
      exact fun hmem ↦ (List.mem_cons.mp hmem).elim hkey hother
  · cases hstep

theorem Inv.checkBlob (h : Inv cutoff s) (hstep : stepCheckBlob cutoff s = some s') :
    Inv cutoff s' := by
  rw [stepCheckBlob] at hstep
  split at hstep
  · next hash todo hsweeping =>
    have hidle : s.collector ≠ .idle := fun heq ↦ nomatch hsweeping.symm.trans heq
    have hfinished : s.collector ≠ .finished := fun heq ↦ nomatch hsweeping.symm.trans heq
    have hawaited : ∀ key, key ∉ s.collector.awaited := by
      intro key
      rw [hsweeping]
      exact List.not_mem_nil
    split_ifs at hstep with hold
    · cases hstep
      refine h.goOn hidle hfinished (fun key _ _ hmem ↦ absurd hmem (hawaited key)) ?_
      intro other todo' heq
      cases heq
      obtain ⟨⟨time, htime, hlt⟩, hlive⟩ := hold
      exact ⟨hlive, time, htime, hlt⟩
    · cases hstep
      exact h.goOn hidle hfinished (fun key _ _ hmem ↦ absurd hmem (hawaited key))
        fun _ _ heq ↦ nomatch heq
  · cases hstep

/-- Every step keeps the invariant. -/
theorem Inv.step (h : Inv cutoff s) {event : Event} (hcareful : careful cutoff s event)
    (hstep : step cutoff s event = some s') : Inv cutoff s' := by
  cases event with
  | start p key event =>
    rw [Collection.step] at hstep
    split at hstep
    · next text htext =>
      split_ifs at hstep
      cases hstep
      refine h.setTask p fun task' htask' ↦ ?_
      cases htask'
      exact ⟨htext, fun _ hmem ↦ absurd hmem List.not_mem_nil,
        fun _ hmem ↦ absurd hmem List.not_mem_nil, fun _ heq ↦ nomatch heq⟩
    · cases hstep
  | lookBlob p hash => exact h.lookBlob hcareful hstep
  | writeBlob p hash now => exact h.stepWriteBlob hstep
  | decide p => exact h.decide hstep
  | act p now => exact h.act hstep
  | stop p =>
    cases hstep
    exact h.setTask p fun _ htask' ↦ nomatch htask'
  | touch key now =>
    rw [Collection.step] at hstep
    split_ifs at hstep
    cases hstep
    exact h.touch key now
  | list =>
    rw [Collection.step] at hstep
    split_ifs at hstep with hidle
    cases hstep
    refine h.collect (fun hash hhash ↦ hhash.collect _ _ (Finset.Subset.refl _) fun heq ↦
      nomatch hidle.symm.trans heq) (fun key manifest hmanifest hkey ↦ ?_) fun _ _ heq ↦ nomatch heq
    exact absurd (AList.mem_keys.mp (AList.lookup_isSome.mp (hmanifest ▸ rfl))) hkey
  | lookAction oldDirectory => exact h.lookAction hstep
  | handleAction => exact h.handleAction hstep
  | sweep =>
    rw [Collection.step] at hstep
    split_ifs at hstep with hvisited
    cases hstep
    refine h.goOn (fun heq ↦ nomatch hvisited.symm.trans heq)
      (fun heq ↦ nomatch hvisited.symm.trans heq) (fun _ _ _ hmem ↦ ?_) fun _ _ heq ↦ nomatch heq
    rw [hvisited] at hmem
    exact absurd hmem List.not_mem_nil
  | checkBlob => exact h.checkBlob hstep
  | unlinkBlob =>
    rw [Collection.step] at hstep
    split at hstep
    · next hash todo hunlinking =>
      cases hstep
      exact (h.eraseBlob hunlinking).1
    · cases hstep
  | finish =>
    rw [Collection.step] at hstep
    split_ifs at hstep
    cases hstep
    refine h.collect (fun hash hhash ↦ hhash.collect _ _ (Finset.Subset.refl _) fun _ ↦ rfl)
      (fun key manifest hmanifest _ hash hhash ↦ ?_) fun _ _ heq ↦ nomatch heq
    obtain ⟨time, htime⟩ := Option.isSome_iff_exists.mp
      (AList.lookup_isSome.mpr (h.whole key manifest hmanifest hash hhash))
    exact ⟨time, htime, .inr (.inr rfl)⟩

/-- Only the collector removes blobs. -/
theorem mem_blobs_of_step {event : Event} (hstep : step cutoff s event = some s')
    (hevent : event ≠ .unlinkBlob) (hmem : hash ∈ s.blobs) : hash ∈ s'.blobs := by
  have htouch : ∀ (key : Text) (now : ℕ), (s.touch key now).blobs = s.blobs := by
    intro key now
    rw [State.touch]
    split <;> rfl
  cases event with
  | start p key event =>
    rw [step] at hstep
    split at hstep
    · split_ifs at hstep
      cases hstep
      exact hmem
    · cases hstep
  | lookBlob p hash =>
    have hstep' : stepLookBlob s p hash = some s' := hstep
    rw [stepLookBlob] at hstep'
    split at hstep'
    · split_ifs at hstep'
      · cases hstep'
        exact hmem
      · cases hstep'
        exact hmem
    · cases hstep'
  | writeBlob p other now =>
    have hstep' : stepWriteBlob cutoff s p other now = some s' := hstep
    rw [stepWriteBlob] at hstep'
    split at hstep'
    · split_ifs at hstep'
      cases hstep'
      exact (AList.mem_insert _).mpr (.inr hmem)
    · cases hstep'
  | decide p =>
    have hstep' : stepDecide s p = some s' := hstep
    rw [stepDecide] at hstep'
    split at hstep'
    · split_ifs at hstep'
      cases hstep'
      exact hmem
    · cases hstep'
  | act p now =>
    have hstep' : stepAct cutoff s p now = some s' := hstep
    rw [stepAct] at hstep'
    split at hstep'
    · next task _ =>
      split at hstep'
      · next decision _ =>
        split_ifs at hstep'
        cases hstep'
        cases decision with
        | leave => exact hmem
        | write text => exact hmem
        | touch =>
          show hash ∈ (s.touch task.key now).blobs
          rwa [htouch]
      · cases hstep'
    · cases hstep'
  | stop p =>
    cases hstep
    exact hmem
  | touch key now =>
    rw [step] at hstep
    split_ifs at hstep
    cases hstep
    rwa [htouch]
  | list =>
    rw [step] at hstep
    split_ifs at hstep
    cases hstep
    exact hmem
  | lookAction oldDirectory =>
    have hstep' : stepLookAction cutoff s oldDirectory = some s' := hstep
    rw [stepLookAction] at hstep'
    split at hstep'
    · split at hstep'
      · split_ifs at hstep'
        · cases hstep'
          exact hmem
        · cases hstep'
          exact hmem
      · split_ifs at hstep'
        · cases hstep'
          exact hmem
        · cases hstep'
          exact hmem
    · cases hstep'
  | handleAction =>
    have hstep' : stepHandleAction s = some s' := hstep
    rw [stepHandleAction] at hstep'
    split at hstep'
    · cases hstep'
      exact hmem
    · cases hstep'
      exact hmem
    · cases hstep'
  | sweep =>
    rw [step] at hstep
    split_ifs at hstep
    cases hstep
    exact hmem
  | checkBlob =>
    have hstep' : stepCheckBlob cutoff s = some s' := hstep
    rw [stepCheckBlob] at hstep'
    split at hstep'
    · split_ifs at hstep'
      · cases hstep'
        exact hmem
      · cases hstep'
        exact hmem
    · cases hstep'
  | unlinkBlob => exact absurd rfl hevent
  | finish =>
    rw [step] at hstep
    split_ifs at hstep
    cases hstep
    exact hmem

/-! ### Whole runs -/

/-- The runs of careful publishers. -/
def carefulMachine (cutoff : ℕ) (start : WholeCache) : Machine State Event :=
  (machine cutoff start).guard fun s event ↦ careful cutoff s event

theorem inv_of_reachable {start : WholeCache} (h : (carefulMachine cutoff start).Reachable s) :
    Inv cutoff s := by
  refine h.invariant ?_ fun s event s' _ hinv hstep ↦ ?_
  · exact {
      whole := start.whole
      visited := fun hidle ↦ absurd rfl hidle
      tasks := fun _ _ htask ↦ nomatch htask
      unlinking := fun _ _ heq ↦ nomatch heq }
  · obtain ⟨hcareful, hstep⟩ := Machine.guard_step.mp hstep
    exact hinv.step hcareful hstep

/-- A cache with one old blob and no action. -/
def oldBlobCache : WholeCache where
  actions := ∅
  blobs := AList.insert (List.replicate 64 'a') 0 ∅
  whole _ _ h := nomatch h

/-- The build of a theory whose files are that blob. -/
def oldBlobText : Text := (buildOf 'a' (some second)).text []

/-- A publisher finds the blob, the collector removes it, and the publisher writes its manifest. -/
def lateRun : List Event :=
  [.list, .start 0 [] (.putAction oldBlobText), .lookBlob 0 (List.replicate 64 'a'), .decide 0, .sweep,
    .checkBlob, .unlinkBlob, .act 0 1, .finish]

theorem lateRun_isSome : ((machine 1 oldBlobCache).run (machine 1 oldBlobCache).initial lateRun).isSome := by
  decide +kernel

/-- A publisher stores a blob that is missing, and then its manifest, before the old one is removed. -/
def carefulRun : List Event :=
  [.list, .start 0 [] (.putAction ((buildOf 'b' (some second)).text [])),
    .lookBlob 0 (List.replicate 64 'b'), .sweep, .writeBlob 0 (List.replicate 64 'b') 1, .checkBlob,
    .decide 0, .act 0 1]

theorem carefulRun_isSome :
    ((carefulMachine 1 oldBlobCache).run (carefulMachine 1 oldBlobCache).initial carefulRun).isSome := by
  decide +kernel

end Collection

end Holbuild.Cache
