import Holbuild.Library.Lines
import Holbuild.Library.SortedIndex
import Holbuild.Library.UseCounts
import Mathlib.Algebra.BigOperators.Group.Finset.Piecewise
import Mathlib.Algebra.Order.Ring.Int

/-!
# The cap on a worker's caches

`build_exec.sml`, `enforce_worker_cache_cap`. Before an action the worker's caches are swept: families go,
the least recently used first, until the bytes left are within the cap less its reserve. A family is a
theory's checkpoints, a family of the checkpoint store, a factory module, a toolchain, an entry of the
local cache with the blobs that no other entry names, the blobs that no entry names at all, or what
interrupted removals of toolchains left.

Removals may fail. Where every eviction removes all of what it goes for or nothing (`Clean`), the sweep
accounts for what it removed and leaves no blob behind that only evicted entries named
(`accounted_of_clean`). A removal that fails after another of the same family has succeeded breaks both:
the eviction counts nothing and gives up on the blobs that are left (`half_evicted_entry`).

Scope. The caches are read without error and change only by the sweep. A family of checkpoints and a tree
are each one place with its bytes. The names that manifests give blobs are names of files.
-/

set_option autoImplicit false
set_option relaxedAutoImplicit false

namespace Holbuild.Cache.WorkerCap

open Library

/-! ### Caches -/

/-- An entry of the local cache: its directory, its manifest's time and the blobs it names. -/
structure Entry where
  dir : Text
  mtime : ℤ
  blobs : List Text
deriving DecidableEq

/-- What a removal goes for. A tree is a family of checkpoints or of the store, a factory module, a
toolchain or what is left of one. -/
inductive Place
  | entry (dir : Text)
  | blob (hash : Text)
  | tree (path : Text)
deriving DecidableEq

/-- The bytes of what is there. -/
abbrev Disk := Place → Option ℕ

/-- What a worker keeps between actions. -/
structure Caches where
  disk : Disk
  /-- Where something is. -/
  places : Finset Place
  mem_places : ∀ place, (disk place).isSome → place ∈ places
  /-- Bytes that are counted and belong to no family. -/
  loose : ℕ
  trash : List Text
  checkpoints : List (ℤ × Text)
  store : List (ℤ × Text)
  modules : List (ℤ × Text)
  toolchains : List (ℤ × Text)
  entries : List Entry
  blobs : List Text
  dirs_nodup : (entries.map Entry.dir).Nodup
  blobs_nodup : ∀ entry ∈ entries, entry.blobs.Nodup
  entries_there : ∀ entry ∈ entries, (disk (.entry entry.dir)).isSome
  blobs_nodup' : blobs.Nodup

/-- The bytes at the places. -/
def usage (places : Finset Place) (disk : Disk) : ℕ := ∑ place ∈ places, (disk place).getD 0

def workerCacheBytes (caches : Caches) : ℕ := caches.loose + usage caches.places caches.disk

/-! ### Removals -/

/-- What becomes of something that is removed: it goes, or its removal fails and leaves some bytes. -/
inductive Fate
  | gone
  | stuck (left : ℕ)

/-- What the sweep meets: the fate of what it removes, and the trees another process uses. -/
structure World where
  fate : Place → Fate
  pinned : Text → Bool

section Removals

variable (world : World)

/-- `HolbuildCache.remove_tree`: what is left, and whether it went well. What is not there counts as
removed. -/
def removeTree (disk : Disk) (place : Place) : Disk × Bool :=
  match disk place, world.fate place with
  | none, _ => (disk, true)
  | some _, .gone => (Function.update disk place none, true)
  | some bytes, .stuck left => (Function.update disk place (some (min left bytes)), false)

/-- The bytes removed, unless a removal raises. -/
def removePaths (disk : Disk) : List Place → Disk × Option ℕ
  | [] => (disk, some 0)
  | place :: rest =>
    let removed := removeTree world disk place
    if removed.2 then
      let others := removePaths removed.1 rest
      (others.1, others.2.map fun freed ↦ (disk place).getD 0 + freed)
    else (removed.1, none)

/-- Removals whose errors are ignored: the bytes of what is gone. -/
def removeTrash (disk : Disk) : List Text → Disk × ℕ
  | [] => (disk, 0)
  | path :: rest =>
    let removed := removeTree world disk (.tree path)
    let others := removeTrash removed.1 rest
    (others.1, (if removed.2 then (disk (.tree path)).getD 0 else 0) + others.2)

end Removals

/-! ### Families -/

/-- What an eviction goes for. -/
inductive Kind
  | trash (paths : List Text)
  | tree (path : Text)
  | toolchain (path : Text)
  | orphans (hashes : List Text)
  | entry (entry : Entry)

structure Family where
  mtime : ℤ
  kind : Kind

/-- What the families share while they are evicted: the disk, the uses of the blobs, and, as a record of
what was done, the blobs whose last use was given up. -/
structure State where
  disk : Disk
  users : Text → ℕ
  released : List Text

/-- The uses of each blob. -/
def countBlobs (entries : List Entry) : Text → ℕ := countUses (entries.map Entry.blobs)

/-- The blobs no entry names, and the entries. -/
def localCacheFamilies (caches : Caches) : List Family :=
  ⟨0, .orphans (caches.blobs.filter fun hash ↦ countBlobs caches.entries hash = 0)⟩ ::
    caches.entries.map fun entry ↦ ⟨entry.mtime, .entry entry⟩

def treeFamilies (trees : List (ℤ × Text)) : List Family :=
  trees.map fun (mtime, path) ↦ ⟨mtime, .tree path⟩

def toolchainCacheFamilies (caches : Caches) : List Family :=
  caches.toolchains.map fun (mtime, path) ↦ ⟨mtime, .toolchain path⟩

/-- The families of the caches. -/
def families (caches : Caches) : List Family :=
  ⟨0, .trash caches.trash⟩ :: treeFamilies caches.checkpoints ++ treeFamilies caches.store ++
    treeFamilies caches.modules ++ toolchainCacheFamilies caches ++ localCacheFamilies caches

/-- Oldest first. -/
def sortByMtimeAscending (families : List Family) : List Family :=
  sortPairs (fun a b ↦ decide (a.mtime ≤ b.mtime)) families

section Sweep

variable (world : World)

/-- Evicts an entry, and then the blobs whose last use it was. -/
def evictEntry (entry : Entry) (s : State) : State × Option ℕ :=
  let removed := removePaths world s.disk [.entry entry.dir]
  match removed.2 with
  | none => ({ s with disk := removed.1 }, none)
  | some freed =>
    let (users, hashes) := release s.users entry.blobs
    let others := removePaths world removed.1 (hashes.map .blob)
    (⟨others.1, users, s.released ++ hashes⟩, others.2.map fun more ↦ freed + more)

/-- The bytes that an eviction counts, or nothing where it kept the family or raised. -/
def evict (s : State) : Kind → State × Option ℕ
  | .trash paths =>
    let removed := removeTrash world s.disk paths
    ({ s with disk := removed.1 }, some removed.2)
  | .tree path =>
    if world.pinned path then (s, none)
    else
      let removed := removeTree world s.disk (.tree path)
      ({ s with disk := removed.1 },
        if removed.2 then some ((s.disk (.tree path)).getD 0) else none)
  | .toolchain path =>
    if world.pinned path then (s, none)
    else
      -- The toolchain is renamed first, and what cannot be removed stays under its new name.
      let removed := removeTree world s.disk (.tree path)
      ({ s with disk := removed.1 }, some ((s.disk (.tree path)).getD 0))
  | .orphans hashes =>
    let removed := removePaths world s.disk (hashes.map .blob)
    ({ s with disk := removed.1 }, removed.2)
  | .entry entry => evictEntry world entry s

/-- An eviction of a sweep, with the total and the state it found and the state it left. -/
structure Attempt where
  family : Family
  total : ℤ
  before : State
  after : State

structure Swept where
  total : ℤ
  state : State
  attempts : List Attempt

/-- Evicts families until the total is within the target. -/
def sweep (target : ℤ) : ℤ → State → List Family → Swept
  | total, s, [] => ⟨total, s, []⟩
  | total, s, family :: rest =>
    if total ≤ target then ⟨total, s, []⟩
    else
      let evicted := evict world s family.kind
      let swept := sweep target (total - (evicted.2.getD 0 : ℕ)) evicted.1 rest
      ⟨swept.total, swept.state, ⟨family, total, s, evicted.1⟩ :: swept.attempts⟩

/-- The caches before the sweep. -/
def start (caches : Caches) : State := ⟨caches.disk, countBlobs caches.entries, []⟩

/-- Evicts the least recently used families until the caches leave `reserve` of room under `limit`. -/
def enforceWorkerCacheCap (caches : Caches) (limit reserve : ℤ) : Swept :=
  sweep world (limit - reserve) (workerCacheBytes caches) (start caches)
    (sortByMtimeAscending (families caches))

end Sweep

/-! ### Accounts -/

/-- The bytes that a sweep has removed. -/
def removedBytes (caches : Caches) (disk : Disk) : ℤ :=
  (usage caches.places caches.disk : ℤ) - usage caches.places disk

/-- What a sweep to a target has done, as it should. -/
structure Accounted (caches : Caches) (target : ℤ) (swept : Swept) : Prop where
  /-- The evicted families are the oldest ones, in the order of their age. -/
  order : ∃ rest, ((swept.attempts.map Attempt.family) ++ rest).Perm (families caches) ∧
    ((swept.attempts.map Attempt.family) ++ rest).Pairwise (fun a b ↦ a.mtime ≤ b.mtime) ∧
    (swept.total ≤ target ∨ rest = [])
  /-- No family is evicted once the total is within the target. -/
  above : ∀ attempt ∈ swept.attempts, target < attempt.total
  within : (workerCacheBytes caches : ℤ) ≤ target → swept.attempts = []
  /-- An entry that is still there has its blobs. -/
  kept : ∀ entry ∈ caches.entries, (swept.state.disk (.entry entry.dir)).isSome →
    ∀ hash ∈ entry.blobs, swept.state.disk (.blob hash) = caches.disk (.blob hash)
  /-- A blob that only evicted entries named is gone. -/
  collected : ∀ hash, (∃ entry ∈ caches.entries, hash ∈ entry.blobs) →
    (∀ entry ∈ caches.entries, hash ∈ entry.blobs → swept.state.disk (.entry entry.dir) = none) →
    swept.state.disk (.blob hash) = none
  once : swept.state.released.Nodup
  /-- The running total is the initial one less what was removed, before each eviction and at the
  end. -/
  totals : ∀ attempt ∈ swept.attempts,
    attempt.total = workerCacheBytes caches - removedBytes caches attempt.before.disk
  total : swept.total = workerCacheBytes caches - removedBytes caches swept.state.disk

/-- A removal that takes all of what is there or nothing. -/
def AllOrNothing (world : World) (disk : Disk) (place : Place) : Prop :=
  world.fate place = .gone ∨
    ∃ left, world.fate place = .stuck left ∧ ∀ bytes, disk place = some bytes → bytes ≤ left

/-- Removals one after the other of which all go well, or the first fails and takes nothing. -/
def AllOrNothings (world : World) (disk : Disk) (places : List Place) : Prop :=
  (∀ place ∈ places, (disk place).isSome → world.fate place = .gone) ∨
    ∃ first rest, places = first :: rest ∧ (disk first).isSome ∧ world.fate first ≠ .gone ∧
      AllOrNothing world disk first

/-- An eviction that removes all of what it goes for or nothing. -/
def Clean (world : World) (s : State) : Kind → Prop
  | .trash paths => ∀ path ∈ paths, AllOrNothing world s.disk (.tree path)
  | .tree path => world.pinned path = true ∨ AllOrNothing world s.disk (.tree path)
  | .toolchain path =>
    world.pinned path = true ∨ world.fate (.tree path) = .gone ∨ world.fate (.tree path) = .stuck 0
  | .orphans hashes => AllOrNothings world s.disk (hashes.map .blob)
  | .entry entry =>
    (world.fate (.entry entry.dir) = .gone ∧ ∀ hash ∈ entry.blobs, s.users hash = 1 →
      (s.disk (.blob hash)).isSome → world.fate (.blob hash) = .gone) ∨
    (world.fate (.entry entry.dir) ≠ .gone ∧ AllOrNothing world s.disk (.entry entry.dir))

/-! ### What a removal does -/

section Removing

variable {world : World} {disk : Disk} {place : Place}

theorem removeTree_of_ne {other : Place} (h : other ≠ place) :
    (removeTree world disk place).1 other = disk other := by
  rw [removeTree]
  split
  · rfl
  · exact Function.update_of_ne h _ _
  · exact Function.update_of_ne h _ _

/-- A removal that goes well leaves nothing. -/
theorem removeTree_self (h : (removeTree world disk place).2 = true) :
    (removeTree world disk place).1 place = none := by
  rw [removeTree] at h ⊢
  split at h
  · next hnone => exact hnone
  · exact Function.update_self _ _ _
  · exact absurd h nofun

/-- A removal that fails leaves something. -/
theorem removeTree_stuck (h : (removeTree world disk place).2 = false) :
    ((removeTree world disk place).1 place).isSome ∧ world.fate place ≠ .gone ∧
      (disk place).isSome := by
  rw [removeTree] at h ⊢
  split at h
  · exact absurd h nofun
  · exact absurd h nofun
  · next bytes left hsome hstuck =>
    simp only [hsome, hstuck, Function.update_self]
    exact ⟨rfl, nofun, rfl⟩

theorem removeTree_isSome {other : Place} (h : ((removeTree world disk place).1 other).isSome) :
    (disk other).isSome := by
  by_cases heq : other = place
  · subst heq
    cases hresult : (removeTree world disk other).2 with
    | true =>
      rw [removeTree_self hresult] at h
      exact absurd h nofun
    | false => exact (removeTree_stuck hresult).2.2
  · rwa [removeTree_of_ne heq] at h

/-- What is there and gone when removed is removed well. -/
theorem removeTree_gone (h : (disk place).isSome → world.fate place = .gone) :
    (removeTree world disk place).2 = true := by
  by_contra hstuck
  obtain ⟨-, hfate, hsome⟩ := removeTree_stuck (Bool.eq_false_iff.mpr hstuck)
  exact hfate (h hsome)

/-- What is there and does not go makes its removal fail. -/
theorem removeTree_fails (hsome : (disk place).isSome) (hfate : world.fate place ≠ .gone) :
    (removeTree world disk place).2 = false := by
  rw [removeTree]
  split
  · next hnone =>
    rw [hnone] at hsome
    exact absurd hsome nofun
  · next hgone => exact absurd hgone hfate
  · rfl

/-- A removal that fails and takes all or nothing changes nothing. -/
theorem removeTree_nothing (hresult : (removeTree world disk place).2 = false)
    (h : AllOrNothing world disk place) : (removeTree world disk place).1 = disk := by
  obtain ⟨-, hfate, hsome⟩ := removeTree_stuck hresult
  obtain ⟨left, hstuck, hbytes⟩ := h.resolve_left hfate
  obtain ⟨bytes, hdisk⟩ := Option.isSome_iff_exists.mp hsome
  rw [removeTree, hdisk, hstuck]
  show Function.update disk place (some (min left bytes)) = disk
  rw [Nat.min_eq_right (hbytes bytes hdisk), ← hdisk, Function.update_eq_self]

variable {places : Finset Place}

theorem usage_update (hplace : place ∈ places) (found : Option ℕ) :
    usage places (Function.update disk place found) + (disk place).getD 0 =
      usage places disk + found.getD 0 := by
  have hupdate : (fun p ↦ (Function.update disk place found p).getD 0) =
      Function.update (fun p ↦ (disk p).getD 0) place (found.getD 0) := by
    ext p
    by_cases heq : p = place
    · subst heq
      rw [Function.update_self, Function.update_self]
    · rw [Function.update_of_ne heq, Function.update_of_ne heq]
  have hsum := Finset.sum_eq_add_sum_sdiff_singleton_of_mem hplace fun p ↦ (disk p).getD 0
  rw [usage, usage, hupdate, Finset.sum_update_of_mem hplace, hsum]
  omega

/-- What a removal took where it went well. -/
theorem usage_removeTree (hplaces : ∀ p, (disk p).isSome → p ∈ places)
    (hresult : (removeTree world disk place).2 = true) :
    usage places (removeTree world disk place).1 + (disk place).getD 0 = usage places disk := by
  rw [removeTree] at hresult ⊢
  split at hresult
  · next hnone =>
    rw [hnone]
    rfl
  · next hsome _ => exact usage_update (hplaces place (hsome ▸ rfl)) none
  · exact absurd hresult nofun

theorem removePaths_of_notMem {paths : List Place} : ∀ {disk : Disk} {other : Place}, other ∉ paths →
    (removePaths world disk paths).1 other = disk other := by
  induction paths with
  | nil => exact fun _ ↦ rfl
  | cons path rest ih =>
    intro disk other hother
    obtain ⟨hpath, hrest⟩ := List.ne_and_not_mem_of_not_mem_cons hother
    rw [removePaths]
    dsimp only
    split_ifs
    · show (removePaths world (removeTree world disk path).1 rest).1 other = _
      rw [ih hrest, removeTree_of_ne hpath]
    · exact removeTree_of_ne hpath

theorem removePaths_isSome {paths : List Place} : ∀ {disk : Disk} {other : Place},
    ((removePaths world disk paths).1 other).isSome → (disk other).isSome := by
  induction paths with
  | nil => exact fun h ↦ h
  | cons path rest ih =>
    intro disk other h
    rw [removePaths] at h
    dsimp only at h
    split_ifs at h
    · exact removeTree_isSome (ih h)
    · exact removeTree_isSome h

/-- Removals that all go well leave nothing, and count what they took. -/
theorem removePaths_some {paths : List Place} : ∀ {disk : Disk} {freed : ℕ},
    (∀ p, (disk p).isSome → p ∈ places) → (removePaths world disk paths).2 = some freed →
    (∀ path ∈ paths, (removePaths world disk paths).1 path = none) ∧
      usage places (removePaths world disk paths).1 + freed = usage places disk := by
  induction paths with
  | nil =>
    intro disk freed _ h
    obtain rfl := Option.some.inj h
    exact ⟨fun _ hpath ↦ absurd hpath List.not_mem_nil, rfl⟩
  | cons path rest ih =>
    intro disk freed hplaces h
    rw [removePaths] at h ⊢
    dsimp only at h ⊢
    split_ifs at h ⊢ with hresult
    obtain ⟨more, hmore, rfl⟩ := Option.map_eq_some_iff.mp h
    have hplaces' : ∀ p, ((removeTree world disk path).1 p).isSome → p ∈ places :=
      fun p hp ↦ hplaces p (removeTree_isSome hp)
    obtain ⟨hgone, husage⟩ := ih hplaces' hmore
    have hfirst := usage_removeTree hplaces hresult
    constructor
    · intro other hother
      by_cases hmem : other ∈ rest
      · exact hgone other hmem
      · obtain rfl := (List.mem_cons.mp hother).resolve_right hmem
        show (removePaths world (removeTree world disk other).1 rest).1 other = none
        rw [removePaths_of_notMem hmem, removeTree_self hresult]
    · show usage places (removePaths world (removeTree world disk path).1 rest).1 + _ = _
      omega

theorem removePaths_gone {paths : List Place} : ∀ {disk : Disk},
    (∀ path ∈ paths, (disk path).isSome → world.fate path = .gone) →
    ∃ freed, (removePaths world disk paths).2 = some freed := by
  induction paths with
  | nil => exact fun _ ↦ ⟨0, rfl⟩
  | cons path rest ih =>
    intro disk h
    obtain ⟨hpath, hrest⟩ := List.forall_mem_cons.mp h
    have hresult : (removeTree world disk path).2 = true := removeTree_gone hpath
    obtain ⟨more, hmore⟩ := @ih (removeTree world disk path).1 fun other hother hsome ↦
      hrest other hother (removeTree_isSome hsome)
    refine ⟨(disk path).getD 0 + more, ?_⟩
    rw [removePaths]
    dsimp only
    rw [if_pos hresult, hmore]
    rfl

theorem removeTrash_of_ne {paths : List Text} : ∀ {disk : Disk} {other : Place},
    (∀ path, other ≠ .tree path) → (removeTrash world disk paths).1 other = disk other := by
  induction paths with
  | nil => exact fun _ ↦ rfl
  | cons path rest ih =>
    intro disk other hother
    show (removeTrash world (removeTree world disk (.tree path)).1 rest).1 other = _
    rw [ih hother, removeTree_of_ne (hother path)]

theorem removeTrash_isSome {paths : List Text} : ∀ {disk : Disk} {other : Place},
    ((removeTrash world disk paths).1 other).isSome → (disk other).isSome := by
  induction paths with
  | nil => exact fun h ↦ h
  | cons path rest ih => exact fun h ↦ removeTree_isSome (ih h)

/-- Removals of which each takes all or nothing count what they took. -/
theorem usage_removeTrash {paths : List Text} : ∀ {disk : Disk},
    (∀ p, (disk p).isSome → p ∈ places) →
    (∀ path ∈ paths, AllOrNothing world disk (.tree path)) →
    usage places (removeTrash world disk paths).1 + (removeTrash world disk paths).2 =
      usage places disk := by
  induction paths with
  | nil => exact fun _ _ ↦ rfl
  | cons path rest ih =>
    intro disk hplaces h
    obtain ⟨hpath, hrest⟩ := List.forall_mem_cons.mp h
    have hplaces' : ∀ p, ((removeTree world disk (.tree path)).1 p).isSome → p ∈ places :=
      fun p hp ↦ hplaces p (removeTree_isSome hp)
    have hrest' : ∀ other ∈ rest,
        AllOrNothing world (removeTree world disk (.tree path)).1 (.tree other) := by
      intro other hother
      refine (hrest other hother).imp_right fun ⟨left, hstuck, hbytes⟩ ↦ ⟨left, hstuck, ?_⟩
      intro bytes hdisk
      by_cases heq : other = path
      · subst heq
        cases hresult : (removeTree world disk (.tree other)).2 with
        | true =>
          rw [removeTree_self hresult] at hdisk
          exact absurd hdisk nofun
        | false =>
          rw [removeTree_nothing hresult hpath] at hdisk
          exact hbytes bytes hdisk
      · rw [removeTree_of_ne fun hplace ↦ heq (Place.tree.inj hplace)] at hdisk
        exact hbytes bytes hdisk
    have husage := ih hplaces' hrest'
    show usage places (removeTrash world (removeTree world disk (.tree path)).1 rest).1 +
      ((if (removeTree world disk (.tree path)).2 then _ else _) +
        (removeTrash world (removeTree world disk (.tree path)).1 rest).2) = _
    cases hresult : (removeTree world disk (.tree path)).2 with
    | true =>
      have hfirst := usage_removeTree hplaces hresult
      rw [if_pos rfl]
      omega
    | false =>
      rw [removeTree_nothing hresult hpath] at husage ⊢
      rw [if_neg Bool.false_ne_true]
      omega

end Removing

/-! ### What an eviction does -/

section Evicting

variable {world : World} {caches : Caches} {s : State}

theorem evictEntry_stuck {entry : Entry}
    (h : (removeTree world s.disk (.entry entry.dir)).2 = false) :
    evictEntry world entry s =
      ({ s with disk := (removeTree world s.disk (.entry entry.dir)).1 }, none) := by
  have hremoved : removePaths world s.disk [.entry entry.dir] =
      ((removeTree world s.disk (.entry entry.dir)).1, none) := by
    rw [removePaths]
    dsimp only
    rw [if_neg (by rw [h]; exact Bool.false_ne_true)]
  rw [evictEntry, hremoved]

theorem evictEntry_gone {entry : Entry}
    (h : (removeTree world s.disk (.entry entry.dir)).2 = true) :
    evictEntry world entry s =
      (⟨(removePaths world (removeTree world s.disk (.entry entry.dir)).1
            ((release s.users entry.blobs).2.map .blob)).1,
          (release s.users entry.blobs).1, s.released ++ (release s.users entry.blobs).2⟩,
        (removePaths world (removeTree world s.disk (.entry entry.dir)).1
            ((release s.users entry.blobs).2.map .blob)).2.map
          fun more ↦ (s.disk (.entry entry.dir)).getD 0 + more) := by
  have hremoved : removePaths world s.disk [.entry entry.dir] =
      ((removeTree world s.disk (.entry entry.dir)).1,
        some ((s.disk (.entry entry.dir)).getD 0)) := by
    rw [removePaths]
    dsimp only
    rw [if_pos h]
    rfl
  rw [evictEntry, hremoved]

/-- An eviction that is not of an entry leaves the entries, the uses and the blobs that some entry names
alone. -/
theorem evict_others {kind : Kind} (hkind : ∀ entry, kind ≠ .entry entry) :
    (evict world s kind).1.users = s.users ∧ (evict world s kind).1.released = s.released ∧
      (∀ dir, (evict world s kind).1.disk (.entry dir) = s.disk (.entry dir)) ∧
      ∀ hash, (∀ hashes, kind = .orphans hashes → hash ∉ hashes) →
        (evict world s kind).1.disk (.blob hash) = s.disk (.blob hash) := by
  cases kind with
  | entry entry => exact absurd rfl (hkind entry)
  | trash paths =>
    exact ⟨rfl, rfl, fun dir ↦ removeTrash_of_ne nofun, fun hash _ ↦ removeTrash_of_ne nofun⟩
  | tree path =>
    rw [evict]
    split_ifs
    · exact ⟨rfl, rfl, fun dir ↦ rfl, fun hash _ ↦ rfl⟩
    · exact ⟨rfl, rfl, fun dir ↦ removeTree_of_ne nofun, fun hash _ ↦ removeTree_of_ne nofun⟩
  | toolchain path =>
    rw [evict]
    split_ifs
    · exact ⟨rfl, rfl, fun dir ↦ rfl, fun hash _ ↦ rfl⟩
    · exact ⟨rfl, rfl, fun dir ↦ removeTree_of_ne nofun, fun hash _ ↦ removeTree_of_ne nofun⟩
  | orphans hashes =>
    refine ⟨rfl, rfl, fun dir ↦ removePaths_of_notMem ?_, fun hash hhash ↦ removePaths_of_notMem ?_⟩
    · intro hmem
      obtain ⟨hash, -, heq⟩ := List.mem_map.mp hmem
      exact absurd heq nofun
    · intro hmem
      obtain ⟨found, hfound, heq⟩ := List.mem_map.mp hmem
      exact hhash hashes rfl (Place.blob.inj heq ▸ hfound)

/-- An eviction puts nothing anywhere. -/
theorem evict_isSome {kind : Kind} {place : Place}
    (h : ((evict world s kind).1.disk place).isSome) : (s.disk place).isSome := by
  cases kind with
  | trash paths => exact removeTrash_isSome h
  | tree path =>
    rw [evict] at h
    split_ifs at h
    · exact h
    · exact removeTree_isSome h
  | toolchain path =>
    rw [evict] at h
    split_ifs at h
    · exact h
    · exact removeTree_isSome h
  | orphans hashes => exact removePaths_isSome h
  | entry entry =>
    change ((evictEntry world entry s).1.disk place).isSome at h
    cases hresult : (removeTree world s.disk (.entry entry.dir)).2 with
    | false =>
      rw [evictEntry_stuck hresult] at h
      exact removeTree_isSome h
    | true =>
      rw [evictEntry_gone hresult] at h
      exact removeTree_isSome (removePaths_isSome h)

/-- The entries that name a blob and are still there. -/
def remainingUsers (caches : Caches) (disk : Disk) (hash : Text) : ℕ :=
  caches.entries.countP fun entry ↦ hash ∈ entry.blobs && (disk (.entry entry.dir)).isSome

/-- What holds while the families in `pending` are still to be evicted. -/
structure Inv (caches : Caches) (pending : List Family) (s : State) : Prop where
  places : ∀ place, (s.disk place).isSome → place ∈ caches.places
  users : ∀ hash, s.users hash = remainingUsers caches s.disk hash
  used : ∀ hash, s.users hash ≠ 0 → s.disk (.blob hash) = caches.disk (.blob hash)
  entries : ∀ family ∈ pending, ∀ entry, family.kind = .entry entry →
    entry ∈ caches.entries ∧ (s.disk (.entry entry.dir)).isSome
  distinct : pending.Pairwise fun a b ↦ ∀ entry entry', a.kind = .entry entry →
    b.kind = .entry entry' → entry.dir ≠ entry'.dir
  orphans : ∀ family ∈ pending, ∀ hashes, family.kind = .orphans hashes →
    ∀ hash ∈ hashes, countBlobs caches.entries hash = 0
  nodup : s.released.Nodup
  unused : ∀ hash ∈ s.released, s.users hash = 0

theorem countBlobs_eq (caches : Caches) (hash : Text) :
    countBlobs caches.entries hash = caches.entries.countP fun entry ↦ hash ∈ entry.blobs := by
  have hnodup : ∀ items ∈ caches.entries.map Entry.blobs, items.Nodup := by
    intro items hitems
    obtain ⟨entry, hentry, rfl⟩ := List.mem_map.mp hitems
    exact caches.blobs_nodup entry hentry
  rw [countBlobs, countUses_eq hnodup, List.countP_map]
  refine List.countP_congr fun entry _ ↦ ?_
  simp only [Function.comp_apply, decide_eq_true_eq]

theorem remainingUsers_le (caches : Caches) (disk : Disk) (hash : Text) :
    remainingUsers caches disk hash ≤ countBlobs caches.entries hash := by
  rw [countBlobs_eq, remainingUsers]
  refine List.countP_mono_left fun entry _ h ↦ ?_
  exact (Bool.and_eq_true_iff.mp h).1

/-- Once the directory of an entry is gone its blobs have one user less. -/
theorem remainingUsers_of_gone {entry : Entry} {disk disk' : Disk} (hentry : entry ∈ caches.entries)
    (hthere : (disk (.entry entry.dir)).isSome) (hgone : disk' (.entry entry.dir) = none)
    (hsame : ∀ dir, dir ≠ entry.dir → disk' (.entry dir) = disk (.entry dir)) (hash : Text) :
    remainingUsers caches disk' hash =
      if hash ∈ entry.blobs then remainingUsers caches disk hash - 1
      else remainingUsers caches disk hash := by
  have hperm := List.perm_cons_erase hentry
  have hother : ∀ other ∈ caches.entries.erase entry, other.dir ≠ entry.dir := by
    intro other hmem heq
    have hdirs := (hperm.map Entry.dir).nodup_iff.mp caches.dirs_nodup
    rw [List.map_cons, List.nodup_cons] at hdirs
    exact hdirs.1 (heq ▸ List.mem_map_of_mem hmem)
  have hrest : (caches.entries.erase entry).countP
        (fun other ↦ hash ∈ other.blobs && (disk' (.entry other.dir)).isSome) =
      (caches.entries.erase entry).countP
        (fun other ↦ hash ∈ other.blobs && (disk (.entry other.dir)).isSome) := by
    refine List.countP_congr fun other hmem ↦ ?_
    rw [hsame other.dir (hother other hmem)]
  rw [remainingUsers, remainingUsers, hperm.countP_eq, hperm.countP_eq, List.countP_cons,
    List.countP_cons, hrest, hgone, hthere]
  by_cases hmem : hash ∈ entry.blobs
  · simp [hmem]
  · simp [hmem]

theorem remainingUsers_congr {disk disk' : Disk}
    (hsame : ∀ dir, (disk' (.entry dir)).isSome = (disk (.entry dir)).isSome) (hash : Text) :
    remainingUsers caches disk' hash = remainingUsers caches disk hash := by
  rw [remainingUsers, remainingUsers]
  refine List.countP_congr fun entry _ ↦ ?_
  rw [hsame entry.dir]

/-- Evicting an entry keeps the invariant. -/
theorem Inv.evictEntry {family : Family} {entry : Entry} {rest : List Family}
    (h : Inv caches (family :: rest) s) (hkind : family.kind = .entry entry) :
    Inv caches rest (evictEntry world entry s).1 := by
  obtain ⟨hentry, hthere⟩ := h.entries family List.mem_cons_self entry hkind
  obtain ⟨hfirst, hdistinct⟩ := List.pairwise_cons.mp h.distinct
  have hpending : ∀ other ∈ rest, ∀ entry', other.kind = .entry entry' → entry'.dir ≠ entry.dir :=
    fun other hother entry' hkind' ↦ (hfirst other hother entry entry' hkind hkind').symm
  have horphans := fun other hother ↦ h.orphans other (List.mem_cons_of_mem _ hother)
  have hblobs : ∀ hash, (removeTree world s.disk (.entry entry.dir)).1 (.blob hash) =
      s.disk (.blob hash) := fun hash ↦ removeTree_of_ne nofun
  have hplaces : ∀ place, ((WorkerCap.evictEntry world entry s).1.disk place).isSome →
      place ∈ caches.places := fun place hplace ↦
    h.places place (@evict_isSome world s (.entry entry) place hplace)
  cases hresult : (removeTree world s.disk (.entry entry.dir)).2 with
  | false =>
    rw [evictEntry_stuck hresult] at hplaces ⊢
    have hsame : ∀ dir, ((removeTree world s.disk (.entry entry.dir)).1 (.entry dir)).isSome =
        (s.disk (.entry dir)).isSome := by
      intro dir
      by_cases heq : dir = entry.dir
      · subst heq
        rw [(removeTree_stuck hresult).1, hthere]
      · rw [removeTree_of_ne fun hplace ↦ heq (Place.entry.inj hplace)]
    refine ⟨hplaces, fun hash ↦ ?_, fun hash hused ↦ ?_, fun other hother entry' hkind' ↦ ?_,
      hdistinct, horphans, h.nodup, h.unused⟩
    · exact (h.users hash).trans (remainingUsers_congr hsame hash).symm
    · exact (hblobs hash).trans (h.used hash hused)
    · obtain ⟨hmem, hsome⟩ := h.entries other (List.mem_cons_of_mem _ hother) entry' hkind'
      exact ⟨hmem, (hsame entry'.dir).trans hsome⟩
  | true =>
    rw [evictEntry_gone hresult] at hplaces ⊢
    obtain ⟨hcounts, hreleased⟩ := release_spec (caches.blobs_nodup entry hentry) s.users
    have hnotEntry : ∀ dir, Place.entry dir ∉ (release s.users entry.blobs).2.map Place.blob := by
      intro dir hmem
      obtain ⟨hash, -, heq⟩ := List.mem_map.mp hmem
      exact absurd heq nofun
    have hothers : ∀ dir, dir ≠ entry.dir →
        (removePaths world (removeTree world s.disk (.entry entry.dir)).1
          ((release s.users entry.blobs).2.map .blob)).1 (.entry dir) = s.disk (.entry dir) := by
      intro dir hne
      rw [removePaths_of_notMem (hnotEntry dir),
        removeTree_of_ne fun hplace ↦ hne (Place.entry.inj hplace)]
    have hgone : (removePaths world (removeTree world s.disk (.entry entry.dir)).1
          ((release s.users entry.blobs).2.map .blob)).1 (.entry entry.dir) = none := by
      rw [removePaths_of_notMem (hnotEntry entry.dir), removeTree_self hresult]
    have hmemReleased : ∀ {hash : Text}, hash ∈ (release s.users entry.blobs).2 ↔
        hash ∈ entry.blobs ∧ s.users hash = 1 := by
      intro hash
      rw [hreleased, List.mem_filter, decide_eq_true_eq]
    refine ⟨hplaces, fun hash ↦ ?_, fun hash hused ↦ ?_, fun other hother entry' hkind' ↦ ?_,
      hdistinct, horphans, ?_, fun hash hhash ↦ ?_⟩
    · show (release s.users entry.blobs).1 hash = _
      rw [hcounts, remainingUsers_of_gone hentry hthere hgone hothers, h.users]
      split_ifs <;> rfl
    · change (release s.users entry.blobs).1 hash ≠ 0 at hused
      rw [hcounts] at hused
      -- A blob still in use was used before and is not among those released.
      have hnot : hash ∉ (release s.users entry.blobs).2 := by
        intro hmem
        obtain ⟨hblob, hone⟩ := hmemReleased.mp hmem
        rw [if_pos hblob, hone] at hused
        exact hused rfl
      have hbefore : s.users hash ≠ 0 := by
        intro hzero
        rw [hzero] at hused
        split_ifs at hused <;> exact hused rfl
      have hplace : Place.blob hash ∉ (release s.users entry.blobs).2.map Place.blob := by
        intro hmem
        obtain ⟨found, hfound, heq⟩ := List.mem_map.mp hmem
        exact hnot (Place.blob.inj heq ▸ hfound)
      show (removePaths world _ _).1 (.blob hash) = _
      rw [removePaths_of_notMem hplace, hblobs, h.used hash hbefore]
    · obtain ⟨hmem, hsome⟩ := h.entries other (List.mem_cons_of_mem _ hother) entry' hkind'
      exact ⟨hmem, (congrArg Option.isSome
        (hothers entry'.dir (hpending other hother entry' hkind'))).trans hsome⟩
    · rw [hreleased]
      refine List.Nodup.append h.nodup ((caches.blobs_nodup entry hentry).filter _) ?_
      intro hash hold hnew
      rw [List.mem_filter, decide_eq_true_eq] at hnew
      exact absurd ((h.unused hash hold).symm.trans hnew.2) nofun
    · show (release s.users entry.blobs).1 hash = 0
      rw [hcounts]
      rcases List.mem_append.mp hhash with hold | hnew
      · rw [h.unused hash hold]
        split_ifs <;> rfl
      · obtain ⟨hblob, hone⟩ := hmemReleased.mp hnew
        rw [if_pos hblob, hone]

/-- Every eviction keeps the invariant. -/
theorem Inv.evict {family : Family} {rest : List Family} (h : Inv caches (family :: rest) s) :
    Inv caches rest (evict world s family.kind).1 := by
  by_cases hkind : ∃ entry, family.kind = .entry entry
  · obtain ⟨entry, hkind⟩ := hkind
    rw [hkind]
    exact h.evictEntry hkind
  · have hothers : ∀ entry, family.kind ≠ .entry entry := fun entry heq ↦ hkind ⟨entry, heq⟩
    obtain ⟨husers, hreleased, hentries, hblobs⟩ := @evict_others world s family.kind hothers
    constructor
    · exact fun place hplace ↦ h.places place (evict_isSome hplace)
    · intro hash
      rw [husers, h.users]
      exact (remainingUsers_congr (fun dir ↦ congrArg Option.isSome (hentries dir)) hash).symm
    · intro hash hused
      rw [husers] at hused
      refine (hblobs hash fun hashes horphans hmem ↦ hused ?_).trans (h.used hash hused)
      have hzero := h.orphans family List.mem_cons_self hashes horphans hash hmem
      have hle := remainingUsers_le caches s.disk hash
      rw [h.users]
      omega
    · intro other hother entry hentry
      obtain ⟨hmem, hsome⟩ := h.entries other (List.mem_cons_of_mem _ hother) entry hentry
      exact ⟨hmem, (congrArg Option.isSome (hentries entry.dir)).trans hsome⟩
    · exact (List.pairwise_cons.mp h.distinct).2
    · exact fun other hother ↦ h.orphans other (List.mem_cons_of_mem _ hother)
    · rw [hreleased]
      exact h.nodup
    · rw [hreleased, husers]
      exact h.unused

/-! ### Clean evictions -/

/-- The blobs that only evicted entries named are gone. -/
def Collected (caches : Caches) (s : State) : Prop :=
  ∀ hash, s.users hash = 0 → (∃ entry ∈ caches.entries, hash ∈ entry.blobs) →
    s.disk (.blob hash) = none

/-- Removals that take all or nothing count what they took. -/
theorem usage_removePaths {disk : Disk} {places : Finset Place} {paths : List Place}
    (hplaces : ∀ place, (disk place).isSome → place ∈ places)
    (h : AllOrNothings world disk paths) :
    usage places (removePaths world disk paths).1 + (removePaths world disk paths).2.getD 0 =
      usage places disk := by
  rcases h with hgone | ⟨first, rest, rfl, hsome, hfate, hfirst⟩
  · obtain ⟨freed, hfreed⟩ := removePaths_gone hgone
    rw [hfreed]
    exact (removePaths_some hplaces hfreed).2
  · have hresult := removeTree_fails hsome hfate
    have hremoved : removePaths world disk (first :: rest) = (disk, none) := by
      rw [removePaths]
      dsimp only
      rw [if_neg (by rw [hresult]; exact Bool.false_ne_true), removeTree_nothing hresult hfirst]
    rw [hremoved]
    rfl

/-- In a clean eviction of an entry whose directory goes, the blobs it releases go as well. -/
theorem removePaths_released {entry : Entry}
    (hresult : (removeTree world s.disk (.entry entry.dir)).2 = true) (hnodup : entry.blobs.Nodup)
    (h : Clean world s (.entry entry)) (hthere : (s.disk (.entry entry.dir)).isSome) :
    ∃ freed, (removePaths world (removeTree world s.disk (.entry entry.dir)).1
      ((release s.users entry.blobs).2.map .blob)).2 = some freed := by
  obtain ⟨-, hreleased⟩ := release_spec hnodup s.users
  have hblobs : ∀ hash ∈ entry.blobs, s.users hash = 1 → (s.disk (.blob hash)).isSome →
      world.fate (.blob hash) = .gone := by
    refine (h.resolve_right fun hstays ↦ ?_).2
    exact absurd (hresult.symm.trans (removeTree_fails hthere hstays.1)) nofun
  refine removePaths_gone fun place hplace hsome ↦ ?_
  obtain ⟨hash, hmem, rfl⟩ := List.mem_map.mp hplace
  rw [hreleased, List.mem_filter, decide_eq_true_eq] at hmem
  exact hblobs hash hmem.1 hmem.2 (removeTree_isSome hsome)

/-- A clean eviction counts what it took. -/
theorem usage_evict {kind : Kind} (hplaces : ∀ place, (s.disk place).isSome → place ∈ caches.places)
    (hentry : ∀ entry, kind = .entry entry →
      entry.blobs.Nodup ∧ (s.disk (.entry entry.dir)).isSome) (h : Clean world s kind) :
    usage caches.places (evict world s kind).1.disk + (evict world s kind).2.getD 0 =
      usage caches.places s.disk := by
  cases kind with
  | trash paths => exact usage_removeTrash hplaces h
  | tree path =>
    rw [evict]
    split_ifs with hpinned
    · rfl
    · show usage caches.places (removeTree world s.disk (.tree path)).1 +
        (if (removeTree world s.disk (.tree path)).2 then _ else none).getD 0 = _
      cases hresult : (removeTree world s.disk (.tree path)).2 with
      | true => exact usage_removeTree hplaces hresult
      | false =>
        rw [removeTree_nothing hresult (h.resolve_left hpinned)]
        rfl
  | toolchain path =>
    rw [evict]
    split_ifs with hpinned
    · rfl
    · show usage caches.places (removeTree world s.disk (.tree path)).1 +
        (s.disk (.tree path)).getD 0 = _
      cases hresult : (removeTree world s.disk (.tree path)).2 with
      | true => exact usage_removeTree hplaces hresult
      | false =>
        obtain ⟨-, hfate, hsome⟩ := removeTree_stuck hresult
        have hstuck := (h.resolve_left hpinned).resolve_left hfate
        obtain ⟨bytes, hdisk⟩ := Option.isSome_iff_exists.mp hsome
        have hremoved : (removeTree world s.disk (.tree path)).1 =
            Function.update s.disk (.tree path) (some 0) := by
          rw [removeTree, hdisk, hstuck]
          show Function.update s.disk (.tree path) (some (min 0 bytes)) = _
          rw [Nat.zero_min]
        rw [hremoved]
        exact usage_update (hplaces _ hsome) (some 0)
  | orphans hashes => exact usage_removePaths hplaces h
  | entry entry =>
    change usage caches.places (evictEntry world entry s).1.disk +
      (evictEntry world entry s).2.getD 0 = _
    cases hresult : (removeTree world s.disk (.entry entry.dir)).2 with
    | false =>
      obtain ⟨-, hfate, -⟩ := removeTree_stuck hresult
      have hnothing := removeTree_nothing hresult (h.resolve_left fun hgone ↦ hfate hgone.1).2
      rw [evictEntry_stuck hresult]
      exact congrArg (usage caches.places) hnothing
    | true =>
      obtain ⟨hnodup, hthere⟩ := hentry entry rfl
      obtain ⟨freed, hfreed⟩ := removePaths_released hresult hnodup h hthere
      have hplaces' : ∀ place, ((removeTree world s.disk (.entry entry.dir)).1 place).isSome →
          place ∈ caches.places := fun place hplace ↦ hplaces place (removeTree_isSome hplace)
      have hdir := usage_removeTree hplaces hresult
      have hothers := (removePaths_some hplaces' hfreed).2
      rw [evictEntry_gone hresult, hfreed]
      show usage caches.places (removePaths world _ _).1 +
        ((s.disk (.entry entry.dir)).getD 0 + freed) = _
      omega

/-- A clean eviction leaves no blob behind that only evicted entries named. -/
theorem Collected.evict {family : Family} {rest : List Family} (hinv : Inv caches (family :: rest) s)
    (h : Collected caches s) (hclean : Clean world s family.kind) :
    Collected caches (evict world s family.kind).1 := by
  intro hash hzero hnamed
  by_cases hkind : ∃ entry, family.kind = .entry entry
  · obtain ⟨entry, hkind⟩ := hkind
    obtain ⟨hentry, hthere⟩ := hinv.entries family List.mem_cons_self entry hkind
    have hnodup := caches.blobs_nodup entry hentry
    rw [hkind] at hzero hclean ⊢
    have hkeep : s.users hash = 0 → (WorkerCap.evict world s (.entry entry)).1.disk (.blob hash) = none := by
      intro hbefore
      have hnone := h hash hbefore hnamed
      by_contra hsome
      have hthere := evict_isSome (Option.isSome_iff_ne_none.mpr hsome)
      rw [hnone] at hthere
      exact absurd hthere nofun
    change (evictEntry world entry s).1.users hash = 0 at hzero
    cases hresult : (removeTree world s.disk (.entry entry.dir)).2 with
    | false =>
      rw [evictEntry_stuck hresult] at hzero
      exact hkeep hzero
    | true =>
      obtain ⟨hcounts, hreleased⟩ := release_spec hnodup s.users
      obtain ⟨freed, hfreed⟩ := removePaths_released hresult hnodup hclean hthere
      have hplaces' : ∀ place, ((removeTree world s.disk (.entry entry.dir)).1 place).isSome →
          place ∈ caches.places := fun place hplace ↦ hinv.places place (removeTree_isSome hplace)
      rw [evictEntry_gone hresult] at hzero
      change (release s.users entry.blobs).1 hash = 0 at hzero
      rw [hcounts] at hzero
      by_cases hone : hash ∈ entry.blobs ∧ s.users hash = 1
      · have hmem : Place.blob hash ∈ (release s.users entry.blobs).2.map Place.blob := by
          rw [hreleased]
          exact List.mem_map_of_mem (List.mem_filter.mpr ⟨hone.1, decide_eq_true hone.2⟩)
        show (evictEntry world entry s).1.disk (.blob hash) = none
        rw [evictEntry_gone hresult]
        exact (removePaths_some hplaces' hfreed).1 _ hmem
      · refine hkeep ?_
        split_ifs at hzero with hblob
        · have hne : s.users hash ≠ 1 := fun heq ↦ hone ⟨hblob, heq⟩
          omega
        · exact hzero
  · have hothers : ∀ entry, family.kind ≠ .entry entry := fun entry heq ↦ hkind ⟨entry, heq⟩
    obtain ⟨husers, -⟩ := @evict_others world s family.kind hothers
    rw [husers] at hzero
    have hnone := h hash hzero hnamed
    by_contra hsome
    have hthere := evict_isSome (Option.isSome_iff_ne_none.mpr hsome)
    rw [hnone] at hthere
    exact absurd hthere nofun

end Evicting

/-! ### Sweeps -/

section Sweeping

variable {world : World} {caches : Caches} {target : ℤ}

/-- A sweep evicts families in the order it is given, as long as the total is above the target. -/
theorem sweep_spec {families : List Family} : ∀ {total : ℤ} {s : State}, Inv caches families s →
    ∃ rest, families = (sweep world target total s families).attempts.map Attempt.family ++ rest ∧
      ((sweep world target total s families).total ≤ target ∨ rest = []) ∧
      (∀ attempt ∈ (sweep world target total s families).attempts, target < attempt.total) ∧
      Inv caches rest (sweep world target total s families).state := by
  induction families with
  | nil =>
    intro total s h
    exact ⟨[], rfl, .inr rfl, fun _ hmem ↦ absurd hmem List.not_mem_nil, h⟩
  | cons family others ih =>
    intro total s h
    rw [sweep]
    split_ifs with hwithin
    · exact ⟨family :: others, rfl, .inl hwithin, fun _ hmem ↦ absurd hmem List.not_mem_nil, h⟩
    · obtain ⟨rest, hsplit, hstop, hover, hinv⟩ := @ih
        (total - ((evict world s family.kind).2.getD 0 : ℕ)) _ (@Inv.evict world _ _ _ _ h)
      refine ⟨rest, ?_, hstop, ?_, hinv⟩
      · exact congrArg (family :: ·) hsplit
      · intro attempt hattempt
        rcases List.mem_cons.mp hattempt with rfl | hattempt
        · exact not_le.mp hwithin
        · exact hover attempt hattempt

/-- Nothing is evicted where the total is within the target. -/
theorem sweep_within {families : List Family} {total : ℤ} {s : State} (h : total ≤ target) :
    (sweep world target total s families).attempts = [] := by
  cases families with
  | nil => rfl
  | cons family others => rw [sweep, if_pos h]

/-- Clean evictions keep the account of what was removed and collect the blobs of evicted entries. -/
theorem sweep_clean {families : List Family} : ∀ {total : ℤ} {s : State}, Inv caches families s →
    Collected caches s → total = workerCacheBytes caches - removedBytes caches s.disk →
    (∀ attempt ∈ (sweep world target total s families).attempts,
      Clean world attempt.before attempt.family.kind) →
    Collected caches (sweep world target total s families).state ∧
      (∀ attempt ∈ (sweep world target total s families).attempts,
        attempt.total = workerCacheBytes caches - removedBytes caches attempt.before.disk) ∧
      (sweep world target total s families).total =
        workerCacheBytes caches -
          removedBytes caches (sweep world target total s families).state.disk := by
  induction families with
  | nil =>
    intro total s _ hcollected htotal _
    exact ⟨hcollected, fun _ hmem ↦ absurd hmem List.not_mem_nil, htotal⟩
  | cons family others ih =>
    intro total s h hcollected htotal hclean
    rw [sweep] at hclean ⊢
    split_ifs at hclean ⊢ with hwithin
    · exact ⟨hcollected, fun _ hmem ↦ absurd hmem List.not_mem_nil, htotal⟩
    · obtain ⟨hfirst, hrest⟩ := List.forall_mem_cons.mp hclean
      have hentry : ∀ entry, family.kind = .entry entry →
          entry.blobs.Nodup ∧ (s.disk (.entry entry.dir)).isSome := by
        intro entry hkind
        obtain ⟨hmem, hthere⟩ := h.entries family List.mem_cons_self entry hkind
        exact ⟨caches.blobs_nodup entry hmem, hthere⟩
      have husage := usage_evict h.places hentry hfirst
      obtain ⟨hcollected', htotals, hfinal⟩ := @ih
        (total - ((evict world s family.kind).2.getD 0 : ℕ)) _ (@Inv.evict world _ _ _ _ h)
        (hcollected.evict h hfirst) (by rw [htotal, removedBytes, removedBytes]; omega) hrest
      refine ⟨hcollected', ?_, hfinal⟩
      intro attempt hattempt
      rcases List.mem_cons.mp hattempt with rfl | hattempt
      · exact htotal
      · exact htotals attempt hattempt

/-- The families that are not entries. -/
def otherFamilies (caches : Caches) : List Family :=
  ⟨0, .trash caches.trash⟩ :: treeFamilies caches.checkpoints ++ treeFamilies caches.store ++
    treeFamilies caches.modules ++ toolchainCacheFamilies caches ++
    [⟨0, .orphans (caches.blobs.filter fun hash ↦ countBlobs caches.entries hash = 0)⟩]

theorem families_eq (caches : Caches) :
    families caches =
      otherFamilies caches ++ caches.entries.map fun entry ↦ ⟨entry.mtime, .entry entry⟩ := by
  simp only [families, otherFamilies, localCacheFamilies, List.append_assoc, List.cons_append,
    List.nil_append]

/-- The other families are trees, or the blobs that no entry names. -/
theorem kind_of_mem_otherFamilies {family : Family} (h : family ∈ otherFamilies caches) :
    (∀ entry, family.kind ≠ .entry entry) ∧ ∀ hashes, family.kind = .orphans hashes →
      ∀ hash ∈ hashes, countBlobs caches.entries hash = 0 := by
  have htrees : ∀ {trees : List (ℤ × Text)}, family ∈ treeFamilies trees →
      ∃ path, family.kind = .tree path := by
    intro trees hmem
    obtain ⟨⟨mtime, path⟩, -, rfl⟩ := List.mem_map.mp hmem
    exact ⟨path, rfl⟩
  have htree : (∃ path, family.kind = .tree path) → (∀ entry, family.kind ≠ .entry entry) ∧
      ∀ hashes, family.kind = .orphans hashes →
        ∀ hash ∈ hashes, countBlobs caches.entries hash = 0 := by
    rintro ⟨path, hkind⟩
    rw [hkind]
    exact ⟨nofun, nofun⟩
  simp only [otherFamilies, List.mem_append, List.mem_cons, List.not_mem_nil, or_false] at h
  rcases h with ((((rfl | h) | h) | h) | h) | rfl
  · exact ⟨nofun, nofun⟩
  · exact htree (htrees h)
  · exact htree (htrees h)
  · exact htree (htrees h)
  · obtain ⟨⟨mtime, path⟩, -, rfl⟩ := List.mem_map.mp h
    exact ⟨nofun, nofun⟩
  · refine ⟨nofun, fun hashes hkind hash hmem ↦ ?_⟩
    obtain rfl := Kind.orphans.inj hkind
    exact of_decide_eq_true (List.mem_filter.mp hmem).2

theorem inv_start (caches : Caches) :
    Inv caches (sortByMtimeAscending (families caches)) (start caches) := by
  have hperm : (sortByMtimeAscending (families caches)).Perm (families caches) := sortPairs_perm _
  have hmem : ∀ family ∈ sortByMtimeAscending (families caches), family ∈ otherFamilies caches ∨
      ∃ entry ∈ caches.entries, family = ⟨entry.mtime, .entry entry⟩ := by
    intro family hfamily
    have hfound := hperm.mem_iff.mp hfamily
    rw [families_eq, List.mem_append] at hfound
    refine hfound.imp_right fun hentry ↦ ?_
    obtain ⟨entry, hentry, heq⟩ := List.mem_map.mp hentry
    exact ⟨entry, hentry, heq.symm⟩
  constructor
  · exact caches.mem_places
  · intro hash
    show countBlobs caches.entries hash = _
    rw [countBlobs_eq, remainingUsers]
    refine List.countP_congr fun entry hentry ↦ ?_
    have hthere : ((start caches).disk (.entry entry.dir)).isSome = true :=
      caches.entries_there entry hentry
    rw [hthere, Bool.and_true]
  · exact fun hash _ ↦ rfl
  · intro family hfamily entry hkind
    rcases hmem family hfamily with hother | ⟨found, hfound, rfl⟩
    · exact absurd hkind ((kind_of_mem_otherFamilies hother).1 entry)
    · obtain rfl := Kind.entry.inj hkind
      exact ⟨hfound, caches.entries_there found hfound⟩
  · refine (hperm.pairwise_iff ?_).mpr ?_
    · exact fun h entry entry' hkind hkind' ↦ (h entry' entry hkind' hkind).symm
    · rw [families_eq, List.pairwise_append]
      refine ⟨List.pairwise_of_forall_mem_list fun a ha b _ entry entry' hkind _ ↦ ?_, ?_,
        fun a ha b _ entry entry' hkind _ ↦ ?_⟩
      · exact absurd hkind ((kind_of_mem_otherFamilies ha).1 entry)
      · have hdirs := caches.dirs_nodup
        rw [List.Nodup, List.pairwise_map] at hdirs
        refine List.pairwise_map.mpr (hdirs.imp fun hne entry entry' hkind hkind' ↦ ?_)
        obtain rfl := Kind.entry.inj hkind
        obtain rfl := Kind.entry.inj hkind'
        exact hne
      · exact absurd hkind ((kind_of_mem_otherFamilies ha).1 entry)
  · intro family hfamily hashes hkind
    rcases hmem family hfamily with hother | ⟨found, -, rfl⟩
    · exact (kind_of_mem_otherFamilies hother).2 hashes hkind
    · exact absurd hkind nofun
  · exact List.nodup_nil
  · exact fun hash hhash ↦ absurd hhash List.not_mem_nil

/-- Before the sweep every blob that an entry names is used. -/
theorem collected_start (caches : Caches) : Collected caches (start caches) := by
  rintro hash hzero ⟨entry, hentry, hmem⟩
  change countBlobs caches.entries hash = 0 at hzero
  rw [countBlobs_eq, List.countP_eq_zero] at hzero
  exact absurd (decide_eq_true hmem) (hzero entry hentry)

/-- **The accounts of a sweep.** Assumes: every eviction of the sweep removes all of what it goes for or
nothing. Then the oldest families go until the total is within the target, an entry that is still there
has its blobs, a blob that only evicted entries named is gone and was released once, and the running
total is the initial one less what was removed. -/
theorem accounted_of_clean (world : World) (caches : Caches) (limit reserve : ℤ)
    (hclean : ∀ attempt ∈ (enforceWorkerCacheCap world caches limit reserve).attempts,
      Clean world attempt.before attempt.family.kind) :
    Accounted caches (limit - reserve) (enforceWorkerCacheCap world caches limit reserve) := by
  have hinv := inv_start caches
  have hstart : (workerCacheBytes caches : ℤ) =
      workerCacheBytes caches - removedBytes caches (start caches).disk := by
    show _ = _ - ((usage caches.places caches.disk : ℤ) - usage caches.places caches.disk)
    omega
  obtain ⟨rest, hsplit, hstop, hover, hfinal⟩ := @sweep_spec world caches (limit - reserve) _
    (workerCacheBytes caches) _ hinv
  obtain ⟨hcollected, htotals, htotal⟩ := sweep_clean hinv (collected_start caches) hstart hclean
  constructor
  · refine ⟨rest, ?_, ?_, hstop⟩
    · exact hsplit ▸ (sortPairs_perm _ : (sortByMtimeAscending (families caches)).Perm _)
    · have htrans : ∀ a b c : Family, decide (a.mtime ≤ b.mtime) → decide (b.mtime ≤ c.mtime) →
          decide (a.mtime ≤ c.mtime) := by
        simp only [decide_eq_true_eq]
        exact fun a b c hab hbc ↦ hab.trans hbc
      have htotal : ∀ a b : Family, decide (a.mtime ≤ b.mtime) || decide (b.mtime ≤ a.mtime) := by
        simp only [Bool.or_eq_true, decide_eq_true_eq]
        exact fun a b ↦ le_total _ _
      have hsorted : (sortByMtimeAscending (families caches)).Pairwise fun a b ↦
          decide (a.mtime ≤ b.mtime) := pairwise_sortPairs htrans htotal _
      rw [hsplit] at hsorted
      exact hsorted.imp fun h ↦ of_decide_eq_true h
  · exact hover
  · exact sweep_within
  · intro entry hentry hthere hash hmem
    refine hfinal.used hash ?_
    rw [hfinal.users, remainingUsers]
    refine (List.countP_pos_iff.mpr ⟨entry, hentry, ?_⟩).ne'
    exact Bool.and_eq_true_iff.mpr ⟨decide_eq_true hmem, hthere⟩
  · intro hash hnamed hgone
    refine hcollected hash ?_ hnamed
    rw [hfinal.users, remainingUsers, List.countP_eq_zero]
    intro entry hentry hboth
    obtain ⟨hmem, hthere⟩ := Bool.and_eq_true_iff.mp hboth
    have hnone := congrArg Option.isSome (hgone entry hentry (of_decide_eq_true hmem))
    exact absurd (hthere.symm.trans hnone) nofun
  · exact hfinal.nodup
  · exact htotals
  · exact htotal

/-! Two entries that share a blob, with one that is named by the older entry only and one by none. -/

/-- What a list says is there. -/
def diskOf (contents : List (Place × ℕ)) : Disk := fun place ↦
  (contents.find? fun content ↦ content.1 = place).map Prod.snd

theorem mem_of_diskOf {contents : List (Place × ℕ)} {place : Place}
    (h : (diskOf contents place).isSome) : place ∈ (contents.map Prod.fst).toFinset := by
  rw [diskOf, Option.isSome_map, List.find?_isSome] at h
  obtain ⟨content, hmem, heq⟩ := h
  rw [List.mem_toFinset, ← of_decide_eq_true heq]
  exact List.mem_map_of_mem hmem

def sampleContents : List (Place × ℕ) :=
  [(.entry "old".toList, 4), (.entry "new".toList, 4), (.blob "a".toList, 10), (.blob "b".toList, 20),
    (.blob "c".toList, 30), (.blob "d".toList, 40), (.tree "t".toList, 50)]

def sampleCaches : Caches where
  disk := diskOf sampleContents
  places := (sampleContents.map Prod.fst).toFinset
  mem_places _ := mem_of_diskOf
  loose := 0
  trash := []
  checkpoints := []
  store := []
  modules := []
  toolchains := [(3, "t".toList)]
  entries := [⟨"new".toList, 9, ["c".toList]⟩, ⟨"old".toList, 5, ["a".toList, "b".toList, "c".toList]⟩]
  blobs := ["a".toList, "b".toList, "c".toList, "d".toList]
  dirs_nodup := by decide
  blobs_nodup := by decide
  entries_there := by decide
  blobs_nodup' := by decide

/-- Everything can be removed but the blobs in a list, and the toolchain is in use. -/
def stuckWorld (stuck : List Text) : World where
  fate
    | .blob hash => if hash ∈ stuck then .stuck 100 else .gone
    | _ => .gone
  pinned _ := true

theorem clean_of_gone {world : World} (h : ∀ place, world.fate place = .gone) (s : State)
    (kind : Kind) : Clean world s kind := by
  cases kind with
  | trash paths => exact fun path _ ↦ .inl (h _)
  | tree path => exact .inr (.inl (h _))
  | toolchain path => exact .inr (.inl (h _))
  | orphans hashes => exact .inl fun place _ _ ↦ h place
  | entry entry => exact .inl ⟨h _, fun hash _ _ _ ↦ h _⟩

/-- The blob that no entry names goes, the toolchain is kept, and the older entry goes with the two blobs
that are its own. -/
theorem accounted_sample :
    ((enforceWorkerCacheCap (stuckWorld []) sampleCaches 100 14).attempts.map Attempt.total =
        [158, 158, 118, 118] ∧
      (enforceWorkerCacheCap (stuckWorld []) sampleCaches 100 14).total = 84) ∧
    Accounted sampleCaches (100 - 14) (enforceWorkerCacheCap (stuckWorld []) sampleCaches 100 14) :=
  ⟨by decide +kernel, accounted_of_clean _ _ _ _ fun attempt _ ↦
    clean_of_gone (fun place ↦ by cases place <;> rfl) attempt.before attempt.family.kind⟩

/-- Where the first blob of an evicted entry cannot be removed, the next one is left behind too, and
nothing of the entry is counted. -/
theorem half_evicted_entry : ¬ ∀ (world : World) (caches : Caches) (limit reserve : ℤ),
    Accounted caches (limit - reserve) (enforceWorkerCacheCap world caches limit reserve) := by
  intro h
  have haccounted := h (stuckWorld ["a".toList]) sampleCaches 100 14
  have hblob := haccounted.collected "b".toList (by decide) (by decide +kernel)
  exact absurd hblob (by decide +kernel)

end Sweeping

end Holbuild.Cache.WorkerCap
