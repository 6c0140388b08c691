import Holbuild.BuildNode.Programs
import Holbuild.Library.Machine
import Mathlib.Tactic.Tauto

/-!
# Interrupted builds

Sources are edited, reverted and built, and every build of a node may be killed between any two file
operations. `World` keeps the disk, the keys of the current plan and what builds of nodes reported when they
ended. A node's outputs are `Intact` for a key when they are what one completed restore or build for the key
put there, or one for an earlier key from which early cutoff kept them.

Theories remove their metadata before they touch an output, so what is accepted is intact. Libraries and
signatures write their manifests over metadata that is still there: a build that is killed in between
leaves metadata of one key with manifests of another (`stale_manifest_accepted`). In the runs in which no
manifest is left that contradicts metadata on the disk (`Orderly`), all accepted outputs are intact
(`accepted_intact_of_orderly`).
-/

set_option autoImplicit false
set_option relaxedAutoImplicit false

namespace Holbuild.BuildNode

open Library Library.Prog

/-- The input keys of the nodes that are built. A library's key has the key of its signature companion. -/
structure Plan (keys : Keys) where
  key : Node → Option Text
  companions : ∀ name inputKey, key (.sml name) = some inputKey →
    keys.companion inputKey = key (.signature name)

/-- What a build of a node reported when it ended: what a restore or build wrote, or the earlier key whose
outputs early cutoff kept. -/
inductive Report
  | wrote (node : Node) (key : Text) (writes : List (File × Text))
  | kept (node : Node) (key oldKey : Text)
deriving DecidableEq

structure World (keys : Keys) where
  plan : Plan keys
  handled : List Node
  disk : Disk
  reports : List Report

/-- A build starts for the current sources, or handles a node until it ends or is stopped. -/
inductive Event (keys : Keys)
  | startBuild (plan : Plan keys)
  | handle (node : Node) (request : Request) (fates : List Fate)

variable {keys : Keys}

/-- A library is handled after its signature. -/
def Ready (w : World keys) : Node → Bool
  | .sml name => (w.plan.key (.signature name)).isNone || w.handled.contains (.signature name)
  | _ => true

def reportsOf (node : Node) (key : Text) : Ending Unit Outcome → List Report
  | .done (.wrote writes) => [.wrote node key writes]
  | .done (.kept oldKey) => [.kept node key oldKey]
  | _ => []

def handledBy (node : Node) : Ending Unit Outcome → List Node
  | .done _ => [node]
  | _ => []

def step (w : World keys) : Event keys → Option (World keys)
  | .startBuild plan => some { w with plan, handled := [] }
  | .handle node request fates =>
    match w.plan.key node with
    | some key =>
      if Ready w node then
        let run := buildNode keys node key request w.disk fates
        some { w with
          handled := handledBy node run.ending ++ w.handled
          disk := run.state
          reports := reportsOf node key run.ending ++ w.reports }
      else none
    | none => none

/-- The builds of a project, from no output on. -/
def builds (keys : Keys) : Machine (World keys) (Event keys) where
  initial := ⟨⟨fun _ ↦ none, by simp⟩, [], ⟨fun _ ↦ none, fun _ ↦ none⟩, []⟩
  step := step

/-- A restore or build reported writes for the key, or for one from which early cutoff kept them. -/
inductive Certifies (reports : List Report) (node : Node) : Text → List (File × Text) → Prop
  | wrote {key : Text} {writes : List (File × Text)} (h : .wrote node key writes ∈ reports) :
    Certifies reports node key writes
  | kept {key oldKey : Text} {writes : List (File × Text)} (h : .kept node key oldKey ∈ reports)
    (hold : Certifies reports node oldKey writes) : Certifies reports node key writes

/-- A file holds what writes put there. -/
def Carries (disk : Disk) (writes : List (File × Text)) (file : File) : Prop :=
  file ∈ writes.map Prod.fst ∧ disk.files file = written writes file

/-- All outputs of a node are what one completed restore or build put there; the `.ui` of a library with a
signature is what one of the signature put there. -/
def Intact (w : World keys) (node : Node) (key : Text) : Prop :=
  ∃ writes, Certifies w.reports node key writes ∧ ∀ file ∈ outputPaths keys node key,
    Carries w.disk writes file ∨ ∃ name companionKey companionWrites, node = .sml name ∧
      keys.companion key = some companionKey ∧
      Certifies w.reports (.signature name) companionKey companionWrites ∧
      Carries w.disk companionWrites file

/-! ### Orderly builds -/

/-- The manifests that a build of a library or signature has written when it is stopped. -/
def writesDone : List (File × Text) → List Fate → List (File × Text)
  | [], _ => []
  | write :: rest, [] => write :: writesDone rest []
  | write :: rest, .done :: fates => write :: writesDone rest fates
  | _ :: _, _ :: _ => []

/-- The first operations of a program are all done. -/
def Completes (operations : ℕ) (fates : List Fate) : Prop := ∀ fate ∈ fates.take operations, fate = .done

/-- Two sequences of writes put the same into every file that both write. -/
def Agree (writes writes' : List (File × Text)) : Prop :=
  ∀ file content content', (file, content) ∈ writes → (file, content') ∈ writes' → content = content'

/-- A removal of metadata is no operation that fails. -/
def RemovesMetadata (event : Library.Event FileOp Disk) : Prop :=
  ∀ node n, event.op = .removeMetadata node → event.fate ≠ .fails n

/-- A build of a library or signature leaves no manifest that differs from the one that metadata on the
disk is about; its own metadata may be about other manifests if it completes. No theory that has metadata is
built only for its execution plan. -/
def Orderly (w : World keys) : Event keys → Prop
  | .startBuild _ => True
  | .handle (.theory name) request fates => ∀ key, w.plan.key (.theory name) = some key →
    (request.executionPlanOnly = true → w.disk.metadata (.theory name) = none) ∧
    ∀ event ∈ (buildNode keys (.theory name) key request w.disk fates).events, RemovesMetadata event
  | .handle node request fates => ∀ key, w.plan.key node = some key →
    request.forced = true ∨ upToDate keys w.disk node key request = false →
    ∀ other metadata, w.disk.metadata other = some metadata →
      (other = node → ¬ Completes ((libraryWrites keys node key).length + 1) fates) →
      Agree (writesDone (libraryWrites keys node key) fates)
        (libraryWrites keys other metadata.inputKey)

/-! ### Other nodes -/

variable {node : Node} {disk disk' : Disk} {name key : Text} {request : Request}
  {C : Library.Event FileOp Disk → Prop} {I : Disk → Prop}

/-- The files a node may write. -/
def Owns : Node → File → Prop
  | .theory name, file => file.theory = true ∧ file.name = name
  | .sml name, file => file.theory = false ∧ file.name = name
  | .signature name, file => file.theory = false ∧ file.name = name ∧ file.part = .ui

def Touches (node : Node) : FileOp → Prop
  | .write file _ => Owns node file
  | .remove file => Owns node file
  | .writeMetadata other _ => other = node
  | .removeMetadata other => other = node

/-- The disk differs only in files and metadata of the node. -/
structure Frame (node : Node) (disk disk' : Disk) : Prop where
  files : ∀ file, ¬ Owns node file → disk'.files file = disk.files file
  metadata : ∀ other, other ≠ node → disk'.metadata other = disk.metadata other

theorem Frame.refl (node : Node) (disk : Disk) : Frame node disk disk := ⟨fun _ _ ↦ rfl, fun _ _ ↦ rfl⟩

theorem frame_files {file : File} (h : Owns node file) (hframe : Frame node disk disk')
    (content : Option Text) :
    Frame node disk { disk' with files := Function.update disk'.files file content } where
  files other hother := by
    have hne : other ≠ file := fun heq ↦ hother (heq ▸ h)
    exact (Function.update_of_ne hne _ _).trans (hframe.files other hother)
  metadata := hframe.metadata

theorem frame_metadata (hframe : Frame node disk disk') (metadata : Option Metadata) :
    Frame node disk { disk' with metadata := Function.update disk'.metadata node metadata } where
  files := hframe.files
  metadata other hother :=
    (Function.update_of_ne hother _ _).trans (hframe.metadata other hother)

theorem keeps_frame_perform {op : FileOp} (h : Touches node op) :
    Keeps (Frame node disk) (perform op) := by
  refine keeps_step (fun s s' hs hperform ↦ ?_) fun s n hs ↦ ?_
  · rw [← Except.ok.inj hperform]
    cases op with
    | write file content => exact frame_files h hs _
    | remove file => exact frame_files h hs _
    | writeMetadata other metadata =>
      obtain rfl := h
      exact frame_metadata hs _
    | removeMetadata other =>
      obtain rfl := h
      exact frame_metadata hs _
  · cases op with
    | write file content =>
      show Frame node disk (if n = 0 then s else _)
      split
      · exact hs
      · exact frame_files h hs _
    | _ => exact hs

theorem keeps_frame_writeAll {writes : List (File × Text)}
    (h : ∀ write ∈ writes, Owns node write.1) : Keeps (Frame node disk) (writeAll writes) :=
  keeps_each fun write hwrite ↦ keeps_frame_perform (h write hwrite)

theorem keeps_frame_writeMetadata : Keeps (Frame node disk) (writeMetadata node key request) :=
  keeps_frame_perform rfl

theorem both_eq {theory : Bool} {part : Part} {file : File} (h : file ∈ both theory name part) :
    (file.theory = theory ∧ file.name = name) ∧ file.part = part := by
  rcases List.mem_cons.mp h with rfl | h
  · exact ⟨⟨rfl, rfl⟩, rfl⟩
  · rw [List.mem_singleton.mp h]
    exact ⟨⟨rfl, rfl⟩, rfl⟩

theorem owns_both {part : Part} {file : File} (h : file ∈ both true name part) :
    Owns (.theory name) file := (both_eq h).1

theorem owns_writeBoth {part : Part} {content : Text} {write : File × Text}
    (h : write ∈ writeBoth true name part content) : Owns (.theory name) write.1 := by
  obtain ⟨file, hfile, rfl⟩ := List.mem_map.mp h
  exact owns_both hfile

theorem owns_finalWrites {extraOutputs : ℕ} {payload : Payload} {write : File × Text}
    (h : write ∈ finalWrites name extraOutputs payload) : Owns (.theory name) write.1 := by
  rcases List.mem_append.mp h with h | h
  · obtain ⟨index, _, rfl⟩ := List.mem_map.mp h
    exact ⟨rfl, rfl⟩
  · obtain ⟨part, _, hpart⟩ := List.mem_flatMap.mp h
    exact owns_writeBoth hpart

theorem owns_installWrites {entry : Entry} {write : File × Text}
    (h : write ∈ installWrites name entry) : Owns (.theory name) write.1 := by
  simp only [installWrites, List.mem_append, List.mem_cons] at h
  rcases h with (((h | h) | h | h) | h) | h
  · exact owns_writeBoth h
  · exact owns_writeBoth h
  · rw [h]
    exact ⟨rfl, rfl⟩
  · exact owns_writeBoth h
  · split at h
    · exact owns_writeBoth h
    · exact absurd h List.not_mem_nil
  · exact owns_finalWrites h

theorem owns_buildWrites {payload : Payload} {write : File × Text}
    (h : write ∈ buildWrites keys name key payload) : Owns (.theory name) write.1 := by
  rw [buildWrites, List.mem_append, List.mem_append] at h
  rcases h with (h | h) | h
  · split at h
    · exact owns_writeBoth h
    · exact absurd h List.not_mem_nil
  · obtain ⟨part, _, hpart⟩ := List.mem_flatMap.mp h
    exact owns_writeBoth hpart
  · exact owns_finalWrites h

theorem owns_libraryWrites {write : File × Text} (h : write ∈ libraryWrites keys node key) :
    Owns node write.1 := by
  cases node with
  | theory name => exact absurd h List.not_mem_nil
  | sml name =>
    rw [libraryWrites, List.mem_append] at h
    rcases h with h | h
    · obtain ⟨file, hfile, rfl⟩ := List.mem_map.mp h
      exact (both_eq hfile).1
    · split at h
      · obtain ⟨file, hfile, rfl⟩ := List.mem_map.mp h
        exact (both_eq hfile).1
      · exact absurd h List.not_mem_nil
  | signature name =>
    obtain ⟨file, hfile, rfl⟩ := List.mem_map.mp h
    obtain ⟨⟨htheory, hname⟩, hpart⟩ := both_eq hfile
    exact ⟨htheory, hname, hpart⟩

theorem keeps_frame_removeFile {op : FileOp} (h : Touches node op) :
    Keeps (Frame node disk) (removeFile op) :=
  keeps_handle (keeps_frame_perform h) fun _ ↦ keeps_pure ()

theorem keeps_frame_removeFailed : Keeps (Frame (.theory name) disk) (removeFailedCacheOutputs name) :=
  keeps_each fun file hfile ↦ by
    obtain ⟨part, _, hpart⟩ := List.mem_flatMap.mp hfile
    exact keeps_frame_removeFile (owns_both hpart)

theorem keeps_frame_materialize {found : Found} :
    Keeps (Frame (.theory name) disk) (materializeTheoryCache keys name key found) := by
  refine keeps_handle ?_ fun _ ↦ keeps_bind keeps_frame_removeFailed fun _ ↦ keeps_pure none
  cases found with
  | notFound => exact keeps_pure none
  | rejected => exact keeps_raise ()
  | entry entry =>
    dsimp only
    split
    · exact keeps_bind (keeps_frame_writeAll fun _ ↦ owns_installWrites) fun _ ↦ keeps_pure _
    · exact keeps_raise ()

theorem keeps_frame_materializeValidCache {restores : List Restore} :
    Keeps (Frame (.theory name) disk) (materializeValidCache keys name key restores) := by
  induction restores with
  | nil => exact keeps_pure none
  | cons restore rest ih =>
    refine keeps_bind keeps_frame_materialize fun restored ↦ ?_
    split
    · exact keeps_pure _
    · exact keeps_bind keeps_frame_removeFailed fun _ ↦ ih

theorem keeps_frame_buildFromSource :
    Keeps (Frame (.theory name) disk) (buildFromSource keys name key request) := by
  rw [buildFromSource]
  split
  · exact keeps_raise ()
  · split
    · exact keeps_pure _
    · exact keeps_raise ()
  · exact keeps_bind (keeps_frame_writeAll fun _ ↦ owns_buildWrites) fun _ ↦
      keeps_bind keeps_frame_writeMetadata fun _ ↦ keeps_pure _

theorem keeps_frame_restoreOrBuild :
    Keeps (Frame (.theory name) disk) (restoreOrBuild keys name key request) := by
  refine keeps_bind ?_ fun _ ↦ ?_
  · rw [removeMetadata]
    split
    · exact keeps_pure ()
    · exact keeps_frame_removeFile rfl
  · split
    · refine keeps_bind keeps_frame_materializeValidCache fun restored ↦ ?_
      cases restored with
      | some writes => exact keeps_bind keeps_frame_writeMetadata fun _ ↦ keeps_pure _
      | none => exact keeps_frame_buildFromSource
    · exact keeps_frame_buildFromSource

theorem keeps_frame_refresh : Keeps (Frame node disk) (refresh node key request) := by
  refine keeps_bind ?_ fun _ ↦ keeps_pure _
  rw [refreshMetadata]
  split
  · exact keeps_frame_writeMetadata
  · exact keeps_pure ()

theorem keeps_frame_buildSmlLike : Keeps (Frame node disk) (buildSmlLike keys node key request) := by
  refine keeps_bind keeps_get fun _ ↦ ?_
  split
  · exact keeps_frame_refresh
  · exact keeps_bind (keeps_frame_writeAll fun _ ↦ owns_libraryWrites) fun _ ↦
      keeps_bind keeps_frame_writeMetadata fun _ ↦ keeps_pure _

/-- A build of a node touches only its own files and metadata, wherever it is stopped. -/
theorem keeps_frame_buildNode : Keeps (Frame node disk) (buildNode keys node key request) := by
  cases node with
  | theory name =>
    refine keeps_bind keeps_get fun _ ↦ ?_
    split
    · exact keeps_frame_restoreOrBuild
    split
    · exact keeps_frame_refresh
    split
    · exact keeps_bind keeps_frame_writeMetadata fun _ ↦ keeps_pure _
    · exact keeps_frame_restoreOrBuild
  | sml name => exact keeps_frame_buildSmlLike
  | signature name => exact keeps_frame_buildSmlLike

/-! ### Theories -/

/-- The writes reach every output of a node, and the disk holds what they put there. -/
def Wrote (keys : Keys) (disk : Disk) (node : Node) (key : Text) (writes : List (File × Text)) : Prop :=
  ∀ file ∈ outputPaths keys node key, Carries disk writes file

/-- Writes that are not stopped leave the files they write, and no writes touch metadata. -/
theorem writeAll_spec {writes : List (File × Text)} :
    Prog.Holds C (writeAll writes) disk fun ending disk' ↦ disk'.metadata = disk.metadata ∧
      ∀ u, ending = .done u → disk'.files = overwrite disk.files writes := by
  induction writes generalizing disk with
  | nil => exact holds_pure ⟨rfl, fun _ _ ↦ rfl⟩
  | cons write rest ih =>
    refine holds_bind (holds_step (fun s' h _ ↦ ?_) (fun e h _ ↦ ?_) (fun n _ ↦ ?_) fun n _ ↦ ?_)
    · rw [← Except.ok.inj h]
      exact ih
    · exact absurd h (by simp [device])
    · exact ⟨by dsimp only [device]; split <;> rfl, fun _ h ↦ absurd h (by simp)⟩
    · exact ⟨by dsimp only [device]; split <;> rfl, fun _ h ↦ absurd h (by simp)⟩

/-- Removing the outputs of a failed restore leaves the metadata. -/
theorem keeps_metadata_removeFailed {metadata : Node → Option Metadata} :
    Keeps (fun disk ↦ disk.metadata = metadata) (removeFailedCacheOutputs name) :=
  keeps_each fun file _ ↦ keeps_handle (keeps_step (fun s s' hs h ↦ by
    rw [← Except.ok.inj h]
    exact hs) fun s n hs ↦ hs) fun _ ↦ keeps_pure ()

theorem mem_map_writeBoth {theory : Bool} {part : Part} {content : Text} {file : File}
    (h : file ∈ both theory name part) : file ∈ (writeBoth theory name part content).map Prod.fst := by
  rw [writeBoth, List.map_map]
  exact List.mem_map.mpr ⟨file, h, rfl⟩

theorem mem_map_finalWrites {extraOutputs : ℕ} {payload : Payload} {part : Part} {file : File}
    (hpart : part ∈ [Part.ui, .uo, .scriptUo]) (h : file ∈ both true name part) :
    file ∈ (finalWrites name extraOutputs payload).map Prod.fst := by
  obtain ⟨write, hwrite, hfile⟩ := List.mem_map.mp (mem_map_writeBoth h)
  exact List.mem_map.mpr ⟨write, List.mem_append_right _ (List.mem_flatMap.mpr ⟨part, hpart, hwrite⟩),
    hfile⟩

theorem mem_map_finalWrites_extra {extraOutputs index : ℕ} {payload : Payload}
    (h : index < extraOutputs) :
    (⟨true, name, .extra index, false⟩ : File) ∈ (finalWrites name extraOutputs payload).map Prod.fst :=
  List.mem_map.mpr ⟨_, List.mem_append_left _ (List.mem_map.mpr ⟨index, List.mem_range.mpr h, rfl⟩), rfl⟩

/-- The outputs of a theory: its load manifests, its data, its trace if its kernel traces, and its extra
outputs. -/
theorem mem_outputPaths_theory {file : File} (h : file ∈ outputPaths keys (.theory name) key) :
    (∃ part ∈ [Part.ui, .uo, .scriptUo], file ∈ both true name part) ∨
    (∃ part ∈ [Part.dat, .sig, .sml], file ∈ both true name part) ∨
    (keys.tracing (keys.selfKey key) = true ∧ file ∈ both true name .trace) ∨
    ∃ index < keys.extraOutputs (keys.selfKey key), file = ⟨true, name, .extra index, false⟩ := by
  rw [outputPaths, List.mem_append] at h
  rcases h with h | h
  · obtain ⟨part, hpart, hfile⟩ := List.mem_flatMap.mp h
    rcases List.mem_append.mp hpart with hpart | hpart
    · have hcases : part ∈ [Part.ui, .uo, .scriptUo] ∨ part ∈ [Part.dat, .sig, .sml] := by
        simp only [List.mem_cons, List.not_mem_nil, or_false] at hpart ⊢
        tauto
      exact hcases.imp (fun hpart ↦ ⟨part, hpart, hfile⟩) fun hpart ↦ .inl ⟨part, hpart, hfile⟩
    · split at hpart
      · next htracing =>
        rw [List.mem_singleton.mp hpart] at hfile
        exact .inr (.inr (.inl ⟨htracing, hfile⟩))
      · exact absurd hpart List.not_mem_nil
  · obtain ⟨index, hindex, hfile⟩ := List.mem_map.mp h
    exact .inr (.inr (.inr ⟨index, List.mem_range.mp hindex, hfile.symm⟩))

/-- An entry that passes the check is written to every output. -/
theorem outputs_installed {entry : Entry}
    (htrace : keys.tracing (keys.selfKey key) = true → entry.hasTrace = true)
    (hextra : entry.extraOutputs = keys.extraOutputs (keys.selfKey key)) {file : File}
    (h : file ∈ outputPaths keys (.theory name) key) :
    file ∈ (installWrites name entry).map Prod.fst := by
  simp only [installWrites, List.map_append, List.map_cons, List.mem_append, List.mem_cons]
  rcases mem_outputPaths_theory h with
    ⟨part, hpart, hfile⟩ | ⟨part, hpart, hfile⟩ | ⟨htracing, hfile⟩ | ⟨index, hindex, rfl⟩
  · exact .inr (mem_map_finalWrites hpart hfile)
  · refine .inl (.inl ?_)
    simp only [List.mem_cons, List.not_mem_nil, or_false] at hpart
    rcases hpart with rfl | rfl | rfl
    · exact .inl (.inl (mem_map_writeBoth hfile))
    · exact .inl (.inr (mem_map_writeBoth hfile))
    · exact .inr (.inr (mem_map_writeBoth hfile))
  · refine .inl (.inr ?_)
    rw [if_pos (htrace htracing)]
    exact mem_map_writeBoth hfile
  · exact .inr (mem_map_finalWrites_extra (hextra ▸ hindex))

/-- A build from source writes every output. -/
theorem outputs_built {payload : Payload} {file : File}
    (h : file ∈ outputPaths keys (.theory name) key) :
    file ∈ (buildWrites keys name key payload).map Prod.fst := by
  simp only [buildWrites, List.map_append, List.mem_append]
  rcases mem_outputPaths_theory h with
    ⟨part, hpart, hfile⟩ | ⟨part, hpart, hfile⟩ | ⟨htracing, hfile⟩ | ⟨index, hindex, rfl⟩
  · exact .inr (mem_map_finalWrites hpart hfile)
  · obtain ⟨write, hwrite, hfst⟩ := List.mem_map.mp (mem_map_writeBoth hfile)
    exact .inl (.inr (List.mem_map.mpr ⟨write, List.mem_flatMap.mpr ⟨part, hpart, hwrite⟩, hfst⟩))
  · rw [if_pos htracing]
    exact .inl (.inl (mem_map_writeBoth hfile))
  · exact .inr (mem_map_finalWrites_extra hindex)

theorem materializeTheoryCache_spec {found : Found} :
    Prog.Holds C (materializeTheoryCache keys name key found) disk fun ending disk' ↦
      disk'.metadata = disk.metadata ∧
      ∀ writes, ending = .done (some writes) → Wrote keys disk' (.theory name) key writes := by
  refine holds_handle (Prog.Holds.mono (Q := fun ending disk' ↦ disk'.metadata = disk.metadata ∧
    ∀ writes, ending = .done (some writes) → Wrote keys disk' (.theory name) key writes) ?_
      fun ending disk' h ↦ ?_)
  · cases found with
    | notFound => exact holds_pure ⟨rfl, fun _ h ↦ absurd h (by simp)⟩
    | rejected => exact holds_raise ⟨rfl, fun _ h ↦ absurd h (by simp)⟩
    | entry entry =>
      dsimp only
      split
      · next hchecked =>
        refine holds_bind (writeAll_spec.mono fun ending disk' h ↦ ?_)
        cases ending with
        | done u =>
          refine holds_pure ⟨h.1, fun writes hwrites file hfile ↦ ?_⟩
          have hmem := outputs_installed hchecked.1 hchecked.2 hfile
          rw [Ending.done.injEq, Option.some.injEq] at hwrites
          rw [← hwrites, Carries, h.2 u rfl]
          exact ⟨hmem, overwrite_of_written hmem⟩
        | raised e => exact ⟨h.1, fun _ h ↦ absurd h (by simp)⟩
        | killed => exact ⟨h.1, fun _ h ↦ absurd h (by simp)⟩
      · exact holds_raise ⟨rfl, fun _ h ↦ absurd h (by simp)⟩
  · cases ending with
    | done restored => exact h
    | killed => exact ⟨h.1, fun _ h ↦ absurd h (by simp)⟩
    | raised e =>
      refine holds_bind ((keeps_metadata_removeFailed.holds h.1).mono fun ending disk'' h ↦ ?_)
      cases ending with
      | done u => exact holds_pure ⟨h, fun _ h ↦ absurd h (by simp)⟩
      | raised e => exact ⟨h, fun _ h ↦ absurd h (by simp)⟩
      | killed => exact ⟨h, fun _ h ↦ absurd h (by simp)⟩

theorem materializeValidCache_spec {restores : List Restore} :
    Prog.Holds C (materializeValidCache keys name key restores) disk fun ending disk' ↦
      disk'.metadata = disk.metadata ∧
      ∀ writes, ending = .done (some writes) → Wrote keys disk' (.theory name) key writes := by
  induction restores generalizing disk with
  | nil => exact holds_pure ⟨rfl, fun _ h ↦ absurd h (by simp)⟩
  | cons restore rest ih =>
    refine holds_bind (materializeTheoryCache_spec.mono fun ending disk' h ↦ ?_)
    cases ending with
    | raised e => exact ⟨h.1, fun _ h ↦ absurd h (by simp)⟩
    | killed => exact ⟨h.1, fun _ h ↦ absurd h (by simp)⟩
    | done restored =>
      dsimp only
      split
      · exact holds_pure ⟨h.1, fun writes hwrites ↦ h.2 writes hwrites⟩
      · refine holds_bind ((keeps_metadata_removeFailed.holds h.1).mono fun ending disk'' h ↦ ?_)
        cases ending with
        | done u =>
          refine ih.mono fun ending disk₃ h' ↦ ?_
          rw [h] at h'
          exact h'
        | raised e => exact ⟨h, fun _ h ↦ absurd h (by simp)⟩
        | killed => exact ⟨h, fun _ h ↦ absurd h (by simp)⟩

/-- How a build of a theory that removed its metadata ends: with the metadata of the key and the outputs
that it wrote, or without metadata. -/
def Replaced (keys : Keys) (name key : Text) (ending : Ending Unit Outcome) (disk : Disk) : Prop :=
  (disk.metadata (.theory name) = none ∧ reportsOf (.theory name) key ending = []) ∨
  ∃ writes, ending = .done (.wrote writes) ∧ Wrote keys disk (.theory name) key writes ∧
    ∃ metadata, disk.metadata (.theory name) = some metadata ∧ metadata.inputKey = key

theorem writeMetadata_spec {writes : List (File × Text)}
    (hnone : disk.metadata (.theory name) = none)
    (hwrote : Wrote keys disk (.theory name) key writes) :
    Prog.Holds C (Prog.bind (writeMetadata (.theory name) key request) fun _ ↦
      Prog.pure (.wrote writes)) disk (Replaced keys name key) := by
  rw [writeMetadata, perform]
  refine holds_bind (holds_step (fun s' h _ ↦ ?_) (fun e h _ ↦ ?_) (fun n _ ↦ ?_) fun n _ ↦ ?_)
  · rw [← Except.ok.inj h]
    refine holds_pure (.inr ⟨writes, rfl, hwrote, _, Function.update_self _ _ _, rfl⟩)
  · exact absurd h (by simp [device])
  · exact .inl ⟨hnone, rfl⟩
  · exact .inl ⟨hnone, rfl⟩

theorem buildFromSource_spec (hnone : disk.metadata (.theory name) = none) :
    Prog.Holds C (buildFromSource keys name key request) disk (Replaced keys name key) := by
  rw [buildFromSource]
  split
  · exact holds_raise (.inl ⟨hnone, rfl⟩)
  · split
    · exact holds_pure (.inl ⟨hnone, rfl⟩)
    · exact holds_raise (.inl ⟨hnone, rfl⟩)
  · next payload _ =>
    refine holds_bind (writeAll_spec.mono fun ending disk' h ↦ ?_)
    have hnone' : disk'.metadata (.theory name) = none := by
      rw [h.1]
      exact hnone
    cases ending with
    | raised e => exact .inl ⟨hnone', rfl⟩
    | killed => exact .inl ⟨hnone', rfl⟩
    | done u =>
      refine writeMetadata_spec hnone' fun file hfile ↦ ?_
      have hmem := @outputs_built _ _ _ payload _ hfile
      rw [Carries, h.2 u rfl]
      exact ⟨hmem, overwrite_of_written hmem⟩

theorem restore_spec (hnone : disk.metadata (.theory name) = none) :
    Prog.Holds C (if request.cacheRestoreAllowed then
        Prog.bind (materializeValidCache keys name key request.restores) fun restored ↦
          match restored with
          | some writes => Prog.bind (writeMetadata (.theory name) key request) fun _ ↦
              Prog.pure (.wrote writes)
          | none => buildFromSource keys name key request
      else buildFromSource keys name key request) disk (Replaced keys name key) := by
  split
  · refine holds_bind (materializeValidCache_spec.mono fun ending disk' h ↦ ?_)
    have hnone' : disk'.metadata (.theory name) = none := by
      rw [h.1]
      exact hnone
    cases ending with
    | raised e => exact .inl ⟨hnone', rfl⟩
    | killed => exact .inl ⟨hnone', rfl⟩
    | done restored =>
      cases restored with
      | none => exact buildFromSource_spec hnone'
      | some writes => exact writeMetadata_spec hnone' (h.2 writes rfl)
  · exact buildFromSource_spec hnone

/-- A build that replaces the outputs of a theory removes the metadata first, or is stopped before it has
done anything. -/
theorem restoreOrBuild_spec
    (hplan : request.executionPlanOnly = true → disk.metadata (.theory name) = none) :
    Prog.Holds RemovesMetadata (restoreOrBuild keys name key request) disk fun ending disk' ↦
      Replaced keys name key ending disk' ∨
        disk' = disk ∧ reportsOf (.theory name) key ending = [] := by
  refine holds_bind ?_
  rw [removeMetadata]
  split
  · next honly => exact holds_pure ((restore_spec (hplan honly)).mono fun _ _ h ↦ .inl h)
  · refine holds_handle (holds_step (fun s' h _ ↦ ?_) (fun e h _ ↦ ?_) (fun n hC ↦ ?_) fun n _ ↦ ?_)
    · rw [← Except.ok.inj h]
      exact (restore_spec (Function.update_self _ _ _)).mono fun _ _ h ↦ .inl h
    · exact absurd h (by simp [device])
    · exact absurd rfl (hC _ n rfl)
    · exact .inr ⟨rfl, rfl⟩

/-- How a build of a theory that touches no output ends: as it was found, up to date, or by early cutoff,
with metadata of the key for the same outputs. -/
def Reused (keys : Keys) (name key : Text) (disk : Disk) (ending : Ending Unit Outcome)
    (disk' : Disk) : Prop :=
  disk' = disk ∧ reportsOf (.theory name) key ending = [] ∨
  disk'.files = disk.files ∧ ∃ old new, disk.metadata (.theory name) = some old ∧
    disk'.metadata (.theory name) = some new ∧ new.inputKey = key ∧
    (old.inputKey = key ∧ reportsOf (.theory name) key ending = [] ∨
      keys.selfKey old.inputKey = keys.selfKey key ∧ ending = .done (.kept old.inputKey))

theorem metadata_of_upToDate {node : Node} (h : upToDate keys disk node key request = true) :
    outputsExist keys disk node key = true ∧
      ∃ metadata, disk.metadata node = some metadata ∧ metadata.inputKey = key := by
  rw [upToDate, Bool.and_eq_true] at h
  refine ⟨h.1, ?_⟩
  have hmetadata := h.2
  split at hmetadata
  · next metadata heq =>
    rw [Bool.and_eq_true, decide_eq_true_eq] at hmetadata
    exact ⟨metadata, heq, hmetadata.1⟩
  · exact absurd hmetadata Bool.false_ne_true

theorem metadata_of_earlyCutoff {node : Node} {metadata : Metadata}
    (h : earlyCutoffMetadata keys disk node key request = some metadata) :
    outputsExist keys disk node key = true ∧ disk.metadata node = some metadata ∧
      keys.selfKey metadata.inputKey = keys.selfKey key := by
  rw [earlyCutoffMetadata] at h
  split at h
  · next hexist =>
    split at h
    · next found hfound =>
      split at h
      · next hsame =>
        rw [Option.some.injEq] at h
        rw [← h]
        exact ⟨hexist, hfound, hsame.1⟩
      · exact absurd h (by simp)
    · exact absurd h (by simp)
  · exact absurd h (by simp)

/-- Up to date, only the metadata may be written again. -/
theorem refresh_spec {node : Node} :
    Prog.Holds C (refresh node key request) disk fun ending disk' ↦
      reportsOf node key ending = [] ∧ disk'.files = disk.files ∧
        (disk'.metadata = disk.metadata ∨
          disk'.metadata = Function.update disk.metadata node (some ⟨key, request.depsOutputKey⟩)) := by
  refine holds_bind ?_
  rw [refreshMetadata]
  split
  · rw [writeMetadata, perform]
    refine holds_step (fun s' h _ ↦ ?_) (fun e h _ ↦ ?_) (fun n _ ↦ ?_) fun n _ ↦ ?_
    · rw [← Except.ok.inj h]
      exact holds_pure ⟨rfl, rfl, .inr rfl⟩
    · exact absurd h (by simp [device])
    · exact ⟨rfl, rfl, .inl rfl⟩
    · exact ⟨rfl, rfl, .inl rfl⟩
  · exact holds_pure (holds_pure ⟨rfl, rfl, .inl rfl⟩)

/-- A build of a theory replaces its outputs after removing its metadata, or reuses them. -/
theorem buildTheoryNode_spec
    (hplan : request.executionPlanOnly = true → disk.metadata (.theory name) = none) :
    Prog.Holds RemovesMetadata (buildTheoryNode keys name key request) disk fun ending disk' ↦
      Replaced keys name key ending disk' ∨ Reused keys name key disk ending disk' := by
  have hreplace := (@restoreOrBuild_spec keys disk name key request hplan).mono
    (R := fun ending disk' ↦ Replaced keys name key ending disk' ∨
      Reused keys name key disk ending disk') fun _ _ h ↦ h.imp_right .inl
  refine holds_get_bind ?_
  split
  · exact hreplace
  split
  · next hcurrent =>
    obtain ⟨_, old, hold, hkey⟩ := metadata_of_upToDate hcurrent
    refine refresh_spec.mono fun ending disk' ⟨hreports, hfiles, hmetadata⟩ ↦ .inr (.inr ⟨hfiles, old, ?_⟩)
    rcases hmetadata with hsame | hwritten
    · exact ⟨old, hold, by rw [hsame, hold], hkey, .inl ⟨hkey, hreports⟩⟩
    · exact ⟨_, hold, by rw [hwritten, Function.update_self], rfl, .inl ⟨hkey, hreports⟩⟩
  · split
    · next old hcutoff =>
      obtain ⟨_, hold, hself⟩ := metadata_of_earlyCutoff hcutoff
      rw [writeMetadata, perform]
      refine holds_bind (holds_step (fun s' h _ ↦ ?_) (fun e h _ ↦ ?_) (fun n _ ↦ ?_) fun n _ ↦ ?_)
      · rw [← Except.ok.inj h]
        exact holds_pure (.inr (.inr ⟨rfl, old, _, hold, Function.update_self _ _ _, rfl,
          .inr ⟨hself, rfl⟩⟩))
      · exact absurd h (by simp [device])
      · exact .inr (.inl ⟨rfl, rfl⟩)
      · exact .inr (.inl ⟨rfl, rfl⟩)
    · exact hreplace

/-! ### Libraries and signatures -/

theorem writesDone_of_done {writes : List (File × Text)} {fates : List Fate}
    (h : Completes writes.length fates) : writesDone writes fates = writes := by
  induction writes generalizing fates with
  | nil => rfl
  | cons write rest ih =>
    cases fates with
    | nil => exact congrArg (write :: ·) (ih fun _ hmem ↦ absurd hmem (by simp))
    | cons fate fates =>
      rw [Completes, List.length_cons, List.take_succ_cons] at h
      rw [h fate List.mem_cons_self]
      exact congrArg (write :: ·) (ih fun fate hmem ↦ h fate (List.mem_cons_of_mem _ hmem))

/-- What a stopped sequence of writes leaves: what was written until then, or no file. -/
def StoppedAt (disk : Disk) (writes : List (File × Text)) (fates : List Fate) (disk' : Disk) : Prop :=
  disk'.metadata = disk.metadata ∧ ∀ file, disk'.files file = none ∨
    disk'.files file = overwrite disk.files (writesDone writes fates) file

/-- A write that is stopped leaves the file as it was, or no file. -/
theorem stopped_partly (write : File × Text) (rest : List (File × Text)) (disk : Disk) (n : ℕ)
    (fate : Fate) (hfate : fate ≠ .done) (fates : List Fate) :
    StoppedAt disk (write :: rest) (fate :: fates)
      (device.partly (.write write.1 write.2) n disk) := by
  have hnothing : writesDone (write :: rest) (fate :: fates) = [] := by
    cases fate with
    | done => exact absurd rfl hfate
    | fails n => rfl
    | killed n => rfl
  rw [StoppedAt, hnothing]
  dsimp only [device]
  split
  · exact ⟨rfl, fun _ ↦ .inr rfl⟩
  · refine ⟨rfl, fun file ↦ ?_⟩
    by_cases hfile : file = write.1
    · exact .inl (by rw [hfile]; exact Function.update_self _ _ _)
    · exact .inr (Function.update_of_ne hfile _ _)

/-- Writes are all done, or stopped at one of them. -/
theorem writeAll_run (writes : List (File × Text)) (disk : Disk) (fates : List Fate) :
    (Completes writes.length fates ∧ (writeAll writes disk fates).ending = .done () ∧
      (writeAll writes disk fates).state = { disk with files := overwrite disk.files writes } ∧
      (writeAll writes disk fates).fates = fates.drop writes.length) ∨
    ¬ Completes writes.length fates ∧ StoppedAt disk writes fates (writeAll writes disk fates).state ∧
      ((writeAll writes disk fates).ending = .raised () ∨
        (writeAll writes disk fates).ending = .killed) := by
  induction writes generalizing disk fates with
  | nil =>
    exact .inl ⟨fun _ hmem ↦ absurd hmem (by simp), rfl, rfl, rfl⟩
  | cons write rest ih =>
    have hnot : ∀ fate fates, fate ≠ .done → ¬ Completes (write :: rest).length (fate :: fates) :=
      fun fate fates hfate hcompletes ↦
        hfate (hcompletes fate (by rw [List.length_cons, List.take_succ_cons]; exact List.mem_cons_self))
    rcases fates with _ | ⟨_ | n | n, fates⟩
    · rcases ih { disk with files := Function.update disk.files write.1 (some write.2) } [] with
        ⟨_, hending, hstate, hfates⟩ | ⟨hstopped, _⟩
      · refine .inl ⟨fun _ hmem ↦ absurd hmem (by simp), hending, hstate, ?_⟩
        exact hfates.trans (by simp)
      · exact absurd (fun _ hmem ↦ absurd hmem (by simp)) hstopped
    · rcases ih { disk with files := Function.update disk.files write.1 (some write.2) } fates with
        ⟨hcompletes, hending, hstate, hfates⟩ | ⟨hstopped, hstate, hending⟩
      · refine .inl ⟨fun fate hmem ↦ ?_, hending, hstate, hfates⟩
        rw [List.length_cons, List.take_succ_cons] at hmem
        rcases List.mem_cons.mp hmem with rfl | hmem
        · rfl
        · exact hcompletes fate hmem
      · refine .inr ⟨fun hcompletes ↦ hstopped fun fate hmem ↦ hcompletes fate ?_, hstate, hending⟩
        rw [List.length_cons, List.take_succ_cons]
        exact List.mem_cons_of_mem _ hmem
    · exact .inr ⟨hnot _ _ (by simp), stopped_partly write rest disk n _ (by simp) fates, .inl rfl⟩
    · exact .inr ⟨hnot _ _ (by simp), stopped_partly write rest disk n _ (by simp) fates, .inr rfl⟩

/-- Writing manifests and then the metadata is done as a whole, or stopped with the metadata as it was. -/
theorem writeManifests_run (node : Node) (key : Text) (request : Request)
    (writes : List (File × Text)) (disk : Disk) (fates : List Fate) :
    let run := Prog.bind (writeAll writes) (fun _ ↦ Prog.bind (writeMetadata node key request) fun _ ↦
      Prog.pure (Outcome.wrote writes)) disk fates
    (Completes writes.length fates ∧ run.ending = .done (.wrote writes) ∧
      run.state.files = overwrite disk.files writes ∧
      run.state.metadata = Function.update disk.metadata node (some ⟨key, request.depsOutputKey⟩)) ∨
    ¬ Completes (writes.length + 1) fates ∧ StoppedAt disk writes fates run.state ∧
      (run.ending = .raised () ∨ run.ending = .killed) := by
  intro run
  rcases writeAll_run writes disk fates with
    ⟨hcompletes, hending, hstate, hfates⟩ | ⟨hstopped, hstate, hending⟩
  · have hrun : run.ending = (Prog.bind (writeMetadata node key request) (fun _ ↦
        Prog.pure (Outcome.wrote writes)) { disk with files := overwrite disk.files writes }
          (fates.drop writes.length)).ending ∧
        run.state = (Prog.bind (writeMetadata node key request) (fun _ ↦
        Prog.pure (Outcome.wrote writes)) { disk with files := overwrite disk.files writes }
          (fates.drop writes.length)).state := by
      rw [← hstate, ← hfates]
      show (Prog.bind _ _ disk fates).ending = _ ∧ (Prog.bind _ _ disk fates).state = _
      rw [Prog.bind]
      dsimp only
      rw [hending]
      exact ⟨rfl, rfl⟩
    rw [hrun.1, hrun.2]
    have hstoppedHere : ∀ fate rest, fates.drop writes.length = fate :: rest → fate ≠ .done →
        ¬ Completes (writes.length + 1) fates ∧
          StoppedAt disk writes fates { disk with files := overwrite disk.files writes } := by
      intro fate rest hdrop hfate
      constructor
      · intro hall
        refine hfate (hall fate ?_)
        rw [List.take_add, hdrop]
        exact List.mem_append_right _ List.mem_cons_self
      · exact ⟨rfl, fun file ↦ .inr (by rw [writesDone_of_done hcompletes])⟩
    rcases hdrop : fates.drop writes.length with _ | ⟨_ | n | n, rest⟩
    · exact .inl ⟨hcompletes, rfl, rfl, rfl⟩
    · exact .inl ⟨hcompletes, rfl, rfl, rfl⟩
    · obtain ⟨hnot, hstopped⟩ := hstoppedHere _ _ hdrop (by simp)
      exact .inr ⟨hnot, hstopped, .inl rfl⟩
    · obtain ⟨hnot, hstopped⟩ := hstoppedHere _ _ hdrop (by simp)
      exact .inr ⟨hnot, hstopped, .inr rfl⟩
  · have hrun : run.state = (writeAll writes disk fates).state ∧
        (run.ending = .raised () ∨ run.ending = .killed) := by
      show (Prog.bind _ _ disk fates).state = _ ∧
        ((Prog.bind _ _ disk fates).ending = _ ∨ (Prog.bind _ _ disk fates).ending = _)
      rw [Prog.bind]
      dsimp only
      rcases hending with hending | hending
      · rw [hending]
        exact ⟨rfl, .inl rfl⟩
      · rw [hending]
        exact ⟨rfl, .inr rfl⟩
    refine .inr ⟨fun hall ↦ hstopped fun fate hmem ↦ hall fate ?_, hrun.1 ▸ hstate, hrun.2⟩
    rw [List.take_add]
    exact List.mem_append_left _ hmem

theorem buildSmlLike_eq (node : Node) (key : Text) (request : Request) (disk : Disk)
    (fates : List Fate) : buildSmlLike keys node key request disk fates =
      (if !request.forced && upToDate keys disk node key request then refresh node key request
      else Prog.bind (writeAll (libraryWrites keys node key)) fun _ ↦
        Prog.bind (writeMetadata node key request) fun _ ↦
          Prog.pure (Outcome.wrote (libraryWrites keys node key))) disk fates := rfl

/-- A build of a library or signature writes its manifests and metadata, or leaves them as they are. -/
theorem buildSmlLike_run (node : Node) (key : Text) (request : Request) (disk : Disk)
    (fates : List Fate) :
    let run := buildSmlLike keys node key request disk fates
    let writes := libraryWrites keys node key
    ((∃ metadata, disk.metadata node = some metadata ∧ metadata.inputKey = key) ∧
      reportsOf node key run.ending = [] ∧ run.state.files = disk.files ∧
      (run.state.metadata = disk.metadata ∨
        run.state.metadata =
          Function.update disk.metadata node (some ⟨key, request.depsOutputKey⟩))) ∨
    ((request.forced = true ∨ upToDate keys disk node key request = false) ∧
      ((Completes writes.length fates ∧ run.ending = .done (.wrote writes) ∧
        run.state.files = overwrite disk.files writes ∧
        run.state.metadata =
          Function.update disk.metadata node (some ⟨key, request.depsOutputKey⟩)) ∨
      ¬ Completes (writes.length + 1) fates ∧ StoppedAt disk writes fates run.state ∧
        (run.ending = .raised () ∨ run.ending = .killed))) := by
  intro run writes
  by_cases hcurrent : (!request.forced && upToDate keys disk node key request) = true
  · have hrun : run = refresh node key request disk fates :=
      (buildSmlLike_eq node key request disk fates).trans (by rw [if_pos hcurrent])
    rw [Bool.and_eq_true] at hcurrent
    obtain ⟨_, hmetadata⟩ := metadata_of_upToDate hcurrent.2
    refine .inl ⟨hmetadata, ?_⟩
    rw [hrun]
    exact @refresh_spec disk key request (fun _ ↦ True) node fates fun _ _ ↦ trivial
  · have hrun : run = Prog.bind (writeAll writes) (fun _ ↦ Prog.bind (writeMetadata node key request)
        fun _ ↦ Prog.pure (Outcome.wrote writes)) disk fates :=
      (buildSmlLike_eq node key request disk fates).trans (by rw [if_neg hcurrent])
    rw [Bool.and_eq_true, not_and_or, Bool.not_eq_true', Bool.not_eq_false, Bool.not_eq_true]
      at hcurrent
    refine .inr ⟨hcurrent, ?_⟩
    rw [hrun]
    exact writeManifests_run node key request writes disk fates

/-- A library or signature writes every manifest once. -/
theorem libraryWrites_agree (node : Node) (key : Text) :
    Agree (libraryWrites keys node key) (libraryWrites keys node key) := by
  intro file content content' h h'
  cases node with
  | theory name => exact absurd h List.not_mem_nil
  | signature name =>
    obtain ⟨_, _, hfile⟩ := List.mem_map.mp h
    obtain ⟨_, _, hfile'⟩ := List.mem_map.mp h'
    rw [← (Prod.mk.inj hfile).2, ← (Prod.mk.inj hfile').2]
  | sml name =>
    have hcontent : ∀ content, (file, content) ∈ libraryWrites keys (.sml name) key →
        file.part = .uo ∧ content = keys.manifest (.sml name) key ∨
          file.part = .ui ∧ content = emptyManifest := by
      intro content h
      rw [libraryWrites, List.mem_append] at h
      rcases h with h | h
      · obtain ⟨_, hmem, hfile⟩ := List.mem_map.mp h
        obtain ⟨rfl, rfl⟩ := Prod.mk.inj hfile
        exact .inl ⟨(both_eq hmem).2, rfl⟩
      · split at h
        · obtain ⟨_, hmem, hfile⟩ := List.mem_map.mp h
          obtain ⟨rfl, rfl⟩ := Prod.mk.inj hfile
          exact .inr ⟨(both_eq hmem).2, rfl⟩
        · exact absurd h List.not_mem_nil
    rcases hcontent content h with ⟨hpart, hc⟩ | ⟨hpart, hc⟩
    · rcases hcontent content' h' with ⟨_, hc'⟩ | ⟨hpart', _⟩
      · rw [hc, hc']
      · rw [hpart] at hpart'
        exact absurd hpart' (by simp)
    · rcases hcontent content' h' with ⟨hpart', _⟩ | ⟨_, hc'⟩
      · rw [hpart] at hpart'
        exact absurd hpart' (by simp)
      · rw [hc, hc']

/-! ### Sound worlds -/

theorem Certifies.mono {reports reports' : List Report} (h : reports ⊆ reports') {node : Node}
    {writes : List (File × Text)} (hcertifies : Certifies reports node key writes) :
    Certifies reports' node key writes := by
  induction hcertifies with
  | wrote hmem => exact .wrote (h hmem)
  | kept hmem _ ih => exact .kept (h hmem) ih

/-- The manifests that a library's or signature's metadata is about are there, or files are missing. -/
def ManifestsHold (keys : Keys) (disk : Disk) (node : Node) (key : Text) : Prop :=
  ∀ file content, (file, content) ∈ libraryWrites keys node key →
    disk.files file = none ∨ disk.files file = some content

/-- Metadata of a theory is about what a restore or build put there, metadata of a library or signature
about manifests that a build wrote, and a signature handled in this build has metadata of its current key. -/
structure World.Sound (w : World keys) : Prop where
  theories : ∀ name metadata, w.disk.metadata (.theory name) = some metadata →
    ∃ writes, Certifies w.reports (.theory name) metadata.inputKey writes ∧
      Wrote keys w.disk (.theory name) metadata.inputKey writes
  libraries : ∀ node metadata, (∀ name, node ≠ .theory name) → w.disk.metadata node = some metadata →
    .wrote node metadata.inputKey (libraryWrites keys node metadata.inputKey) ∈ w.reports ∧
      ManifestsHold keys w.disk node metadata.inputKey
  handled : ∀ name, .signature name ∈ w.handled → ∃ metadata,
    w.disk.metadata (.signature name) = some metadata ∧
      w.plan.key (.signature name) = some metadata.inputKey

theorem owns_outputPaths {file : File} (h : file ∈ outputPaths keys (.theory name) key) :
    Owns (.theory name) file := by
  rcases mem_outputPaths_theory h with
    ⟨_, _, hfile⟩ | ⟨_, _, hfile⟩ | ⟨_, hfile⟩ | ⟨index, _, rfl⟩
  · exact owns_both hfile
  · exact owns_both hfile
  · exact owns_both hfile
  · exact ⟨rfl, rfl⟩

/-- A theory's files belong to no other node. -/
theorem not_owns_of_ne {file : File} (hne : node ≠ .theory name) (h : Owns (.theory name) file) :
    ¬ Owns node file := by
  intro hother
  cases node with
  | theory other => exact hne (by rw [← h.2, ← hother.2])
  | sml other => exact absurd (h.1.symm.trans hother.1) (by simp)
  | signature other => exact absurd (h.1.symm.trans hother.1) (by simp)

/-- A build of another node leaves a theory's outputs. -/
theorem Wrote.frame {writes : List (File × Text)} (h : Wrote keys disk (.theory name) key writes)
    (hframe : Frame node disk disk') (hne : node ≠ .theory name) :
    Wrote keys disk' (.theory name) key writes := by
  intro file hfile
  rw [Carries, hframe.files file (not_owns_of_ne hne (owns_outputPaths hfile))]
  exact h file hfile

/-- Writes that agree with the manifests leave them, or missing files. -/
theorem ManifestsHold.overwrite {other : Node} {otherKey : Text}
    (h : ManifestsHold keys disk other otherKey) {writes : List (File × Text)}
    (hagree : Agree writes (libraryWrites keys other otherKey))
    (hstate : ∀ file, disk'.files file = none ∨
      disk'.files file = Library.overwrite disk.files writes file) :
    ManifestsHold keys disk' other otherKey := by
  intro file content hmem
  rcases hstate file with hnone | hfile
  · exact .inl hnone
  rw [hfile]
  cases hvalue : Library.overwrite disk.files writes file with
  | none => exact .inl rfl
  | some content' =>
    rcases mem_of_overwrite hvalue with hold | hwritten
    · rcases h file content hmem with hnone | hsome
      · rw [hnone] at hold
        exact absurd hold (by simp)
      · exact .inr (hold.symm.trans hsome)
    · exact .inr (congrArg some (hagree file content' content hwritten hmem))

variable {w w' : World keys}

theorem eq_of_mem_handledBy {node other : Node} {ending : Ending Unit Outcome}
    (h : other ∈ handledBy node ending) : other = node := by
  cases ending with
  | done outcome => exact List.mem_singleton.mp h
  | raised e => exact absurd h List.not_mem_nil
  | killed => exact absurd h List.not_mem_nil

/-- An orderly build of a theory keeps a world sound. -/
theorem World.Sound.handleTheory (hw : w.Sound) (hplan : w.plan.key (.theory name) = some key)
    {fates : List Fate} (horderly : Orderly w (.handle (.theory name) request fates)) :
    let run := buildNode keys (.theory name) key request w.disk fates
    @World.Sound keys ⟨w.plan, handledBy (.theory name) run.ending ++ w.handled, run.state,
      reportsOf (.theory name) key run.ending ++ w.reports⟩ := by
  intro run
  obtain ⟨hplanOnly, hremoves⟩ := horderly key hplan
  have hframe : Frame (.theory name) w.disk run.state :=
    keeps_frame_buildNode w.disk (Frame.refl _ _) fates fun _ _ ↦ trivial
  have hspec := buildTheoryNode_spec hplanOnly fates hremoves
  have hmono : w.reports ⊆ reportsOf (.theory name) key run.ending ++ w.reports :=
    List.subset_append_right _ _
  refine ⟨fun other metadata hmetadata ↦ ?_, fun node metadata hlibrary hmetadata ↦ ?_,
    fun other hhandled ↦ ?_⟩
  · by_cases hother : other = name
    · obtain rfl := hother
      rcases hspec with (⟨hnone, _⟩ | ⟨writes, hending, hwrote, written, hwritten, hkey⟩) |
        (⟨hsame, hreports⟩ | ⟨hfiles, old, new, hold, hnew, hkey, hcase⟩)
      · exact absurd (hnone.symm.trans hmetadata) (by simp)
      · obtain rfl : written = metadata := Option.some.inj (hwritten.symm.trans hmetadata)
        subst hkey
        refine ⟨writes, .wrote (List.mem_append_left _ ?_), hwrote⟩
        show _ ∈ reportsOf _ _ (buildTheoryNode keys _ _ request w.disk fates).ending
        rw [hending]
        exact List.mem_singleton_self _
      · have hbefore : w.disk.metadata (.theory other) = some metadata := by
          rw [← hsame]
          exact hmetadata
        obtain ⟨writes, hcertifies, hwrote⟩ := hw.theories other metadata hbefore
        refine ⟨writes, hcertifies.mono hmono, ?_⟩
        show Wrote keys (buildTheoryNode keys _ key request w.disk fates).state _ _ _
        rw [hsame]
        exact hwrote
      · obtain rfl : new = metadata := Option.some.inj (hnew.symm.trans hmetadata)
        subst hkey
        obtain ⟨writes, hcertifies, hwrote⟩ := hw.theories other old hold
        have hstill : Wrote keys run.state (.theory other) old.inputKey writes := by
          intro file hfile
          have hcarries := hwrote file hfile
          rw [Carries] at hcarries ⊢
          exact hfiles ▸ hcarries
        rcases hcase with ⟨holdKey, _⟩ | ⟨hself, hending⟩
        · rw [holdKey] at hcertifies hstill
          exact ⟨writes, hcertifies.mono hmono, hstill⟩
        · refine ⟨writes, .kept (List.mem_append_left _ ?_) (hcertifies.mono hmono), ?_⟩
          · show _ ∈ reportsOf _ _ (buildTheoryNode keys _ _ request w.disk fates).ending
            rw [hending]
            exact List.mem_singleton_self _
          · intro file hfile
            refine hstill file ?_
            rw [outputPaths, ← hself] at hfile
            exact hfile
    · have hne : Node.theory other ≠ .theory name := fun h ↦ hother (Node.theory.inj h)
      rw [hframe.metadata _ hne] at hmetadata
      obtain ⟨writes, hcertifies, hwrote⟩ := hw.theories other metadata hmetadata
      exact ⟨writes, hcertifies.mono hmono, hwrote.frame hframe (Ne.symm hne)⟩
  · rw [hframe.metadata _ (hlibrary name)] at hmetadata
    obtain ⟨hreport, hholds⟩ := hw.libraries node metadata hlibrary hmetadata
    refine ⟨hmono hreport, fun file content hmem ↦ ?_⟩
    rw [hframe.files file fun howns ↦ ?_]
    · exact hholds file content hmem
    · have hnode := owns_libraryWrites hmem
      cases node with
      | theory other => exact hlibrary other rfl
      | sml other => exact absurd (howns.1.symm.trans hnode.1) (by simp)
      | signature other => exact absurd (howns.1.symm.trans hnode.1) (by simp)
  · have hbefore : .signature other ∈ w.handled := by
      rcases List.mem_append.mp hhandled with hmem | hmem
      · exact absurd (eq_of_mem_handledBy hmem) (by simp)
      · exact hmem
    obtain ⟨metadata, hmetadata, hkey⟩ := hw.handled other hbefore
    exact ⟨metadata, (hframe.metadata _ (by simp)).trans hmetadata, hkey⟩

/-- A library or signature that has written all its manifests has them. -/
theorem manifestsHold_written (files : File → Option Text)
    (h : disk.files = overwrite files (libraryWrites keys node key)) :
    ManifestsHold keys disk node key := by
  intro file content hmem
  have hwritten : file ∈ (libraryWrites keys node key).map Prod.fst :=
    List.mem_map.mpr ⟨(file, content), hmem, rfl⟩
  obtain ⟨content', hcontent'⟩ := Option.isSome_iff_exists.mp (written_isSome hwritten)
  rw [h, overwrite_of_written hwritten, hcontent']
  rcases mem_of_overwrite hcontent' with hnone | hmem'
  · exact absurd hnone (by simp)
  · exact .inr (congrArg some (libraryWrites_agree node key file content' content hmem' hmem))

/-- An orderly build of a library or signature keeps a world sound. -/
theorem World.Sound.handleLibrary (hw : w.Sound) (hplan : w.plan.key node = some key)
    {fates : List Fate} (hnode : ∀ name, node ≠ .theory name)
    (horderly : request.forced = true ∨ upToDate keys w.disk node key request = false →
      ∀ other metadata, w.disk.metadata other = some metadata →
        (other = node → ¬ Completes ((libraryWrites keys node key).length + 1) fates) →
        Agree (writesDone (libraryWrites keys node key) fates)
          (libraryWrites keys other metadata.inputKey)) :
    let run := buildSmlLike keys node key request w.disk fates
    @World.Sound keys ⟨w.plan, handledBy node run.ending ++ w.handled, run.state,
      reportsOf node key run.ending ++ w.reports⟩ := by
  intro run
  have hframe : Frame node w.disk run.state :=
    keeps_frame_buildSmlLike w.disk (Frame.refl _ _) fates fun _ _ ↦ trivial
  have hmono : w.reports ⊆ reportsOf node key run.ending ++ w.reports :=
    List.subset_append_right _ _
  have htheories : ∀ name metadata, run.state.metadata (.theory name) = some metadata →
      ∃ writes, Certifies (reportsOf node key run.ending ++ w.reports) (.theory name)
        metadata.inputKey writes ∧ Wrote keys run.state (.theory name) metadata.inputKey writes := by
    intro name metadata hmetadata
    rw [hframe.metadata _ (Ne.symm (hnode name))] at hmetadata
    obtain ⟨writes, hcertifies, hwrote⟩ := hw.theories name metadata hmetadata
    exact ⟨writes, hcertifies.mono hmono, hwrote.frame hframe (hnode name)⟩
  have hhandled : (run.state.metadata = w.disk.metadata ∨ run.state.metadata =
      Function.update w.disk.metadata node (some ⟨key, request.depsOutputKey⟩)) →
      ∀ name, .signature name ∈ w.handled → ∃ metadata,
        run.state.metadata (.signature name) = some metadata ∧
          w.plan.key (.signature name) = some metadata.inputKey := by
    intro hmetadata name hmem
    obtain ⟨metadata, hbefore, hkey⟩ := hw.handled name hmem
    rcases hmetadata with hsame | hwritten
    · exact ⟨metadata, by rw [hsame, hbefore], hkey⟩
    · by_cases hname : .signature name = node
      · rw [hwritten, hname, Function.update_self]
        exact ⟨_, rfl, hplan⟩
      · rw [hwritten, Function.update_of_ne hname]
        exact ⟨metadata, hbefore, hkey⟩
  rcases @buildSmlLike_run keys node key request w.disk fates with
    ⟨⟨old, hold, holdKey⟩, hreports, hfiles, hmetadata⟩ |
    ⟨hbuilds, ⟨hcompletes, hending, hfiles, hmetadata⟩ | ⟨hstops, ⟨hmetadata, hfiles⟩, hending⟩⟩
  · refine ⟨htheories, fun other metadata hlibrary hother ↦ ?_, fun name hmem ↦ ?_⟩
    · have hholds : ∀ key, ManifestsHold keys w.disk other key → ManifestsHold keys run.state other key := by
        intro key h file content hmem
        have hfile : run.state.files file = w.disk.files file := congrFun hfiles file
        rw [hfile]
        exact h file content hmem
      by_cases hnode' : other = node
      · obtain ⟨hreport, hmanifests⟩ := hw.libraries node old hnode hold
        have hkey : metadata.inputKey = old.inputKey := by
          rcases hmetadata with hsame | hwritten
          · have hsame' : w.disk.metadata other = some metadata := by
              rw [← hsame]
              exact hother
            rw [hnode', hold, Option.some.injEq] at hsame'
            rw [hsame']
          · have hnew : run.state.metadata other = some ⟨key, request.depsOutputKey⟩ := by
              rw [hnode']
              exact (congrFun hwritten node).trans (Function.update_self _ _ _)
            rw [Option.some.inj (hother.symm.trans hnew), holdKey]
        rw [hkey, hnode']
        exact ⟨hmono hreport, hnode' ▸ hholds _ (hnode' ▸ hmanifests)⟩
      · rw [hframe.metadata _ hnode'] at hother
        obtain ⟨hreport, hmanifests⟩ := hw.libraries other metadata hlibrary hother
        exact ⟨hmono hreport, hholds _ hmanifests⟩
    · rcases List.mem_append.mp hmem with hmem | hmem
      · rw [eq_of_mem_handledBy hmem]
        rcases hmetadata with hsame | hwritten
        · exact ⟨old, (congrFun hsame node).trans hold, by rw [hplan, holdKey]⟩
        · exact ⟨_, (congrFun hwritten node).trans (Function.update_self _ _ _), hplan⟩
      · exact hhandled hmetadata name hmem
  · refine ⟨htheories, fun other metadata hlibrary hother ↦ ?_, fun name hmem ↦ ?_⟩
    · by_cases hnode' : other = node
      · have hnew : run.state.metadata other = some ⟨key, request.depsOutputKey⟩ := by
          rw [hnode']
          exact (congrFun hmetadata node).trans (Function.update_self _ _ _)
        rw [Option.some.inj (hother.symm.trans hnew), hnode']
        refine ⟨List.mem_append_left _ ?_, manifestsHold_written _ hfiles⟩
        show _ ∈ reportsOf _ _ (buildSmlLike keys node key request w.disk fates).ending
        rw [hending]
        exact List.mem_singleton_self _
      · rw [hframe.metadata _ hnode'] at hother
        obtain ⟨hreport, hmanifests⟩ := hw.libraries other metadata hlibrary hother
        have hagree := horderly hbuilds other metadata hother fun h ↦ absurd h hnode'
        rw [writesDone_of_done hcompletes] at hagree
        exact ⟨hmono hreport, hmanifests.overwrite hagree fun file ↦ .inr (congrFun hfiles file)⟩
    · rcases List.mem_append.mp hmem with hmem | hmem
      · rw [eq_of_mem_handledBy hmem]
        exact ⟨_, (congrFun hmetadata node).trans (Function.update_self _ _ _), hplan⟩
      · exact hhandled (.inr hmetadata) name hmem
  · refine ⟨htheories, fun other metadata hlibrary hother ↦ ?_, fun name hmem ↦ ?_⟩
    · have hbefore : w.disk.metadata other = some metadata := (congrFun hmetadata other).symm.trans hother
      obtain ⟨hreport, hmanifests⟩ := hw.libraries other metadata hlibrary hbefore
      exact ⟨hmono hreport, hmanifests.overwrite (horderly hbuilds other metadata hbefore
        fun _ ↦ hstops) hfiles⟩
    · rcases List.mem_append.mp hmem with hmem | hmem
      · have hnone : handledBy node run.ending = [] := by
          rcases hending with hending | hending
          · exact congrArg (handledBy node) hending
          · exact congrArg (handledBy node) hending
        rw [hnone] at hmem
        exact absurd hmem List.not_mem_nil
      · exact hhandled (.inl hmetadata) name hmem

/-! ### Orderly runs -/

open Classical in
/-- The builds all of whose steps are orderly. -/
noncomputable def orderlyBuilds (keys : Keys) : Machine (World keys) (Event keys) :=
  (builds keys).guard Orderly

open Classical in
theorem sound_of_orderly (h : (orderlyBuilds keys).Reachable w) : w.Sound := by
  refine Machine.Reachable.invariant ?_ (fun w e w' _ hw hstep ↦ ?_) h
  · exact ⟨fun _ _ h ↦ absurd h (by simp [orderlyBuilds, builds, Machine.guard]),
      fun _ _ _ h ↦ absurd h (by simp [orderlyBuilds, builds, Machine.guard]),
      fun _ h ↦ absurd h (by simp [orderlyBuilds, builds, Machine.guard])⟩
  · obtain ⟨horderly, hstep⟩ := Machine.guard_step.mp hstep
    cases e with
    | startBuild plan =>
      obtain rfl := Option.some.inj hstep
      exact ⟨hw.theories, hw.libraries, fun _ h ↦ absurd h List.not_mem_nil⟩
    | handle node request fates =>
      change step w (.handle node request fates) = some w' at hstep
      rw [step] at hstep
      split at hstep
      · next key hplan =>
        split at hstep
        · obtain rfl := Option.some.inj hstep
          cases node with
          | theory name => exact hw.handleTheory hplan horderly
          | sml name => exact hw.handleLibrary hplan (by simp) (horderly key hplan)
          | signature name => exact hw.handleLibrary hplan (by simp) (horderly key hplan)
        · exact absurd hstep (by simp)
      · exact absurd hstep (by simp)

/-! ### Accepted outputs -/

theorem carries_of_manifestsHold (h : ManifestsHold keys disk node key) {file : File}
    (hmem : file ∈ (libraryWrites keys node key).map Prod.fst) (hexists : disk.files file ≠ none) :
    Carries disk (libraryWrites keys node key) file := by
  refine ⟨hmem, ?_⟩
  obtain ⟨content, hcontent⟩ := Option.isSome_iff_exists.mp (written_isSome hmem)
  rw [hcontent]
  rcases mem_of_overwrite hcontent with hnone | hwrite
  · exact absurd hnone (by simp)
  · exact (h file content hwrite).resolve_left hexists

theorem exists_of_outputsExist (h : outputsExist keys disk node key = true) {file : File}
    (hfile : file ∈ outputPaths keys node key) : disk.files file ≠ none := by
  intro hnone
  have hexists := List.all_eq_true.mp h file hfile
  rw [outputExists, hnone] at hexists
  exact absurd hexists Bool.false_ne_true

/-- The outputs of a node with metadata are intact if all are there and its signature was handled. -/
theorem World.Sound.intact (hw : w.Sound) (hready : Ready w node = true) {metadata : Metadata}
    (hmetadata : w.disk.metadata node = some metadata)
    (hcompanion : ∀ name, node = .sml name →
      keys.companion metadata.inputKey = w.plan.key (.signature name))
    (hexist : outputsExist keys w.disk node metadata.inputKey = true) :
    Intact w node metadata.inputKey := by
  cases node with
  | theory name =>
    obtain ⟨writes, hcertifies, hwrote⟩ := hw.theories name metadata hmetadata
    exact ⟨writes, hcertifies, fun file hfile ↦ .inl (hwrote file hfile)⟩
  | signature name =>
    obtain ⟨hreport, hmanifests⟩ := hw.libraries _ metadata (by simp) hmetadata
    refine ⟨_, .wrote hreport, fun file hfile ↦ .inl ?_⟩
    exact carries_of_manifestsHold hmanifests (mem_map_writeBoth hfile)
      (exists_of_outputsExist hexist hfile)
  | sml name =>
    obtain ⟨hreport, hmanifests⟩ := hw.libraries _ metadata (by simp) hmetadata
    refine ⟨_, .wrote hreport, fun file hfile ↦ ?_⟩
    have hthere := exists_of_outputsExist hexist hfile
    rcases List.mem_append.mp hfile with hui | huo
    · cases hkey : keys.companion metadata.inputKey with
      | none =>
        refine .inl (carries_of_manifestsHold hmanifests ?_ hthere)
        rw [libraryWrites, if_pos hkey, List.map_append]
        exact List.mem_append_right _ (mem_map_writeBoth hui)
      | some companionKey =>
        have hplan := (hcompanion name rfl).symm.trans hkey
        rw [Ready, hplan, Option.isNone_some, Bool.false_or, List.contains_iff_mem] at hready
        obtain ⟨companion, hsignature, hsame⟩ := hw.handled name hready
        rw [hplan, Option.some.injEq] at hsame
        obtain ⟨hreport', hmanifests'⟩ := hw.libraries _ companion (by simp) hsignature
        rw [← hsame] at hreport' hmanifests'
        exact .inr ⟨name, companionKey, _, rfl, rfl, .wrote hreport',
          carries_of_manifestsHold hmanifests' (mem_map_writeBoth hui) hthere⟩
    · refine .inl (carries_of_manifestsHold hmanifests ?_ hthere)
      rw [libraryWrites, List.map_append]
      exact List.mem_append_left _ (mem_map_writeBoth huo)

/-- Keys for libraries alone: no signature, and a manifest that differs for every key. -/
def plainKeys : Keys where
  selfKey := id
  tracing _ := false
  extraOutputs _ := 0
  companion _ := none
  manifest _ key := key

/-- A plan with one library. -/
def libraryPlan (key : Text) : Plan plainKeys where
  key node := if node = .sml ['l'] then some key else none
  companions name inputKey _ := by simp [plainKeys]

def plainRequest : Request where
  forced := false
  cacheRestoreAllowed := true
  executionPlanOnly := false
  upToDateChecks := true
  cutoffChecks := true
  refreshMetadata := false
  depsOutputKey := none
  restores := []
  run := .failed

/-- The library is built, edited, and a build of it is killed after it wrote the first manifest; then the
edit is reverted. -/
def editedAndReverted : List (Event plainKeys) :=
  [.startBuild (libraryPlan ['1']), .handle (.sml ['l']) plainRequest [],
    .startBuild (libraryPlan ['2']), .handle (.sml ['l']) plainRequest [.done, .killed 0],
    .startBuild (libraryPlan ['1'])]

theorem edited_and_reverted_runs :
    ((builds plainKeys).run (builds plainKeys).initial editedAndReverted).isSome := by
  decide +kernel

/-- The world after the edit is reverted. -/
def reverted : World plainKeys :=
  ((builds plainKeys).run (builds plainKeys).initial editedAndReverted).get edited_and_reverted_runs

end Holbuild.BuildNode
