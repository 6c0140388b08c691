import Holbuild.Library.Interrupts
import Holbuild.Library.Texts
import Holbuild.Library.Writes

/-!
# Building a node

The file operations of `build_node` for theories, `.sml` libraries and `.sig` signatures. A node that is
up to date is left alone. A theory whose own inputs and dependencies' outputs are as they were keeps its
outputs (early cutoff); otherwise its metadata is removed, its outputs are restored from the cache or
built, and its metadata is written. Libraries and signatures write their load manifests and then their
metadata, without removing it first.

What does not concern the files of the node itself is an input of a build: which cache entries are found,
how the HOL run ends, whether the timeout contract and the parents' hashes are as they should be.
-/

set_option autoImplicit false
set_option relaxedAutoImplicit false

namespace Holbuild.BuildNode

open Library Library.Prog

/-- A node, by the name its artifacts and its metadata are filed under. -/
inductive Node
  | theory (name : Text)
  | sml (name : Text)
  | signature (name : Text)
deriving DecidableEq, Repr

inductive Part
  | sig | sml | dat | trace | ui | uo | scriptUo | extra (index : ℕ)
deriving DecidableEq, Repr

/-- An artifact of a theory, or of the library and the signature of a name, or its remapped copy. -/
structure File where
  theory : Bool
  name : Text
  part : Part
  remapped : Bool
deriving DecidableEq, Repr

/-- What keys determine: an input key hashes the node's own inputs, among them the kernel variant and the
declared extra outputs, and for a library the key of its signature companion. -/
structure Keys where
  selfKey : Text → Text
  tracing : Text → Bool
  extraOutputs : Text → ℕ
  companion : Text → Option Text
  /-- The load manifest of a library or signature. -/
  manifest : Node → Text → Text

/-- The metadata of a node. Its own input key is part of the input key. -/
structure Metadata where
  inputKey : Text
  depsOutputKey : Option Text
deriving DecidableEq, Repr

structure Disk where
  files : File → Option Text
  metadata : Node → Option Metadata

inductive FileOp
  | write (file : File) (content : Text)
  | remove (file : File)
  | writeMetadata (node : Node) (metadata : Metadata)
  | removeMetadata (node : Node)
deriving DecidableEq, Repr

/-- Files are written under another name and renamed. Where the rename has to remove the old file first,
a stop leaves no file. -/
def device : Device FileOp Disk Unit where
  perform op disk := .ok <| match op with
    | .write file content => { disk with files := Function.update disk.files file (some content) }
    | .remove file => { disk with files := Function.update disk.files file none }
    | .writeMetadata node metadata =>
      { disk with metadata := Function.update disk.metadata node (some metadata) }
    | .removeMetadata node => { disk with metadata := Function.update disk.metadata node none }
  partly op n disk := match op with
    | .write file _ =>
      if n = 0 then disk else { disk with files := Function.update disk.files file none }
    | _ => disk
  failure := ()

abbrev FileProg := Prog FileOp Disk Unit

/-- The `.ui` of a library without a signature. -/
def emptyManifest : Text := ['\n']

/-- An artifact and its remapped copy. -/
def both (theory : Bool) (name : Text) (part : Part) : List File :=
  [⟨theory, name, part, false⟩, ⟨theory, name, part, true⟩]

def writeBoth (theory : Bool) (name : Text) (part : Part) (content : Text) : List (File × Text) :=
  (both theory name part).map fun file ↦ (file, content)

section

variable (keys : Keys)

/-- The outputs of a node, all of which an up-to-date node has. -/
def outputPaths : Node → Text → List File
  | .theory name, key =>
    let own := keys.selfKey key
    ([Part.sig, .sml, .scriptUo, .ui, .uo, .dat] ++ if keys.tracing own then [Part.trace] else []).flatMap
        (both true name) ++
      (List.range (keys.extraOutputs own)).map fun index ↦ ⟨true, name, .extra index, false⟩
  | .sml name, _ => both false name .ui ++ both false name .uo
  | .signature name, _ => both false name .ui

/-- The load manifests that a library or signature writes. -/
def libraryWrites : Node → Text → List (File × Text)
  | .theory _, _ => []
  | .sml name, key =>
    writeBoth false name .uo (keys.manifest (.sml name) key) ++
      if keys.companion key = none then writeBoth false name .ui emptyManifest else []
  | .signature name, key => writeBoth false name .ui (keys.manifest (.signature name) key)

/-- The outputs of a theory, by part. -/
abbrev Payload := Part → Text

/-- The load manifests of a theory, and before them its extra outputs. -/
def finalWrites (name : Text) (extraOutputs : ℕ) (payload : Payload) : List (File × Text) :=
  (List.range extraOutputs).map (fun index ↦
    ((⟨true, name, .extra index, false⟩ : File), payload (.extra index))) ++
  [Part.ui, .uo, .scriptUo].flatMap fun part ↦ writeBoth true name part (payload part)

/-- A cache entry: the outputs, with the `.sml` as it is kept in the cache. -/
structure Entry where
  payload : Payload
  cachedSml : Text
  hasTrace : Bool
  extraOutputs : ℕ

/-- What a look into the cache finds: nothing, an entry that its check rejects, or an entry. -/
inductive Found
  | notFound
  | rejected
  | entry (entry : Entry)

/-- One look into the cache, and whether the parents' hashes in the `.dat` match then. -/
structure Restore where
  found : Found
  parentsMatch : Bool

/-- How the HOL run of a theory ends. It prints the execution plan only when asked to. -/
inductive HolRun
  | failed
  | printed
  | built (payload : Payload)

/-- What a build of a node is asked and finds. -/
structure Request where
  forced : Bool
  cacheRestoreAllowed : Bool
  executionPlanOnly : Bool
  /-- The timeout contract and the parents' hashes at the up-to-date check, and at early cutoff. -/
  upToDateChecks : Bool
  cutoffChecks : Bool
  refreshMetadata : Bool
  depsOutputKey : Option Text
  restores : List Restore
  run : HolRun

/-- How a build of a node ended; `wrote` has what the restore or build wrote. -/
inductive Outcome
  | upToDate
  | inspected
  | kept (oldKey : Text)
  | wrote (writes : List (File × Text))

/-! ### Checks -/

def outputExists (disk : Disk) (file : File) : Bool :=
  match disk.files file with
  | some content => !file.theory || file.part matches .extra _ || content ≠ []
  | none => false

def outputsExist (disk : Disk) (node : Node) (key : Text) : Bool :=
  (outputPaths keys node key).all (outputExists disk)

def upToDate (disk : Disk) (node : Node) (key : Text) (request : Request) : Bool :=
  outputsExist keys disk node key &&
    match disk.metadata node with
    | some metadata => metadata.inputKey = key && request.upToDateChecks
    | none => false

/-- The metadata of the theory's last build, if its outputs are the ones a build would produce. -/
def earlyCutoffMetadata (disk : Disk) (node : Node) (key : Text) (request : Request) :
    Option Metadata :=
  if outputsExist keys disk node key then
    match disk.metadata node with
    | some metadata =>
      if keys.selfKey metadata.inputKey = keys.selfKey key ∧ request.depsOutputKey.isSome ∧
          metadata.depsOutputKey = request.depsOutputKey ∧ request.cutoffChecks then some metadata
      else none
    | none => none
  else none

/-! ### Programs -/

def perform (op : FileOp) : FileProg Unit := step device op

def writeAll (writes : List (File × Text)) : FileProg Unit :=
  each (fun write ↦ perform (.write write.1 write.2)) writes

/-- Removing a file that cannot be removed raises nothing. -/
def removeFile (op : FileOp) : FileProg Unit := handle (perform op) fun _ ↦ Prog.pure ()

def writeMetadata (node : Node) (key : Text) (request : Request) : FileProg Unit :=
  perform (.writeMetadata node ⟨key, request.depsOutputKey⟩)

def removeFailedCacheOutputs (name : Text) : FileProg Unit :=
  each (fun file ↦ removeFile (.remove file))
    ([Part.scriptUo, .ui, .uo, .dat, .sig, .sml, .trace].flatMap (both true name))

def installWrites (name : Text) (entry : Entry) : List (File × Text) :=
  writeBoth true name .dat (entry.payload .dat) ++ writeBoth true name .sig (entry.payload .sig) ++
    (⟨true, name, .sml, false⟩, entry.cachedSml) :: writeBoth true name .sml (entry.payload .sml) ++
    (if entry.hasTrace then writeBoth true name .trace (entry.payload .trace) else []) ++
    finalWrites name entry.extraOutputs entry.payload

/-- Installs what a look into the cache found; what it wrote, if that was an entry it could install. -/
def materializeTheoryCache (name key : Text) (found : Found) : FileProg (Option (List (File × Text))) :=
  handle
    (match found with
    | .notFound => Prog.pure none
    | .rejected => raise ()
    | .entry entry =>
      let own := keys.selfKey key
      if (keys.tracing own → entry.hasTrace) ∧ entry.extraOutputs = keys.extraOutputs own then do
        writeAll (installWrites name entry)
        Prog.pure (some (installWrites name entry))
      else raise ())
    fun _ ↦ do
      removeFailedCacheOutputs name
      Prog.pure none

/-- Restores a theory from the cache. An entry with other parents is dropped, and the next one tried. -/
def materializeValidCache (name key : Text) :
    List Restore → FileProg (Option (List (File × Text)))
  | [] => Prog.pure none
  | restore :: rest => do
    let restored ← materializeTheoryCache keys name key restore.found
    if restore.parentsMatch then Prog.pure restored
    else do
      removeFailedCacheOutputs name
      materializeValidCache name key rest

def buildWrites (name key : Text) (payload : Payload) : List (File × Text) :=
  let own := keys.selfKey key
  (if keys.tracing own then writeBoth true name .trace (payload .trace) else []) ++
    [Part.dat, .sig, .sml].flatMap (fun part ↦ writeBoth true name part (payload part)) ++
    finalWrites name (keys.extraOutputs own) payload

def buildFromSource (name key : Text) (request : Request) : FileProg Outcome :=
  match request.run with
  | .failed => raise ()
  | .printed => if request.executionPlanOnly then Prog.pure .inspected else raise ()
  | .built payload => do
    writeAll (buildWrites keys name key payload)
    writeMetadata (.theory name) key request
    Prog.pure (.wrote (buildWrites keys name key payload))

/-- The metadata goes before the outputs are replaced. -/
def removeMetadata (name : Text) (request : Request) : FileProg Unit :=
  if request.executionPlanOnly then Prog.pure () else removeFile (.removeMetadata (.theory name))

def restoreOrBuild (name key : Text) (request : Request) : FileProg Outcome := do
  removeMetadata name request
  if request.cacheRestoreAllowed then do
    let restored ← materializeValidCache keys name key request.restores
    match restored with
    | some writes => do
      writeMetadata (.theory name) key request
      Prog.pure (.wrote writes)
    | none => buildFromSource keys name key request
  else buildFromSource keys name key request

/-- The metadata of an up-to-date node may be written again, for the same key. -/
def refreshMetadata (node : Node) (key : Text) (request : Request) : FileProg Unit :=
  if request.refreshMetadata then writeMetadata node key request else Prog.pure ()

def refresh (node : Node) (key : Text) (request : Request) : FileProg Outcome := do
  refreshMetadata node key request
  Prog.pure .upToDate

def buildTheoryNode (name key : Text) (request : Request) : FileProg Outcome := do
  let disk ← Prog.get
  if request.forced then restoreOrBuild keys name key request
  else if upToDate keys disk (.theory name) key request then refresh (.theory name) key request
  else
    match earlyCutoffMetadata keys disk (.theory name) key request with
    | some metadata => do
      writeMetadata (.theory name) key request
      Prog.pure (.kept metadata.inputKey)
    | none => restoreOrBuild keys name key request

/-- Builds a library or a signature. -/
def buildSmlLike (node : Node) (key : Text) (request : Request) : FileProg Outcome := do
  let disk ← Prog.get
  if !request.forced && upToDate keys disk node key request then refresh node key request
  else do
    writeAll (libraryWrites keys node key)
    writeMetadata node key request
    Prog.pure (.wrote (libraryWrites keys node key))

def buildNode (node : Node) (key : Text) (request : Request) : FileProg Outcome :=
  match node with
  | .theory name => buildTheoryNode keys name key request
  | .sml name => buildSmlLike keys (.sml name) key request
  | .signature name => buildSmlLike keys (.signature name) key request

end

end Holbuild.BuildNode
