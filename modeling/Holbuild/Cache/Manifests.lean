import Holbuild.Cache.Timeouts
import Holbuild.Library.Fields
import Holbuild.Library.Outcomes

/-!
# Cache manifests

The manifest of a cache entry is a text of lines: a header, the input key, the kind, the proof timeout,
and one line for each parent, ML dependency and blob. `cacheManifestBlobsFromLines` reads a theory's,
`runManifestOutputs` a run's. What it reads does not depend on the timeout lines
(`cacheManifestBlobsFromLines_filter`), and so only on the text without them
(`cacheManifestBlobs_nonTimeoutText`), which is what publishers compare.
-/

set_option autoImplicit false
set_option relaxedAutoImplicit false

namespace Holbuild.Cache

open Library

/-- Reading a manifest ends, or it raises an error. -/
abbrev Checked := Except Text

/-! ### Roles and hashes -/

/-- Reads back a field in which `\`, newlines, tabs and spaces are escaped. -/
def unescape : Text → Text
  | '\\' :: '\\' :: rest => '\\' :: unescape rest
  | '\\' :: 'n' :: rest => '\n' :: unescape rest
  | '\\' :: 't' :: rest => '\t' :: unescape rest
  | '\\' :: 's' :: rest => ' ' :: unescape rest
  | '\\' :: c :: rest => '\\' :: c :: unescape rest
  | c :: rest => c :: unescape rest
  | [] => []

def escape (text : Text) : Text :=
  text.flatMap fun c ↦
    if c = '\\' then ['\\', '\\']
    else if c = '\n' then ['\\', 'n']
    else if c = '\t' then ['\\', 't']
    else if c = ' ' then ['\\', 's']
    else [c]

/-- What follows a start of a text. -/
def afterStart (start text : Text) : Option Text :=
  if start.isPrefixOf text then some (text.drop start.length) else none

/-- The path of an extra output, if a blob's role is one. -/
def extraPathFromBlobRole (role : Text) : Option Text := (afterStart "extra:".toList role).map unescape

def isHex (c : Char) : Bool := c.isDigit || ('a' ≤ c && c ≤ 'f') || ('A' ≤ c && c ≤ 'F')

def validSha256 (text : Text) : Bool := text.length == 64 && text.all isHex

def requireSha256 (role hash : Text) : Checked Text :=
  if validSha256 hash then .ok hash
  else .error ("cache manifest invalid ".toList ++ role ++ " blob hash: ".toList ++ hash)

def knownBlobRole (role : Text) : Bool :=
  role = "sig".toList || role = "sml".toList || role = "sml-template".toList ||
    role = "dat".toList || role = "trace".toList || (extraPathFromBlobRole role).isSome

/-- The blobs of a manifest, each with its role, the last one first. -/
abbrev Blobs := List (Text × Text)

def Blobs.find (blobs : Blobs) (role : Text) : Option Text := (List.find? (·.1 = role) blobs).map (·.2)

def addManifestBlob (role hash : Text) (blobs : Blobs) : Checked Blobs :=
  if !knownBlobRole role then .error ("cache manifest unknown blob role: ".toList ++ role)
  else if (blobs.find role).isSome then .error ("cache manifest duplicate blob role: ".toList ++ role)
  else do
    let hash ← requireSha256 role hash
    .ok ((role, hash) :: blobs)

def blobFromManifest (role : Text) (blobs : Blobs) : Checked Text :=
  match blobs.find role with
  | some hash => .ok hash
  | none => .error ("cache manifest missing blob role: ".toList ++ role)

def smlBlobFromManifest (blobs : Blobs) : Checked Text :=
  match blobs.find "sml".toList with
  | some hash => .ok hash
  | none => blobFromManifest "sml-template".toList blobs

/-! ### ML dependencies -/

/-- Whether a text stands somewhere in another. -/
def isSubstring (part : Text) : Text → Bool
  | [] => part.isPrefixOf []
  | c :: rest => part.isPrefixOf (c :: rest) || isSubstring part rest

def transientStageMldep (dep : Text) : Bool := isSubstring "/.holbuild/stage/".toList dep

def validMldepName (dep : Text) : Bool := !dep.isEmpty && dep.all (!isSpace ·)

def rejectTransientCacheMldeps (mldeps : List Text) : Checked Unit :=
  match mldeps.find? transientStageMldep with
  | some dep => .error ("cache manifest contains transient stage mldep: ".toList ++ dep)
  | none => .ok ()

def addMldep (dep : Text) (deps : List Text) : Checked (List Text) :=
  if !validMldepName dep then .error ("cache manifest invalid mldep: ".toList ++ dep)
  else if deps.contains dep then .ok deps
  else .ok (dep :: deps)

/-! ### Manifests of theories -/

/-- What has been read of a theory's manifest. -/
structure Reading where
  sawHeader : Bool
  sawInput : Bool
  sawKind : Bool
  sawMetadata : Bool
  blobs : Blobs
  parents : List Text
  mldeps : List Text
deriving DecidableEq

def Reading.start : Reading := ⟨false, false, false, false, [], [], []⟩

def timeoutStart : Text := "proof-timeout=".toList

/-- Whether a line records a proof timeout. -/
def isTimeoutLine (line : Text) : Bool := timeoutStart.isPrefixOf line

def parseCacheManifestLine (inputKey line : Text) (r : Reading) : Checked Reading :=
  if line = "holbuild-cache-action-v4".toList ∨ line = "holbuild-cache-action-v3".toList then
    if r.sawHeader then .error "cache manifest duplicate header".toList
    else .ok { r with sawHeader := true }
  else if line = "holbuild-cache-action-v2".toList then
    .error "cache manifest missing generated theory load metadata".toList
  else if line = "input_key=".toList ++ inputKey then
    if r.sawInput then .error "cache manifest duplicate input key".toList
    else .ok { r with sawInput := true }
  else if "input_key=".toList.isPrefixOf line then .error "cache manifest input key mismatch".toList
  else if line = "kind=theory".toList then
    if r.sawKind then .error "cache manifest duplicate kind".toList
    else .ok { r with sawKind := true }
  else if "kind=".toList.isPrefixOf line then .error "cache manifest unsupported kind".toList
  else if line = "load-metadata-v1".toList then
    if r.sawMetadata then .error "cache manifest duplicate load metadata marker".toList
    else .ok { r with sawMetadata := true }
  else if line = "mldeps".toList then
    .error "cache manifest missing generated theory load metadata".toList
  else if isTimeoutLine line then .ok r
  else
    match tokens isSpace line with
    | [word, name] =>
      if word = "parent".toList then do
        let parents ← addMldep name r.parents
        .ok { r with parents := parents }
      else if word = "mldep".toList then do
        let mldeps ← addMldep name r.mldeps
        .ok { r with mldeps := mldeps }
      else .error ("cache manifest unknown line: ".toList ++ line)
    | [word, role, hash] =>
      if word = "blob".toList then do
        let blobs ← addManifestBlob role hash r.blobs
        .ok { r with blobs := blobs }
      else .error ("cache manifest unknown line: ".toList ++ line)
    | _ => .error ("cache manifest unknown line: ".toList ++ line)

/-- The files of a cache entry, each by its hash. -/
structure Outputs where
  sigHash : Text
  smlHash : Text
  datHash : Text
  traceHash : Option Text
  extraHashes : List (Text × Text)
deriving DecidableEq

/-- What a theory's manifest says. -/
structure CacheManifest extends Outputs where
  parents : List Text
  mldeps : List Text
deriving DecidableEq

def Outputs.hashes (outputs : Outputs) : List Text :=
  outputs.sigHash :: outputs.smlHash :: outputs.datHash ::
    (outputs.traceHash.toList ++ outputs.extraHashes.map (·.2))

def require (seen : Bool) (message : String) : Checked Unit :=
  if seen then .ok () else .error message.toList

/-- The manifest that was read. -/
def Reading.manifest (r : Reading) : Checked CacheManifest := do
  rejectTransientCacheMldeps r.mldeps.reverse
  let sigHash ← blobFromManifest "sig".toList r.blobs
  let smlHash ← smlBlobFromManifest r.blobs
  let datHash ← blobFromManifest "dat".toList r.blobs
  .ok {
    sigHash, smlHash, datHash
    traceHash := r.blobs.find "trace".toList
    extraHashes := r.blobs.reverse.filterMap fun blob ↦
      (extraPathFromBlobRole blob.1).map fun path ↦ (path, blob.2)
    parents := r.parents.reverse
    mldeps := r.mldeps.reverse }

def cacheManifestBlobsFromLines (inputKey : Text) (lines : List Text) : Checked CacheManifest := do
  let r ← lines.foldlM (fun r line ↦ parseCacheManifestLine inputKey line r) Reading.start
  require r.sawHeader "cache manifest missing header"
  require r.sawInput "cache manifest missing input key"
  require r.sawKind "cache manifest missing kind"
  require r.sawMetadata "cache manifest missing generated theory load metadata"
  r.manifest

def cacheManifestLines (text : Text) : List Text := tokens (· = '\n') text

/-! ### Manifests of runs -/

def isRunManifest (text : Text) : Bool := (cacheManifestLines text).contains "kind=run".toList

/-- What has been read of a run's manifest. -/
structure RunReading where
  sawHeader : Bool
  sawInput : Bool
  sawKind : Bool
  parents : ℕ
  outputs : Blobs
deriving DecidableEq

def RunReading.start : RunReading := ⟨false, false, false, 0, []⟩

/-- The name of a run's output, if a blob's role is one. -/
def outputName (role : Text) : Option Text :=
  (afterStart "output:".toList role).filter fun name ↦ name ≠ []

def addRunOutput (role hash : Text) (outputs : Blobs) : Checked Blobs :=
  match outputName role with
  | some name =>
    if (outputs.find name).isSome then .error ("cache manifest duplicate blob role: ".toList ++ role)
    else do
      let hash ← requireSha256 role hash
      .ok ((name, hash) :: outputs)
  | none => .error ("cache manifest unknown blob role: ".toList ++ role)

def parseRunManifestLine (inputKey line : Text) (r : RunReading) : Checked RunReading :=
  if line = "holbuild-cache-action-v4".toList then
    if r.sawHeader then .error "cache manifest duplicate header".toList
    else .ok { r with sawHeader := true }
  else if line = "input_key=".toList ++ inputKey then
    if r.sawInput then .error "cache manifest duplicate input key".toList
    else .ok { r with sawInput := true }
  else if "input_key=".toList.isPrefixOf line then .error "cache manifest input key mismatch".toList
  else if line = "kind=run".toList then
    if r.sawKind then .error "cache manifest duplicate kind".toList
    else .ok { r with sawKind := true }
  else if "kind=".toList.isPrefixOf line then .error "cache manifest is not a run's".toList
  else
    match tokens isSpace line with
    | [word, _] =>
      if word = "parent".toList then
        if r.parents = 0 then .ok { r with parents := 1 }
        else .error "cache manifest has more than one parent".toList
      else .error ("cache manifest unknown line: ".toList ++ line)
    | [word, role, hash] =>
      if word = "blob".toList then do
        let outputs ← addRunOutput role hash r.outputs
        .ok { r with outputs := outputs }
      else .error ("cache manifest unknown line: ".toList ++ line)
    | _ => .error ("cache manifest unknown line: ".toList ++ line)

/-- The outputs of a run's entry, in its order. -/
def runManifestOutputs (inputKey text : Text) : Checked Blobs := do
  let r ← (cacheManifestLines text).foldlM (fun r line ↦ parseRunManifestLine inputKey line r)
    RunReading.start
  require r.sawHeader "cache manifest missing header"
  require r.sawInput "cache manifest missing input key"
  require r.sawKind "cache manifest missing kind"
  require (!r.outputs.isEmpty) "cache manifest has no outputs"
  .ok r.outputs.reverse

/-! ### Timeout contracts -/

def explicitCacheManifestProofTimeouts (lines : List Text) : Checked (List Timeout) :=
  (lines.filter isTimeoutLine).mapM fun line ↦
    match parseTimeoutText (line.drop timeoutStart.length) with
    | some timeout => .ok timeout
    | none => .error "cache manifest invalid proof-timeout".toList

def cacheManifestProofTimeout (lines : List Text) : Checked Timeout := do
  match ← explicitCacheManifestProofTimeouts lines with
  | [] => .ok legacyDefaultProofTimeout
  | [timeout] => .ok timeout
  | _ => .error "cache manifest duplicate proof-timeout".toList

def cacheManifestProofTimeoutText (inputKey text : Text) : Checked Timeout := do
  let _ ← cacheManifestBlobsFromLines inputKey (cacheManifestLines text)
  cacheManifestProofTimeout (cacheManifestLines text)

/-- A manifest's timeout, and its text without the lines that record one. -/
structure Contract where
  proofTimeout : Timeout
  nonTimeoutText : Text
deriving DecidableEq

def nonTimeoutText (text : Text) : Text :=
  concatWith ['\n'] ((text.splitOn '\n').filter fun line ↦ !isTimeoutLine line)

def cacheManifestContract (inputKey text : Text) : Checked Contract := do
  let _ ← cacheManifestBlobsFromLines inputKey (cacheManifestLines text)
  let proofTimeout ← cacheManifestProofTimeout (cacheManifestLines text)
  .ok ⟨proofTimeout, nonTimeoutText text⟩

/-! ### Writing a manifest -/

def extraBlobRole (path : Text) : Text := "extra:".toList ++ escape path

def cacheManifestText (inputKey : Text) (manifest : CacheManifest) (proofTimeout : Timeout) : Text :=
  concatWith ['\n']
    (["holbuild-cache-action-v4".toList, "input_key=".toList ++ inputKey, "kind=theory".toList,
        timeoutStart ++ timeoutText proofTimeout, "load-metadata-v1".toList] ++
      manifest.parents.map ("parent ".toList ++ ·) ++
      manifest.mldeps.map ("mldep ".toList ++ ·) ++
      ["blob sig ".toList ++ manifest.sigHash, "blob sml ".toList ++ manifest.smlHash,
        "blob dat ".toList ++ manifest.datHash] ++
      manifest.traceHash.toList.map ("blob trace ".toList ++ ·) ++
      manifest.extraHashes.map fun extra ↦
        "blob ".toList ++ extraBlobRole extra.1 ++ ' ' :: extra.2) ++ ['\n']

/-! ### Timeout lines -/

variable {inputKey line text text' : Text} {lines : List Text} {r : Reading} {manifest : CacheManifest}

/-- A timeout line says nothing about the files. -/
theorem parseCacheManifestLine_of_isTimeoutLine (hline : isTimeoutLine line) :
    parseCacheManifestLine inputKey line r = .ok r := by
  obtain ⟨value, rfl⟩ := List.isPrefixOf_iff_prefix.mp hline
  have hne : ∀ other : Text, other.head? ≠ some 'p' → timeoutStart ++ value ≠ other := by
    rintro other hother rfl
    exact hother rfl
  have hstart : ∀ start : Text, start ≠ [] → start.head? ≠ some 'p' →
      start.isPrefixOf (timeoutStart ++ value) = false := by
    intro start hstart hhead
    obtain ⟨c, rest, rfl⟩ := List.exists_cons_of_ne_nil hstart
    rw [Bool.eq_false_iff, ne_eq, List.isPrefixOf_iff_prefix]
    rintro ⟨tail, htail⟩
    exact hhead (congrArg some (List.cons.inj htail).1)
  have hinput : ∀ key : Text, ("input_key=".toList ++ key).head? ≠ some 'p' := by
    intro key
    show some 'i' ≠ some 'p'
    decide
  rw [parseCacheManifestLine, if_neg (not_or.mpr ⟨hne _ (by decide), hne _ (by decide)⟩),
    if_neg (hne _ (by decide)), if_neg (hne _ (hinput inputKey)),
    hstart _ (by decide) (by decide), if_neg Bool.false_ne_true, if_neg (hne _ (by decide)),
    hstart _ (by decide) (by decide), if_neg Bool.false_ne_true, if_neg (hne _ (by decide)),
    if_neg (hne _ (by decide)), if_pos hline]

/-- Timeout lines can be left out before a manifest's files are read. -/
theorem cacheManifestBlobsFromLines_filter :
    cacheManifestBlobsFromLines inputKey (lines.filter fun line ↦ !isTimeoutLine line) =
      cacheManifestBlobsFromLines inputKey lines := by
  have hfold : ∀ r : Reading, (lines.filter fun line ↦ !isTimeoutLine line).foldlM
      (fun r line ↦ parseCacheManifestLine inputKey line r) r =
        lines.foldlM (fun r line ↦ parseCacheManifestLine inputKey line r) r := by
    induction lines with
    | nil => exact fun r ↦ rfl
    | cons line rest ih =>
      intro r
      by_cases hline : isTimeoutLine line
      · rw [List.filter_cons_of_neg (by simpa using hline), List.foldlM_cons,
          parseCacheManifestLine_of_isTimeoutLine hline, ih r]
        rfl
      · rw [List.filter_cons_of_pos (by simpa using hline), List.foldlM_cons, List.foldlM_cons]
        exact congrArg _ (funext ih)
  rw [cacheManifestBlobsFromLines, hfold, cacheManifestBlobsFromLines]

theorem cacheManifestLines_eq : cacheManifestLines text = (text.splitOn '\n').filter (· ≠ []) := by
  rw [cacheManifestLines, tokens, List.splitOn]
  congr 2

/-- The lines of a text put together from lines are those that are not empty. -/
theorem cacheManifestLines_concatWith (hlines : ∀ line ∈ lines, '\n' ∉ line) :
    cacheManifestLines (concatWith ['\n'] lines) = lines.filter (· ≠ []) := by
  rw [cacheManifestLines_eq]
  rcases eq_or_ne lines [] with rfl | hne
  · rfl
  · rw [splitOn_concatWith hlines hne]

/-- The text without the timeout lines has the other lines. -/
theorem cacheManifestLines_nonTimeoutText :
    cacheManifestLines (nonTimeoutText text) =
      (cacheManifestLines text).filter fun line ↦ !isTimeoutLine line := by
  rw [nonTimeoutText, cacheManifestLines_concatWith fun line hline ↦
    sep_notMem_of_mem_splitOn (List.mem_of_mem_filter hline), cacheManifestLines_eq,
    List.filter_filter, List.filter_filter]
  exact List.filter_congr fun line _ ↦ Bool.and_comm _ _

/-- A manifest's files are those of its text without the timeout lines. -/
theorem cacheManifestBlobs_nonTimeoutText :
    cacheManifestBlobsFromLines inputKey (cacheManifestLines (nonTimeoutText text)) =
      cacheManifestBlobsFromLines inputKey (cacheManifestLines text) := by
  rw [cacheManifestLines_nonTimeoutText, cacheManifestBlobsFromLines_filter]

/-- Each line of a manifest that was read was read. -/
theorem exists_parse_of_mem (h : cacheManifestBlobsFromLines inputKey lines = .ok manifest)
    (hline : line ∈ lines) : ∃ r r', parseCacheManifestLine inputKey line r = .ok r' := by
  obtain ⟨last, hlast, -⟩ := bind_eq_ok_iff.mp h
  exact exists_step_of_mem_foldlM hlast hline

/-- What is read as a theory's manifest is not a run's. -/
theorem isRunManifest_eq_false
    (h : cacheManifestBlobsFromLines inputKey (cacheManifestLines text) = .ok manifest) :
    isRunManifest text = false := by
  rw [Bool.eq_false_iff]
  intro hrun
  obtain ⟨r, r', hparse⟩ := exists_parse_of_mem h (List.contains_iff_mem.mp hrun)
  have hkey : "kind=run".toList ≠ "input_key=".toList ++ inputKey := by
    intro heq
    exact absurd (congrArg List.head? heq) (show some 'k' ≠ some 'i' by decide)
  rw [parseCacheManifestLine, if_neg (by decide), if_neg (by decide), if_neg hkey, if_neg (by decide),
    if_neg (by decide), if_pos (by decide)] at hparse
  cases hparse

/-! ### Contracts -/

/-- A manifest has a contract when its files and its timeout can be read. -/
theorem cacheManifestContract_eq_ok_iff {contract : Contract} :
    cacheManifestContract inputKey text = .ok contract ↔
      (∃ manifest, cacheManifestBlobsFromLines inputKey (cacheManifestLines text) = .ok manifest) ∧
        cacheManifestProofTimeout (cacheManifestLines text) = .ok contract.proofTimeout ∧
          contract.nonTimeoutText = nonTimeoutText text := by
  rw [cacheManifestContract, bind_eq_ok_iff]
  constructor
  · rintro ⟨manifest, hmanifest, hrest⟩
    obtain ⟨timeout, htimeout, hok⟩ := bind_eq_ok_iff.mp hrest
    cases hok
    exact ⟨⟨manifest, hmanifest⟩, htimeout, rfl⟩
  · rintro ⟨⟨manifest, hmanifest⟩, htimeout, htext⟩
    refine ⟨manifest, hmanifest, bind_eq_ok_iff.mpr ⟨_, htimeout, ?_⟩⟩
    rw [← htext]

end Holbuild.Cache
