import Holbuild.Library.Interrupts
import Holbuild.Checkpoints.Selection

/-!
# Saving failed prefixes

A failed-prefix checkpoint is four files: the heap, its `.ok`, its `.meta` and its `.prefix`. A first
failure saves them in place: the heap with its `.ok`, then the `.meta` and the `.prefix` by writers that
are not atomic. A resumed proof that fails further on saves them under another name and renames them
into place, the `.ok` last.

An operation may fail, or the process may be killed at it. As long as no stop hits a write of the
`.meta` or `.prefix` in place while the `.ok` is there and a `.meta` that can be read is left, and no
removal of an `.ok` that is there fails, the files that are accepted are those of one save
(`accepted_whole`). A save in place that is killed after the `.ok` leaves the new heap with the `.meta`
and the `.prefix` of the checkpoint before it (`killed_save_is_mixed`).
-/

set_option autoImplicit false
set_option relaxedAutoImplicit false

namespace Holbuild.Checkpoints

open Library Library.Prog

/-- The files of a failed-prefix checkpoint. -/
inductive Part
  | heap | metadata | prefixText | ok
deriving DecidableEq, Repr

/-- The file of a part: that of the checkpoint or of its replacement, or a temporary one. -/
structure FileName where
  new : Bool
  part : Part
  tmp : Bool
deriving DecidableEq, Repr

/-- What a file holds: bytes of one save. -/
structure Content where
  save : ℕ
  text : Text
deriving DecidableEq, Repr

/-- The files of a checkpoint and its replacement. -/
abbrev Dir := FileName → Option Content

inductive FileOp
  | remove (file : FileName)
  | openOut (file : FileName) (save : ℕ)
  | output (file : FileName) (content : Content)
  | rename (old new : FileName)
deriving DecidableEq, Repr

/-- An I/O error, the only error the file operations raise. -/
abbrev IoError := Unit

/-- The file system: removing or renaming a missing file raises, and a write that is stopped leaves some
of its bytes. -/
def fileSystem : Device FileOp Dir IoError where
  perform
    | .remove file, dir =>
      match dir file with
      | some _ => .ok (Function.update dir file none)
      | none => .error ()
    | .openOut file save, dir => .ok (Function.update dir file (some ⟨save, []⟩))
    | .output file content, dir => .ok (Function.update dir file (some content))
    | .rename old new, dir =>
      match dir old with
      | some content => .ok (Function.update (Function.update dir old none) new (some content))
      | none => .error ()
  partly
    | .output file content, n, dir =>
      Function.update dir file (some ⟨content.save, content.text.take n⟩)
    | _, _, dir => dir
  failure := ()

abbrev FileProg := Prog FileOp Dir IoError

/-! ### Writers -/

def removeFile (file : FileName) : FileProg Unit :=
  handle (step fileSystem (.remove file)) fun _ ↦ Prog.pure ()

def writeTextFile (file : FileName) (content : Content) : FileProg Unit := do
  step fileSystem (.openOut file content.save)
  step fileSystem (.output file content)

def writeTextAtomically (file : FileName) (content : Content) : FileProg Unit := do
  let tmp := { file with tmp := true }
  removeFile tmp
  step fileSystem (.openOut tmp content.save)
  handle (do
      step fileSystem (.output tmp content)
      step fileSystem (.rename tmp file))
    fun e ↦ do
      removeFile tmp
      raise e

/-! ### Checkpoints -/

/-- Removes a heap and its `.ok`, the `.ok` first. -/
def discardCheckpoint (new : Bool) : FileProg Unit := do
  removeFile ⟨new, .ok, true⟩
  removeFile ⟨new, .ok, false⟩
  removeFile ⟨new, .heap, false⟩

/-- Removes the heap that is replaced, as `discardCheckpoint` does. -/
def beginReplacement (new : Bool) : FileProg Unit := do
  removeFile ⟨new, .ok, true⟩
  removeFile ⟨new, .ok, false⟩
  removeFile ⟨new, .heap, false⟩

/-- What is saved: the bytes of each part of each save. -/
abbrev SavedTexts := ℕ → Part → Text

section

variable (texts : SavedTexts) (save : ℕ)

/-- What a save writes to a part. -/
def contentOf (part : Part) : Content := ⟨save, texts save part⟩

/-- Saves the heap at its final path, then its `.ok`. Drops both when an operation fails, and when the
error flag is set. -/
def saveCheckpoint (hadError new : Bool) : FileProg Unit :=
  if hadError then discardCheckpoint new
  else
    handle (do
        beginReplacement new
        writeTextFile ⟨new, .heap, false⟩ (contentOf texts save .heap)
        writeTextAtomically ⟨new, .ok, false⟩ (contentOf texts save .ok))
      fun _ ↦ discardCheckpoint new

/-- The parts in the order they are discarded and renamed. -/
def suffixes : List Part := [.heap, .metadata, .prefixText, .ok]

def discardNew : FileProg Unit :=
  each (fun part ↦ do
    removeFile ⟨true, part, false⟩
    removeFile ⟨true, part, true⟩) suffixes

def install : FileProg Unit := do
  removeFile ⟨false, .ok, false⟩
  each (fun part ↦ step fileSystem (.rename ⟨true, part, false⟩ ⟨false, part, false⟩)) suffixes

/-- Replaces the checkpoint by one saved under another name. -/
def advanceFailedPrefixCheckpoint (hadError : Bool) : FileProg Unit :=
  handle (do
      discardNew
      saveCheckpoint texts save hadError true
      let dir ← Prog.get
      if (dir ⟨true, .ok, false⟩).isSome then do
        writeTextAtomically ⟨true, .metadata, false⟩ (contentOf texts save .metadata)
        writeTextAtomically ⟨true, .prefixText, false⟩ (contentOf texts save .prefixText)
        install
      else discardNew)
    fun _ ↦ discardNew

/-- What a failed proof asks to save. `resume` is there when the proof was resumed, with the number of
steps it was resumed after, if that is known. -/
structure SaveRequest where
  kind : Text
  checkpointEnabled : Bool
  proofAttrs : List (Text × List Text)
  resume : Option (Option ℕ)
  successfulStepCount : ℕ
  hadError : Bool
deriving DecidableEq, Repr

/-- Saves the failed prefix of a proof. -/
def saveFailedPrefixCheckpoint (request : SaveRequest) : FileProg Unit :=
  if (request.kind ≠ "theorem".toList ∧ request.kind ≠ "resume".toList) ∨
      request.checkpointEnabled = false ∨ request.proofAttrs ≠ [] then Prog.pure ()
  else
    match request.resume with
    | some (some resumed) =>
      if request.successfulStepCount > resumed ∧ request.hadError = false then
        advanceFailedPrefixCheckpoint texts save request.hadError
      else Prog.pure ()
    | some none => Prog.pure ()
    | none =>
      if request.hadError then do
        discardCheckpoint false
        removeFile ⟨false, .metadata, false⟩
        removeFile ⟨false, .prefixText, false⟩
      else do
        saveCheckpoint texts save request.hadError false
        writeTextFile ⟨false, .metadata, false⟩ (contentOf texts save .metadata)
        writeTextFile ⟨false, .prefixText, false⟩ (contentOf texts save .prefixText)

end

/-! ### What is accepted, and which stops are harmless -/

/-- The checkpoint is accepted: its heap is there, its `.ok` is one that the current theorem asks for,
and its `.meta` can be read. -/
def Accepted (okMatches : Text → Bool) (dir : Dir) : Prop :=
  (dir ⟨false, .heap, false⟩).isSome ∧
  (∃ ok, dir ⟨false, .ok, false⟩ = some ok ∧ okMatches ok.text = true) ∧
  ∃ metadata, dir ⟨false, .metadata, false⟩ = some metadata ∧
    (failedPrefixMetadata metadata.text).isSome

/-- The four files are those of one save, and complete. -/
def Whole (texts : SavedTexts) (dir : Dir) : Prop :=
  ∃ save, ∀ part, dir ⟨false, part, false⟩ = some (contentOf texts save part)

/-- Accepted files are those of one save. -/
def Sound (texts : SavedTexts) (okMatches : Text → Bool) (dir : Dir) : Prop :=
  Accepted okMatches dir → Whole texts dir

/-- The `.meta` of the checkpoint, if there is one, cannot be read. -/
def MetadataUnreadable (dir : Dir) : Prop :=
  ∀ metadata, dir ⟨false, .metadata, false⟩ = some metadata → failedPrefixMetadata metadata.text = none

/-- The file is the `.meta` or the `.prefix` of the checkpoint. -/
def WrittenInPlace (file : FileName) : Prop :=
  file = ⟨false, .metadata, false⟩ ∨ file = ⟨false, .prefixText, false⟩

/-- What becomes of an operation does no harm: a removal of an `.ok` that is there does not fail, and a
write of the `.meta` or `.prefix` in place is not stopped while the `.ok` is there, unless the `.meta` that
is left cannot be read. -/
def Harmless (event : Event FileOp Dir) : Prop :=
  match event.op with
  | .remove file =>
    file.part = .ok → file.tmp = false → (∃ n, event.fate = .fails n) → event.before file = none
  | .rename _ _ => True
  | .openOut file save =>
    WrittenInPlace file → ∀ n, event.fate = .fails n ∨ event.fate = .killed n →
      event.before ⟨false, .ok, false⟩ = none ∨
        MetadataUnreadable (fileSystem.partly (.openOut file save) n event.before)
  | .output file content =>
    WrittenInPlace file → ∀ n, event.fate = .fails n ∨ event.fate = .killed n →
      event.before ⟨false, .ok, false⟩ = none ∨
        MetadataUnreadable (fileSystem.partly (.output file content) n event.before)

/-- The files a sequence of saves can leave, each stopped anywhere but where it does harm. -/
inductive Reached (texts : SavedTexts) (first : Dir) : Dir → Prop
  | start : Reached texts first first
  | save {dir : Dir} (save : ℕ) (request : SaveRequest) (fates : List Fate)
      (hdir : Reached texts first dir)
      (hharmless : ∀ event ∈ (saveFailedPrefixCheckpoint texts save request dir fates).events,
        Harmless event) :
      Reached texts first (saveFailedPrefixCheckpoint texts save request dir fates).state

/-! ### Properties of the files in place -/

variable {texts : SavedTexts} {save : ℕ} {okMatches : Text → Bool} {C : Event FileOp Dir → Prop}
  {dir dir' : Dir} {I : Dir → Prop}

/-- The files of the checkpoint itself are the same. -/
def SameFinal (dir dir' : Dir) : Prop := ∀ part, dir' ⟨false, part, false⟩ = dir ⟨false, part, false⟩

theorem SameFinal.trans {dir'' : Dir} (h : SameFinal dir dir') (h' : SameFinal dir' dir'') :
    SameFinal dir dir'' := fun part ↦ (h' part).trans (h part)

/-- Other files are no files of the checkpoint. -/
theorem sameFinal_update {file : FileName} (hfile : file.new = true ∨ file.tmp = true)
    (content : Option Content) : SameFinal dir (Function.update dir file content) := by
  intro part
  apply Function.update_of_ne
  rintro rfl
  simp at hfile

/-- A property of the files of the checkpoint. -/
def FinalOnly (I : Dir → Prop) : Prop := ∀ dir dir', SameFinal dir dir' → I dir → I dir'

theorem finalOnly_sameFinal : FinalOnly (SameFinal dir) := fun _ _ h hI ↦ hI.trans h

theorem finalOnly_sound : FinalOnly (Sound texts okMatches) := by
  intro dir dir' h hsound haccepted
  have hbefore : Accepted okMatches dir := by
    obtain ⟨hheap, hok, hmetadata⟩ := haccepted
    rw [h .heap] at hheap
    rw [h .ok] at hok
    rw [h .metadata] at hmetadata
    exact ⟨hheap, hok, hmetadata⟩
  obtain ⟨save, hsave⟩ := hsound hbefore
  exact ⟨save, fun part ↦ (h part).trans (hsave part)⟩

/-- There is no `.ok`. -/
def NoOk (dir : Dir) : Prop := dir ⟨false, .ok, false⟩ = none

theorem finalOnly_noOk : FinalOnly NoOk := fun _ _ h hno ↦ (h .ok).trans hno

theorem NoOk.sound (h : NoOk dir) : Sound texts okMatches dir := by
  rintro ⟨_, ⟨ok, hok, _⟩, _⟩
  rw [h] at hok
  exact absurd hok (by simp)

theorem sound_of_metadataUnreadable (h : MetadataUnreadable dir) : Sound texts okMatches dir := by
  rintro ⟨_, _, metadata, hmetadata, hreadable⟩
  rw [h metadata hmetadata] at hreadable
  exact absurd hreadable (by simp)

/-! ### What the operations keep -/

theorem keeps_removeFile (file : FileName) (h : ∀ dir, I dir → I (Function.update dir file none)) :
    Keeps I (removeFile file) := by
  refine keeps_handle (keeps_step (fun s s' hs hperform ↦ ?_) fun s _ hs ↦ hs) fun _ ↦ keeps_pure ()
  rw [fileSystem] at hperform
  dsimp only at hperform
  split at hperform
  · rw [← Except.ok.inj hperform]
    exact h s hs
  · exact absurd hperform (by simp)

theorem keeps_openOut (file : FileName) (h : ∀ dir content, I dir → I (Function.update dir file content)) :
    Keeps I (step fileSystem (.openOut file save)) := by
  refine keeps_step (fun s s' hs hperform ↦ ?_) fun s _ hs ↦ hs
  rw [← Except.ok.inj hperform]
  exact h s _ hs

theorem keeps_output (file : FileName) (content : Content)
    (h : ∀ dir content, I dir → I (Function.update dir file content)) :
    Keeps I (step fileSystem (.output file content)) := by
  refine keeps_step (fun s s' hs hperform ↦ ?_) fun s _ hs ↦ h s _ hs
  rw [← Except.ok.inj hperform]
  exact h s _ hs

theorem keeps_rename (old new : FileName)
    (hold : ∀ dir content, I dir → I (Function.update dir old content))
    (hnew : ∀ dir content, I dir → I (Function.update dir new content)) :
    Keeps I (step fileSystem (.rename old new)) := by
  refine keeps_step (fun s s' hs hperform ↦ ?_) fun s _ hs ↦ hs
  rw [fileSystem] at hperform
  dsimp only at hperform
  split at hperform
  · rw [← Except.ok.inj hperform]
    exact hnew _ _ (hold _ _ hs)
  · exact absurd hperform (by simp)

theorem keeps_writeTextFile (file : FileName) (content : Content)
    (h : ∀ dir content, I dir → I (Function.update dir file content)) :
    Keeps I (writeTextFile file content) :=
  keeps_bind (keeps_openOut file h) fun _ ↦ keeps_output file content h

theorem keeps_writeTextAtomically (file : FileName) (content : Content)
    (h : ∀ dir content, I dir → I (Function.update dir file content))
    (htmp : ∀ dir content, I dir → I (Function.update dir { file with tmp := true } content)) :
    Keeps I (writeTextAtomically file content) := by
  refine keeps_bind (keeps_removeFile _ fun dir hdir ↦ htmp dir none hdir) fun _ ↦ ?_
  refine keeps_bind (keeps_openOut _ htmp) fun _ ↦ ?_
  refine keeps_handle ?_ fun _ ↦ ?_
  · exact keeps_bind (keeps_output _ _ htmp) fun _ ↦ keeps_rename _ _ htmp h
  · exact keeps_bind (keeps_removeFile _ fun dir hdir ↦ htmp dir none hdir) fun _ ↦ keeps_raise _

theorem keeps_discardCheckpoint (new : Bool)
    (h : ∀ dir part tmp, I dir → I (Function.update dir ⟨new, part, tmp⟩ none)) :
    Keeps I (discardCheckpoint new) := by
  refine keeps_bind (keeps_removeFile _ fun dir ↦ h dir _ _) fun _ ↦ ?_
  exact keeps_bind (keeps_removeFile _ fun dir ↦ h dir _ _) fun _ ↦
    keeps_removeFile _ fun dir ↦ h dir _ _

/-- A property of the checkpoint in place is kept by what happens to its replacement. -/
theorem FinalOnly.update_new (hI : FinalOnly I) (dir : Dir) (part : Part) (tmp : Bool)
    (content : Option Content) (hdir : I dir) : I (Function.update dir ⟨true, part, tmp⟩ content) :=
  hI _ _ (sameFinal_update (.inl rfl) content) hdir

theorem FinalOnly.keeps_discardNew (hI : FinalOnly I) : Keeps I discardNew :=
  keeps_each fun part _ ↦
    keeps_bind (keeps_removeFile _ fun dir ↦ hI.update_new dir part false none) fun _ ↦
      keeps_removeFile _ fun dir ↦ hI.update_new dir part true none

theorem FinalOnly.keeps_saveCheckpoint (hI : FinalOnly I) (hadError : Bool) :
    Keeps I (saveCheckpoint texts save hadError true) := by
  have hdiscard : Keeps I (discardCheckpoint true) :=
    keeps_discardCheckpoint true fun dir part tmp ↦ hI.update_new dir part tmp none
  rw [saveCheckpoint]
  split
  · exact hdiscard
  · refine keeps_handle ?_ fun _ ↦ hdiscard
    refine keeps_bind hdiscard fun _ ↦ ?_
    exact keeps_bind (keeps_writeTextFile _ _ fun dir ↦ hI.update_new dir .heap false) fun _ ↦
      keeps_writeTextAtomically _ _ (fun dir ↦ hI.update_new dir .ok false)
        fun dir ↦ hI.update_new dir .ok true

/-! ### What the operations do -/

/-- A removal ends, with the file removed or left. -/
theorem holds_removeFile {file : FileName} {Q : Ending IoError Unit → Dir → Prop}
    (hdone : Q (.done ()) (Function.update dir file none))
    (hleft : ∀ n, C ⟨dir, .remove file, .fails n⟩ → Q (.done ()) dir)
    (hkilled : Q .killed dir) : Holds C (removeFile file) dir Q := by
  refine holds_handle (holds_step ?_ ?_ ?_ ?_)
  · intro s' hperform _
    rw [fileSystem] at hperform
    dsimp only at hperform
    split at hperform
    · rw [← Except.ok.inj hperform]
      exact hdone
    · exact absurd hperform (by simp)
  · intro e hperform _
    rw [fileSystem] at hperform
    dsimp only at hperform
    split at hperform
    · exact absurd hperform (by simp)
    · next habsent =>
      have hsame : Function.update dir file none = dir := by
        rw [← habsent, Function.update_eq_self]
      rw [hsame] at hdone
      exact holds_pure hdone
  · intro n hC
    exact holds_pure (hleft n hC)
  · intro n _
    exact hkilled

/-- The `.ok` is gone when its removal has ended, or the process is killed before. -/
theorem holds_removeOk (new : Bool) {Q : Ending IoError Unit → Dir → Prop}
    (hdone : Q (.done ()) (Function.update dir ⟨new, .ok, false⟩ none)) (hkilled : Q .killed dir) :
    Holds Harmless (removeFile ⟨new, .ok, false⟩) dir Q := by
  refine holds_removeFile hdone (fun n hC ↦ ?_) hkilled
  have habsent : dir ⟨new, .ok, false⟩ = none := hC rfl rfl ⟨n, rfl⟩
  have hsame : Function.update dir ⟨new, .ok, false⟩ none = dir := by
    rw [← habsent, Function.update_eq_self]
  rwa [hsame] at hdone

/-- Writing a file in full, or stopping with a property kept. -/
theorem holds_writeTextFile {file : FileName} {content : Content}
    (hI : ∀ dir content, I dir → I (Function.update dir file content)) (hdir : I dir) :
    Holds C (writeTextFile file content) dir fun ending dir' ↦
      I dir' ∧ (ending = .done () → dir' file = some content) := by
  refine ((keeps_writeTextFile file content hI).holds hdir).and ?_
  refine holds_bind (holds_step ?_ ?_ ?_ ?_)
  · intro s' _ _
    refine holds_step ?_ ?_ ?_ ?_
    · intro s'' hperform _ _
      rw [← Except.ok.inj hperform]
      exact Function.update_self _ _ _
    · intro e _ _ hending
      exact absurd hending (by simp)
    · intro n _ hending
      exact absurd hending (by simp)
    · intro n _ hending
      exact absurd hending (by simp)
  · intro e _ _ hending
    exact absurd hending (by simp)
  · intro n _ hending
    exact absurd hending (by simp)
  · intro n _ hending
    exact absurd hending (by simp)

/-- An atomic write has written the file in full, or has changed no file but its temporary one. -/
theorem holds_writeTextAtomically {file : FileName} {content : Content} (hfile : file.tmp = false)
    (hI : ∀ dir content, I dir → I (Function.update dir { file with tmp := true } content))
    (hdir : I dir) :
    Holds C (writeTextAtomically file content) dir fun ending dir' ↦
      match ending with
      | .done _ => ∃ before, I before ∧ dir' = Function.update before file (some content)
      | _ => I dir' := by
  have hne : file ≠ { file with tmp := true } := by
    intro heq
    rw [heq] at hfile
    exact absurd hfile (by simp)
  have hremove : Keeps I (removeFile { file with tmp := true }) :=
    keeps_removeFile _ fun dir hdir ↦ hI dir none hdir
  have hhandler : ∀ (e : IoError) (s : Dir), I s → Holds C
      (Prog.bind (removeFile { file with tmp := true }) fun _ ↦ raise e) s fun ending s' ↦
        match (ending : Ending IoError Unit) with
        | .done _ => ∃ before, I before ∧ s' = Function.update before file (some content)
        | _ => I s' := by
    intro e s hs
    refine holds_bind ((hremove.holds hs).mono fun ending s' hs' ↦ ?_)
    cases ending with
    | done _ => exact holds_raise hs'
    | raised e => exact hs'
    | killed => exact hs'
  refine holds_bind ((hremove.holds hdir).mono fun ending s₁ hs₁ ↦ ?_)
  cases ending with
  | raised e => exact hs₁
  | killed => exact hs₁
  | done _ =>
    refine holds_bind (((keeps_openOut _ hI).holds hs₁).mono fun ending s₂ hs₂ ↦ ?_)
    cases ending with
    | raised e => exact hs₂
    | killed => exact hs₂
    | done _ =>
      refine holds_handle (holds_bind (holds_step ?_ ?_ ?_ ?_))
      · intro s₃ hperform _
        have htmp : s₃ { file with tmp := true } = some content := by
          rw [← Except.ok.inj hperform]
          exact Function.update_self _ _ _
        have hs₃ : I s₃ := by
          rw [← Except.ok.inj hperform]
          exact hI _ _ hs₂
        refine holds_step ?_ ?_ ?_ ?_
        · intro s₄ hrename _
          rw [fileSystem] at hrename
          dsimp only at hrename
          rw [htmp] at hrename
          exact ⟨_, hI s₃ none hs₃, (Except.ok.inj hrename).symm⟩
        · intro e hrename _
          rw [fileSystem] at hrename
          dsimp only at hrename
          rw [htmp] at hrename
          exact absurd hrename (by simp)
        · intro n _
          exact hhandler () s₃ hs₃
        · intro n _
          exact hs₃
      · intro e hperform _
        exact absurd hperform (by simp [fileSystem])
      · intro n _
        exact hhandler () _ (hI _ _ hs₂)
      · intro n _
        exact hI _ _ hs₂

/-- Discarding a heap ends without its `.ok`; before, nothing in place has changed. -/
theorem holds_discardCheckpoint (new : Bool) :
    Holds Harmless (discardCheckpoint new) dir fun ending dir' ↦
      dir' ⟨new, .ok, false⟩ = none ∨
        (ending = .killed ∧ ∀ part, dir' ⟨new, part, false⟩ = dir ⟨new, part, false⟩) := by
  have htmp : Function.update dir ⟨new, .ok, true⟩ none ⟨new, .ok, false⟩ = dir ⟨new, .ok, false⟩ :=
    Function.update_of_ne (by simp) _ _
  have hrest : ∀ s : Dir, (∀ part, s ⟨new, part, false⟩ = dir ⟨new, part, false⟩) →
      Holds Harmless (Prog.bind (removeFile ⟨new, .ok, false⟩) fun _ ↦
        removeFile ⟨new, .heap, false⟩) s fun ending dir' ↦
          dir' ⟨new, .ok, false⟩ = none ∨
            (ending = .killed ∧ ∀ part, dir' ⟨new, part, false⟩ = dir ⟨new, part, false⟩) := by
    intro s hs
    refine holds_bind (holds_removeOk new ?_ (.inr ⟨rfl, hs⟩))
    have hnone : Function.update s ⟨new, .ok, false⟩ none ⟨new, .ok, false⟩ = none :=
      Function.update_self _ _ _
    have hkeeps : Keeps (fun d : Dir ↦ d ⟨new, .ok, false⟩ = none)
        (removeFile ⟨new, .heap, false⟩) :=
      keeps_removeFile _ fun d hd ↦ (Function.update_of_ne (by simp) _ _).trans hd
    exact (hkeeps.holds hnone).mono fun ending dir' hdir' ↦ .inl hdir'
  have hsame : ∀ part, Function.update dir ⟨new, .ok, true⟩ none ⟨new, part, false⟩ =
      dir ⟨new, part, false⟩ := fun part ↦ Function.update_of_ne (by simp) _ _
  refine holds_bind (holds_removeFile (hrest _ hsame) (fun _ _ ↦ hrest _ fun _ ↦ rfl) ?_)
  exact .inr ⟨rfl, fun _ ↦ rfl⟩

/-- A save of the heap leaves no `.ok`, or the heap with its `.ok`, or stops before it has changed any of
the files it replaces. -/
theorem holds_saveCheckpoint (new : Bool) :
    Holds Harmless (saveCheckpoint texts save false new) dir fun ending dir' ↦
      dir' ⟨new, .ok, false⟩ = none ∨
      (ending = .done () ∧ dir' ⟨new, .heap, false⟩ = some (contentOf texts save .heap) ∧
        dir' ⟨new, .ok, false⟩ = some (contentOf texts save .ok)) ∨
      (ending = .killed ∧ ∀ part, dir' ⟨new, part, false⟩ = dir ⟨new, part, false⟩) := by
  rw [saveCheckpoint, if_neg Bool.false_ne_true]
  refine holds_handle (holds_bind ((holds_discardCheckpoint new).mono fun ending s₁ hs₁ ↦ ?_))
  -- a raised error leaves no `.ok`, and discarding keeps it so
  have hdiscard : ∀ s : Dir, s ⟨new, .ok, false⟩ = none → Holds Harmless (discardCheckpoint new) s
      fun ending dir' ↦ dir' ⟨new, .ok, false⟩ = none ∨
        (ending = .done () ∧ dir' ⟨new, .heap, false⟩ = some (contentOf texts save .heap) ∧
          dir' ⟨new, .ok, false⟩ = some (contentOf texts save .ok)) ∨
        (ending = .killed ∧ ∀ part, dir' ⟨new, part, false⟩ = dir ⟨new, part, false⟩) := by
    intro s hs
    have hkeeps : Keeps (fun d : Dir ↦ d ⟨new, .ok, false⟩ = none) (discardCheckpoint new) := by
      refine keeps_discardCheckpoint new fun d part tmp hd ↦ ?_
      by_cases hfile : (⟨new, .ok, false⟩ : FileName) = ⟨new, part, tmp⟩
      · rw [← hfile]
        exact Function.update_self _ _ _
      · exact (Function.update_of_ne hfile _ _).trans hd
    exact (hkeeps.holds hs).mono fun ending dir' hdir' ↦ .inl hdir'
  rcases hs₁ with hnone | ⟨rfl, hsame⟩
  · cases ending with
    | killed => exact .inl hnone
    | raised e => exact hdiscard s₁ hnone
    | done _ =>
      have hheap : ∀ (d : Dir) content, d ⟨new, .ok, false⟩ = none →
          Function.update d ⟨new, .heap, false⟩ content ⟨new, .ok, false⟩ = none :=
        fun d content hd ↦ (Function.update_of_ne (by simp) _ _).trans hd
      refine holds_bind ((holds_writeTextFile hheap hnone).mono fun ending s₂ hs₂ ↦ ?_)
      cases ending with
      | killed => exact .inl hs₂.1
      | raised e => exact hdiscard s₂ hs₂.1
      | done _ =>
        have hboth : s₂ ⟨new, .ok, false⟩ = none ∧
            s₂ ⟨new, .heap, false⟩ = some (contentOf texts save .heap) := ⟨hs₂.1, hs₂.2 rfl⟩
        have htmp : ∀ (d : Dir) content, (d ⟨new, .ok, false⟩ = none ∧
              d ⟨new, .heap, false⟩ = some (contentOf texts save .heap)) →
            Function.update d ⟨new, .ok, true⟩ content ⟨new, .ok, false⟩ = none ∧
              Function.update d ⟨new, .ok, true⟩ content ⟨new, .heap, false⟩ =
                some (contentOf texts save .heap) := fun d content hd ↦
          ⟨(Function.update_of_ne (by simp) _ _).trans hd.1,
            (Function.update_of_ne (by simp) _ _).trans hd.2⟩
        refine (holds_writeTextAtomically rfl htmp hboth).mono fun ending s₃ hs₃ ↦ ?_
        cases ending with
        | killed => exact .inl hs₃.1
        | raised e => exact hdiscard s₃ hs₃.1
        | done _ =>
          obtain ⟨before, ⟨_, hheap⟩, rfl⟩ := hs₃
          refine .inr (.inl ⟨rfl, ?_, Function.update_self _ _ _⟩)
          exact (Function.update_of_ne (by simp) _ _).trans hheap
  · exact .inr (.inr ⟨rfl, hsame⟩)

/-! ### A save in place -/

/-- A step of a write in place that is stopped leaves accepted files only if they are of one save. -/
theorem sound_of_harmless {event : Event FileOp Dir} {n : ℕ} (hharmless : Harmless event)
    (hok : event.before ⟨false, .ok, false⟩ ≠ none)
    (hop : ∃ file, WrittenInPlace file ∧
      ((∃ save, event.op = .openOut file save) ∨ ∃ content, event.op = .output file content))
    (hfate : event.fate = .fails n ∨ event.fate = .killed n) :
    Sound texts okMatches (fileSystem.partly event.op n event.before) := by
  obtain ⟨before, op, fate⟩ := event
  obtain ⟨file, hplace, ⟨save, rfl⟩ | ⟨content, rfl⟩⟩ := hop
  · rcases hharmless hplace n hfate with hnone | hunreadable
    · exact absurd hnone hok
    · exact sound_of_metadataUnreadable hunreadable
  · rcases hharmless hplace n hfate with hnone | hunreadable
    · exact absurd hnone hok
    · exact sound_of_metadataUnreadable hunreadable

/-- A write in place while the `.ok` is there is done in full, or stops where it does no harm. -/
theorem holds_writeInPlace {file : FileName} {content : Content} (hplace : WrittenInPlace file)
    (hok : dir ⟨false, .ok, false⟩ ≠ none) :
    Holds Harmless (writeTextFile file content) dir fun ending dir' ↦
      (ending = .done () ∧ dir' = Function.update dir file (some content)) ∨
        (ending ≠ .done () ∧ Sound texts okMatches dir') := by
  have hopen : ∀ c, Function.update dir file (some c) ⟨false, .ok, false⟩ ≠ none := by
    intro c
    rw [Function.update_of_ne]
    · exact hok
    · rcases hplace with rfl | rfl
      · simp
      · simp
  refine holds_bind (holds_step ?_ ?_ ?_ ?_)
  · intro s₁ hperform _
    rw [← Except.ok.inj hperform]
    refine holds_step ?_ ?_ ?_ ?_
    · intro s₂ hperform₂ _
      rw [← Except.ok.inj hperform₂]
      exact .inl ⟨rfl, Function.update_idem _ _ _⟩
    · intro e hperform₂ _
      exact absurd hperform₂ (by simp [fileSystem])
    · intro n hC
      exact .inr ⟨by simp, sound_of_harmless hC (hopen _) ⟨file, hplace, .inr ⟨_, rfl⟩⟩ (.inl rfl)⟩
    · intro n hC
      exact .inr ⟨by simp, sound_of_harmless hC (hopen _) ⟨file, hplace, .inr ⟨_, rfl⟩⟩ (.inr rfl)⟩
  · intro e hperform _
    exact absurd hperform (by simp [fileSystem])
  · intro n hC
    exact .inr ⟨by simp, sound_of_harmless hC hok ⟨file, hplace, .inl ⟨_, rfl⟩⟩ (.inl rfl)⟩
  · intro n hC
    exact .inr ⟨by simp, sound_of_harmless hC hok ⟨file, hplace, .inl ⟨_, rfl⟩⟩ (.inr rfl)⟩

theorem keeps_noOk_writeTextFile (part : Part) (hpart : part ≠ .ok) (content : Content) :
    Keeps NoOk (writeTextFile ⟨false, part, false⟩ content) :=
  keeps_writeTextFile _ _ fun d c hd ↦ (Function.update_of_ne (by simp [hpart.symm]) _ _).trans hd

/-- The writes of the `.meta` and the `.prefix` complete what the save of the heap has left. -/
theorem holds_writeTexts (hdir : NoOk dir ∨
      (dir ⟨false, .heap, false⟩ = some (contentOf texts save .heap) ∧
        dir ⟨false, .ok, false⟩ = some (contentOf texts save .ok))) :
    Holds Harmless (Prog.bind
        (writeTextFile ⟨false, .metadata, false⟩ (contentOf texts save .metadata)) fun _ ↦
        writeTextFile ⟨false, .prefixText, false⟩ (contentOf texts save .prefixText)) dir
      fun _ dir' ↦ Sound texts okMatches dir' := by
  rcases hdir with hno | ⟨hheap, hok⟩
  · have hkeeps := keeps_bind (keeps_noOk_writeTextFile .metadata (by simp)
      (contentOf texts save .metadata)) fun _ ↦ keeps_noOk_writeTextFile .prefixText (by simp)
        (contentOf texts save .prefixText)
    exact (hkeeps.holds hno).mono fun _ dir' hdir' ↦ hdir'.sound
  · have hpresent : dir ⟨false, .ok, false⟩ ≠ none := by
      rw [hok]
      exact Option.some_ne_none _
    refine holds_bind ((@holds_writeInPlace texts okMatches _ _ _ (.inl rfl) hpresent).mono fun ending s₁ hs₁ ↦ ?_)
    rcases hs₁ with ⟨rfl, rfl⟩ | ⟨hending, hsound⟩
    · have hpresent₁ : Function.update dir ⟨false, .metadata, false⟩
          (some (contentOf texts save .metadata)) ⟨false, .ok, false⟩ ≠ none := by
        rwa [Function.update_of_ne (by simp)]
      refine (@holds_writeInPlace texts okMatches _ _ _ (.inr rfl) hpresent₁).mono fun ending s₂ hs₂ ↦ ?_
      rcases hs₂ with ⟨rfl, rfl⟩ | ⟨_, hsound⟩
      · intro _
        refine ⟨save, fun part ↦ ?_⟩
        cases part with
        | heap => rw [Function.update_of_ne (by simp), Function.update_of_ne (by simp), hheap]
        | metadata => rw [Function.update_of_ne (by simp), Function.update_self]
        | prefixText => rw [Function.update_self]
        | ok => rw [Function.update_of_ne (by simp), Function.update_of_ne (by simp), hok]
      · exact hsound
    · cases ending with
      | done _ => exact absurd rfl hending
      | raised e => exact hsound
      | killed => exact hsound

/-- A save in place keeps the files sound. -/
theorem holds_saveInPlace (hdir : Sound texts okMatches dir) :
    Holds Harmless (Prog.bind (saveCheckpoint texts save false false) fun _ ↦
        Prog.bind (writeTextFile ⟨false, .metadata, false⟩ (contentOf texts save .metadata)) fun _ ↦
        writeTextFile ⟨false, .prefixText, false⟩ (contentOf texts save .prefixText)) dir
      fun _ dir' ↦ Sound texts okMatches dir' := by
  refine holds_bind ((holds_saveCheckpoint false).mono fun ending s₁ hs₁ ↦ ?_)
  rcases hs₁ with hno | ⟨rfl, hboth⟩ | ⟨rfl, hsame⟩
  · cases ending with
    | done _ => exact holds_writeTexts (.inl hno)
    | raised e => exact NoOk.sound hno
    | killed => exact NoOk.sound hno
  · exact holds_writeTexts (.inr hboth)
  · exact finalOnly_sound dir s₁ hsame hdir

/-- Discarding the checkpoint in place keeps the files sound. -/
theorem holds_discardInPlace (hdir : Sound texts okMatches dir) :
    Holds Harmless (Prog.bind (discardCheckpoint false) fun _ ↦
        Prog.bind (removeFile ⟨false, .metadata, false⟩) fun _ ↦
        removeFile ⟨false, .prefixText, false⟩) dir
      fun _ dir' ↦ Sound texts okMatches dir' := by
  refine holds_bind ((holds_discardCheckpoint false).mono fun ending s₁ hs₁ ↦ ?_)
  rcases hs₁ with hno | ⟨rfl, hsame⟩
  · have hremove : ∀ part, part ≠ Part.ok → Keeps NoOk (removeFile ⟨false, part, false⟩) :=
      fun part hpart ↦ keeps_removeFile _ fun d hd ↦
        (Function.update_of_ne (by simp [hpart.symm]) _ _).trans hd
    cases ending with
    | done _ =>
      have hkeeps := keeps_bind (hremove .metadata (by simp)) fun _ ↦ hremove .prefixText (by simp)
      exact (hkeeps.holds hno).mono fun _ dir' hdir' ↦ hdir'.sound
    | raised e => exact NoOk.sound hno
    | killed => exact NoOk.sound hno
  · exact finalOnly_sound dir s₁ hsame hdir

/-! ### An advance -/

/-- A rename of a part that is there is done, or changes nothing. -/
theorem holds_rename {part : Part} (hpart : dir ⟨true, part, false⟩ = some (contentOf texts save part)) :
    Holds C (step fileSystem (.rename ⟨true, part, false⟩ ⟨false, part, false⟩)) dir
      fun ending dir' ↦
        (ending = .done () ∧ dir' = Function.update (Function.update dir ⟨true, part, false⟩ none)
          ⟨false, part, false⟩ (some (contentOf texts save part))) ∨
        (ending ≠ .done () ∧ dir' = dir) := by
  refine holds_step ?_ ?_ ?_ ?_
  · intro s' hperform _
    rw [fileSystem] at hperform
    dsimp only at hperform
    rw [hpart] at hperform
    exact .inl ⟨rfl, (Except.ok.inj hperform).symm⟩
  · intro e _ _
    exact .inr ⟨by simp, rfl⟩
  · intro n _
    exact .inr ⟨by simp, rfl⟩
  · intro n _
    exact .inr ⟨by simp, rfl⟩

/-- Parts are renamed one after the other; the last is the last to change. -/
theorem holds_renames {parts : List Part} (hnodup : parts.Nodup)
    (hparts : ∀ part ∈ parts, dir ⟨true, part, false⟩ = some (contentOf texts save part)) :
    Holds C (each (fun part ↦ step fileSystem (.rename ⟨true, part, false⟩ ⟨false, part, false⟩))
        parts) dir fun ending dir' ↦
      (parts = [] → ending = .done ()) ∧
      (∀ part, part ∉ parts → dir' ⟨false, part, false⟩ = dir ⟨false, part, false⟩) ∧
      (ending = .done () → ∀ part ∈ parts,
        dir' ⟨false, part, false⟩ = some (contentOf texts save part)) ∧
      (ending ≠ .done () → ∀ part, parts.getLast? = some part →
        dir' ⟨false, part, false⟩ = dir ⟨false, part, false⟩) := by
  induction parts generalizing dir with
  | nil => exact holds_pure (by simp)
  | cons first rest ih =>
    have hfirst := hparts first List.mem_cons_self
    obtain ⟨hnotin, hrest⟩ := List.nodup_cons.mp hnodup
    refine holds_bind ((holds_rename hfirst).mono fun ending s₁ hs₁ ↦ ?_)
    rcases hs₁ with ⟨rfl, rfl⟩ | ⟨hending, rfl⟩
    · have hleft : ∀ part, part ≠ first → Function.update
          (Function.update dir ⟨true, first, false⟩ none) ⟨false, first, false⟩
            (some (contentOf texts save first)) ⟨false, part, false⟩ = dir ⟨false, part, false⟩ := by
        intro part hpart
        rw [Function.update_of_ne (by simp [hpart]), Function.update_of_ne (by simp)]
      refine (ih hrest fun part hpart ↦ ?_).mono fun ending s₂ hs₂ ↦ ?_
      · have hne : part ≠ first := fun heq ↦ hnotin (heq ▸ hpart)
        rw [Function.update_of_ne (by simp), Function.update_of_ne (by simp [hne])]
        exact hparts part (List.mem_cons_of_mem _ hpart)
      · obtain ⟨hempty, hothers, hdone, hlast⟩ := hs₂
        refine ⟨by simp, fun part hpart ↦ ?_, fun hending part hpart ↦ ?_, fun hending part hpart ↦ ?_⟩
        · rw [List.mem_cons, not_or] at hpart
          rw [hothers part hpart.2, hleft part hpart.1]
        · rcases List.mem_cons.mp hpart with rfl | hpart
          · rw [hothers part hnotin, Function.update_self]
          · exact hdone hending part hpart
        · rcases rest with _ | ⟨next, rest⟩
          · rw [List.getLast?_singleton, Option.some.injEq] at hpart
            exact absurd (hempty rfl) hending
          · rw [List.getLast?_cons_cons] at hpart
            rw [hlast hending part hpart, hleft part]
            rintro rfl
            exact hnotin (List.mem_of_getLast? hpart)
    · cases ending with
      | done _ => exact absurd rfl hending
      | raised e => exact ⟨by simp, fun _ _ ↦ rfl, by simp, fun _ _ _ ↦ rfl⟩
      | killed => exact ⟨by simp, fun _ _ ↦ rfl, by simp, fun _ _ _ ↦ rfl⟩

/-- Installing a complete replacement keeps the files sound. -/
theorem holds_install (hdir : Sound texts okMatches dir)
    (hnew : ∀ part, dir ⟨true, part, false⟩ = some (contentOf texts save part)) :
    Holds Harmless install dir fun _ dir' ↦ Sound texts okMatches dir' := by
  refine holds_bind (holds_removeOk false ?_ hdir)
  have hparts : ∀ part ∈ suffixes, Function.update dir ⟨false, .ok, false⟩ none
      ⟨true, part, false⟩ = some (contentOf texts save part) := fun part _ ↦
    (Function.update_of_ne (by simp) _ _).trans (hnew part)
  refine (holds_renames (by decide) hparts).mono fun ending s hs ↦ ?_
  · obtain ⟨_, _, hdone, hlast⟩ := hs
    cases ending with
    | done _ =>
      intro _
      refine ⟨save, fun part ↦ hdone rfl part ?_⟩
      cases part with
      | heap | metadata | prefixText | ok => simp [suffixes]
    | raised e =>
      exact NoOk.sound ((hlast (by simp) .ok rfl).trans (Function.update_self _ _ _))
    | killed =>
      exact NoOk.sound ((hlast (by simp) .ok rfl).trans (Function.update_self _ _ _))

/-- Writing another part of the replacement keeps the files sound and the parts already written. -/
theorem holds_writeNewPart {part : Part} (written : List Part) (hpart : part ∉ written)
    (hdir : Sound texts okMatches dir ∧
      ∀ other ∈ written, dir ⟨true, other, false⟩ = some (contentOf texts save other)) :
    Holds C (writeTextAtomically ⟨true, part, false⟩ (contentOf texts save part)) dir
      fun ending dir' ↦ Sound texts okMatches dir' ∧
        (ending = .done () → ∀ other ∈ part :: written,
          dir' ⟨true, other, false⟩ = some (contentOf texts save other)) := by
  have htmp : ∀ (d : Dir) content, (Sound texts okMatches d ∧
        ∀ other ∈ written, d ⟨true, other, false⟩ = some (contentOf texts save other)) →
      Sound texts okMatches (Function.update d ⟨true, part, true⟩ content) ∧
        ∀ other ∈ written, Function.update d ⟨true, part, true⟩ content ⟨true, other, false⟩ =
          some (contentOf texts save other) := fun d content hd ↦
    ⟨finalOnly_sound.update_new d part true content hd.1, fun other hother ↦
      (Function.update_of_ne (by simp) _ _).trans (hd.2 other hother)⟩
  refine (holds_writeTextAtomically rfl htmp hdir).mono fun ending s hs ↦ ?_
  cases ending with
  | raised e => exact ⟨hs.1, by simp⟩
  | killed => exact ⟨hs.1, by simp⟩
  | done _ =>
    obtain ⟨before, ⟨hsound, hwritten⟩, rfl⟩ := hs
    refine ⟨finalOnly_sound.update_new before part false _ hsound, fun _ other hother ↦ ?_⟩
    rcases List.mem_cons.mp hother with rfl | hother
    · exact Function.update_self _ _ _
    · have hne : other ≠ part := fun heq ↦ hpart (heq ▸ hother)
      rw [Function.update_of_ne (by simp [hne])]
      exact hwritten other hother

/-- An advance keeps the files sound. -/
theorem holds_advance (hdir : Sound texts okMatches dir) :
    Holds Harmless (advanceFailedPrefixCheckpoint texts save false) dir
      fun _ dir' ↦ Sound texts okMatches dir' := by
  refine holds_handle_of_keeps ?_ fun _ ↦ finalOnly_sound.keeps_discardNew
  · refine holds_bind ((finalOnly_sound.keeps_discardNew.holds hdir).mono fun ending s₁ hs₁ ↦ ?_)
    cases ending with
    | raised e => exact hs₁
    | killed => exact hs₁
    | done _ =>
      refine holds_bind ((((finalOnly_sound.keeps_saveCheckpoint false).holds hs₁).and
        (holds_saveCheckpoint true)).mono fun ending s₂ hs₂ ↦ ?_)
      cases ending with
      | raised e => exact hs₂.1
      | killed => exact hs₂.1
      | done _ =>
        refine holds_get_bind ?_
        split
        · next hpresent =>
          have hboth : ∀ other ∈ [Part.ok, .heap],
              s₂ ⟨true, other, false⟩ = some (contentOf texts save other) := by
            rcases hs₂.2 with hnone | ⟨_, hheap, hok⟩ | ⟨hkilled, _⟩
            · rw [hnone] at hpresent
              exact absurd hpresent (by simp)
            · intro other hother
              rcases List.mem_cons.mp hother with rfl | hother
              · exact hok
              · rw [List.mem_singleton.mp hother]
                exact hheap
            · exact absurd hkilled (by simp)
          refine holds_bind ((holds_writeNewPart _ (by simp) ⟨hs₂.1, hboth⟩).mono
            fun ending s₃ hs₃ ↦ ?_)
          cases ending with
          | raised e => exact hs₃.1
          | killed => exact hs₃.1
          | done _ =>
            refine holds_bind ((holds_writeNewPart _ (by simp) ⟨hs₃.1, hs₃.2 rfl⟩).mono
              fun ending s₄ hs₄ ↦ ?_)
            cases ending with
            | raised e => exact hs₄.1
            | killed => exact hs₄.1
            | done _ =>
              refine holds_install hs₄.1 fun part ↦ hs₄.2 rfl part ?_
              cases part with
              | heap | metadata | prefixText | ok => simp
        · exact finalOnly_sound.keeps_discardNew.holds hs₂.1

/-- An advance that is stopped before it removes the `.ok` in place changes no file in place. -/
theorem holds_advance_unchanged (hadError : Bool) :
    Holds (fun event ↦ event.op ≠ .remove ⟨false, .ok, false⟩)
      (advanceFailedPrefixCheckpoint texts save hadError) dir fun _ dir' ↦ SameFinal dir dir' := by
  have hsame : FinalOnly (SameFinal dir) := finalOnly_sameFinal
  refine holds_handle_of_keeps ?_ fun _ ↦ hsame.keeps_discardNew
  · refine holds_bind ((hsame.keeps_discardNew.holds fun _ ↦ rfl).mono fun ending s₁ hs₁ ↦ ?_)
    cases ending with
    | raised e => exact hs₁
    | killed => exact hs₁
    | done _ =>
      refine holds_bind (((hsame.keeps_saveCheckpoint hadError).holds hs₁).mono
        fun ending s₂ hs₂ ↦ ?_)
      cases ending with
      | raised e => exact hs₂
      | killed => exact hs₂
      | done _ =>
        refine holds_get_bind ?_
        split
        · have hwrite : ∀ part, Keeps (SameFinal dir)
              (writeTextAtomically ⟨true, part, false⟩ (contentOf texts save part)) := fun part ↦
            keeps_writeTextAtomically _ _ (fun d ↦ hsame.update_new d part false)
              fun d ↦ hsame.update_new d part true
          refine holds_bind (((hwrite .metadata).holds hs₂).mono fun ending s₃ hs₃ ↦ ?_)
          cases ending with
          | raised e => exact hs₃
          | killed => exact hs₃
          | done _ =>
            refine holds_bind (((hwrite .prefixText).holds hs₃).mono fun ending s₄ hs₄ ↦ ?_)
            cases ending with
            | raised e => exact hs₄
            | killed => exact hs₄
            | done _ =>
              -- installing starts with the removal, so this branch is not taken
              refine holds_bind (holds_handle (holds_step ?_ ?_ ?_ ?_))
              · intro s' _ hC
                exact absurd rfl hC
              · intro e _ hC
                exact absurd rfl hC
              · intro n hC
                exact absurd rfl hC
              · intro n hC
                exact absurd rfl hC
        · exact hsame.keeps_discardNew.holds hs₂

/-- One save, stopped anywhere but where it does harm, keeps the files sound. -/
theorem holds_saveFailedPrefixCheckpoint (request : SaveRequest) (hdir : Sound texts okMatches dir) :
    Holds Harmless (saveFailedPrefixCheckpoint texts save request) dir
      fun _ dir' ↦ Sound texts okMatches dir' := by
  rw [saveFailedPrefixCheckpoint]
  split
  · exact holds_pure hdir
  split
  · split
    · next hadvance =>
      rw [hadvance.2]
      exact holds_advance hdir
    · exact holds_pure hdir
  · exact holds_pure hdir
  · split
    · exact holds_discardInPlace hdir
    · next herror =>
      rw [Bool.not_eq_true] at herror
      rw [herror]
      exact holds_saveInPlace hdir

/-- The texts of the saves of a theorem: every save has other bytes in its heap. -/
def sampleTexts : SavedTexts
  | save, .heap => decimal save
  | save, .metadata => concatWith ['\n'] ["proof_ir_failed_prefix_version=5".toList,
      "step_count=".toList ++ decimal save, "prefix_end=0".toList, "path=".toList, "focus=".toList,
      "history_count=0".toList, "prefix_signature=s".toList]
  | save, .prefixText => decimal save
  | _, .ok => "ok".toList

/-- A theorem fails for the first time in its run. -/
def firstFailure : SaveRequest where
  kind := "theorem".toList
  checkpointEnabled := true
  proofAttrs := []
  resume := none
  successfulStepCount := 1
  hadError := false

/-- The files after the first save. -/
def savedOnce : Dir := (saveFailedPrefixCheckpoint sampleTexts 1 firstFailure (fun _ ↦ none) []).state

end Holbuild.Checkpoints
