import Holbuild.Commands.CoordinatorJson

/-!
# Failures for resubmission

The failure texts the coordinator gives a batch, and the theory that the client finds in them: one that does
not fit the cache, whose key the text names after "theory ". A text is read as its words, and a theory's name
is one word, whatever characters it has.
-/

set_option autoImplicit false
set_option relaxedAutoImplicit false

namespace Holbuild.Commands

open Library Library.Json RemoteExec

/-! ### Words -/

/-- Words with a space between them. -/
def joinWords : List Text → Text
  | [] => []
  | [word] => word
  | word :: next :: rest => word ++ ' ' :: joinWords (next :: rest)

/-- The words have no spaces in them. -/
def Words (words : List Text) : Prop := ∀ word ∈ words, ' ' ∉ word

theorem joinWords_cons (word : Text) {rest : List Text} (hne : rest ≠ []) :
    joinWords (word :: rest) = word ++ ' ' :: joinWords rest := by
  obtain ⟨next, rest, rfl⟩ := List.exists_cons_of_ne_nil hne
  rfl

theorem joinWords_append {first second : List Text} (hfirst : first ≠ []) (hsecond : second ≠ []) :
    joinWords (first ++ second) = joinWords first ++ ' ' :: joinWords second := by
  induction first with
  | nil => exact absurd rfl hfirst
  | cons word rest ih =>
    by_cases hrest : rest = []
    · rw [hrest, List.singleton_append, joinWords_cons word hsecond]
      rfl
    · have hne : rest ++ second ≠ [] := by simp [hrest]
      rw [List.cons_append, joinWords_cons word hne, ih hrest, joinWords_cons word hrest, List.append_assoc,
        List.cons_append]

theorem prefix_space_iff {first second : Text} (hfirst : ' ' ∉ first) (hsecond : ' ' ∉ second) (rest : Text) :
    first ++ [' '] <+: second ++ ' ' :: rest ↔ first = second := by
  induction first generalizing second with
  | nil =>
    rcases second with _ | ⟨c, second⟩
    · simp
    · rw [List.mem_cons, not_or] at hsecond
      simp [hsecond.1]
  | cons c first ih =>
    rw [List.mem_cons, not_or] at hfirst
    rcases second with _ | ⟨d, second⟩
    · simp [Ne.symm hfirst.1]
    · rw [List.mem_cons, not_or] at hsecond
      rw [List.cons_append, List.cons_append, List.cons_prefix_cons, ih hfirst.2 hsecond.2, List.cons.injEq]

/-- The search for a text that ends with a space, at a word: it finds the end of the word, or goes on behind. -/
theorem findSubstring_word {stem word : Text} (hne : stem ≠ []) (hstem : ' ' ∉ stem) (hword : ' ' ∉ word)
    (rest : Text) :
    findSubstring (stem ++ [' ']) (word ++ ' ' :: rest) =
      if stem <:+ word then some (stem ++ ' ' :: rest) else findSubstring (stem ++ [' ']) rest := by
  induction word with
  | nil =>
    have hstarts : ¬ (stem ++ [' ']).isPrefixOf (' ' :: rest) = true := by
      rw [List.isPrefixOf_iff_prefix]
      intro h
      exact hne ((prefix_space_iff hstem hword rest).mp h)
    rw [List.nil_append, findSubstring, if_neg hstarts, if_neg (by simpa using hne)]
  | cons c word ih =>
    have hrest : ' ' ∉ word := fun h ↦ hword (List.mem_cons_of_mem c h)
    have hstarts : (stem ++ [' ']).isPrefixOf (c :: (word ++ ' ' :: rest)) = true ↔ stem = c :: word := by
      rw [List.isPrefixOf_iff_prefix]
      exact prefix_space_iff hstem hword rest
    rw [List.cons_append, findSubstring, ih hrest]
    by_cases heq : stem = c :: word
    · rw [if_pos (hstarts.mpr heq), if_pos (heq ▸ List.suffix_rfl), heq]
      rfl
    · rw [if_neg (fun h ↦ heq (hstarts.mp h))]
      refine if_congr ?_ rfl rfl
      rw [List.suffix_cons_iff]
      exact (or_iff_right heq).symm

theorem findSubstring_lastWord {stem word : Text} (hword : ' ' ∉ word) :
    findSubstring (stem ++ [' ']) word = none := by
  induction word with
  | nil => rfl
  | cons c word ih =>
    have hstarts : ¬ (stem ++ [' ']).isPrefixOf (c :: word) = true := by
      rw [List.isPrefixOf_iff_prefix]
      exact fun h ↦ hword (h.subset (by simp))
    rw [findSubstring, if_neg hstarts, ih fun h ↦ hword (List.mem_cons_of_mem c h)]

/-! ### The key in a list of words -/

/-- The key that follows the first word ending in "theory" that one follows. -/
def wordsKey : List Text → Option String
  | word :: next :: rest =>
    if "theory".toList <:+ word ∧ (next.takeWhile isHex).length = 64 then
      some (String.ofList (next.takeWhile isHex))
    else wordsKey (next :: rest)
  | _ => none

/-- The key after the first word, but the last, that ends in "resubmit:". -/
def wordsResubmitKey : List Text → Option String
  | word :: next :: rest =>
    if "resubmit:".toList <:+ word then wordsKey (next :: rest) else wordsResubmitKey (next :: rest)
  | _ => none

theorem scanTheoryKey_none {text : Text} (h : findSubstring "theory ".toList text = none) :
    scanTheoryKey text = none := by
  rw [scanTheoryKey]
  split
  · rfl
  · next found hfound => rw [h] at hfound; cases hfound

theorem scanTheoryKey_some {text rest : Text}
    (h : findSubstring "theory ".toList text = some ("theory ".toList ++ rest)) :
    scanTheoryKey text = if (rest.takeWhile isHex).length = 64 then some (String.ofList (rest.takeWhile isHex))
      else scanTheoryKey rest := by
  rw [scanTheoryKey]
  split
  · next hnone => rw [h] at hnone; cases hnone
  · next found hfound =>
    obtain rfl : "theory ".toList ++ rest = found := Option.some.inj (h.symm.trans hfound)
    have hdrop : ("theory ".toList ++ rest).drop 7 = rest := rfl
    have hlt : rest.length < ("theory ".toList ++ rest).length := by
      rw [List.length_append]
      exact Nat.lt_add_of_pos_left (by decide)
    simp only [hdrop, dif_pos hlt]

theorem prefix_of_findSubstring {needle : Text} : ∀ {text found : Text},
    findSubstring needle text = some found → needle <+: found
  | [], _, h => nomatch h
  | c :: rest, found, h => by
    rw [findSubstring] at h
    split_ifs at h with hstarts
    · rw [← Option.some.inj h]
      exact List.isPrefixOf_iff_prefix.mp hstarts
    · exact prefix_of_findSubstring h

theorem scanTheoryKey_congr {text rest : Text}
    (h : findSubstring "theory ".toList text = findSubstring "theory ".toList rest) :
    scanTheoryKey text = scanTheoryKey rest := by
  rcases hfound : findSubstring "theory ".toList rest with _ | found
  · rw [scanTheoryKey_none (h.trans hfound), scanTheoryKey_none hfound]
  · obtain ⟨tail, rfl⟩ := prefix_of_findSubstring hfound
    rw [scanTheoryKey_some (h.trans hfound), scanTheoryKey_some hfound]

theorem takeWhile_joinWords {next : Text} (rest : List Text) :
    (joinWords (next :: rest)).takeWhile isHex = next.takeWhile isHex := by
  rcases rest with _ | ⟨other, rest⟩
  · rfl
  · have hspace : isHex ' ' = false := by decide
    rw [joinWords, List.takeWhile_append, List.takeWhile_cons_of_neg (by rw [hspace]; decide),
      List.append_nil]
    split_ifs with hall
    · exact (List.takeWhile_prefix isHex).eq_of_length hall |>.symm
    · rfl

theorem scanTheoryKey_joinWords {words : List Text} (hwords : Words words) :
    scanTheoryKey (joinWords words) = wordsKey words := by
  have hstem : "theory ".toList = "theory".toList ++ [' '] := rfl
  induction words with
  | nil => exact scanTheoryKey_none rfl
  | cons word rest ih =>
    have hword := hwords word List.mem_cons_self
    have hrest := ih fun other hmem ↦ hwords other (List.mem_cons_of_mem _ hmem)
    rcases rest with _ | ⟨next, rest⟩
    · exact scanTheoryKey_none (hstem ▸ findSubstring_lastWord hword)
    · have hfound := findSubstring_word (by decide) (by decide : ' ' ∉ "theory".toList) hword
        (joinWords (next :: rest))
      rw [← hstem] at hfound
      rw [wordsKey, joinWords, ← hrest]
      by_cases hsuffix : "theory".toList <:+ word
      · rw [if_pos hsuffix] at hfound
        rw [scanTheoryKey_some hfound, takeWhile_joinWords]
        simp only [hsuffix, true_and]
      · rw [if_neg hsuffix] at hfound
        rw [if_neg fun h ↦ hsuffix h.1]
        exact scanTheoryKey_congr hfound

theorem findSubstring_joinWords {words : List Text} (hwords : Words words) :
    (findSubstring "resubmit: ".toList (joinWords words)).bind scanTheoryKey = wordsResubmitKey words := by
  have hstem : "resubmit: ".toList = "resubmit:".toList ++ [' '] := rfl
  induction words with
  | nil => rfl
  | cons word rest ih =>
    have hword := hwords word List.mem_cons_self
    have hrest : Words rest := fun other hmem ↦ hwords other (List.mem_cons_of_mem _ hmem)
    rcases rest with _ | ⟨next, rest⟩
    · rw [hstem, joinWords, findSubstring_lastWord hword]
      rfl
    · have hfound := findSubstring_word (by decide) (by decide : ' ' ∉ "resubmit:".toList) hword
        (joinWords (next :: rest))
      rw [← hstem] at hfound
      rw [wordsResubmitKey, joinWords, hfound]
      by_cases hsuffix : "resubmit:".toList <:+ word
      · have hall : Words ("resubmit:".toList :: next :: rest) := by
          intro other hmem
          rcases List.mem_cons.mp hmem with rfl | hmem
          · decide
          · exact hrest other hmem
        rw [if_pos hsuffix, if_pos hsuffix, Option.bind_some]
        refine (scanTheoryKey_joinWords hall).trans ?_
        rw [wordsKey, if_neg fun h ↦ absurd h.1 (by decide)]
      · rw [if_neg hsuffix, if_neg hsuffix]
        exact ih hrest

theorem resubmitTheoryKey_of_words {reason : String} {words : List Text}
    (hreason : reason.toList = joinWords words) (hwords : Words words) :
    resubmitTheoryKey reason = wordsResubmitKey words := by
  rw [resubmitTheoryKey, hreason, findSubstring_joinWords hwords]

/-! ### Failures -/

/-- The name of a theory as a batch has it. -/
abbrev TheoryName := {theory : String // isTheory theory = true}

abbrev Sha256 := {key : String // isSha256 key = true}

/-- What a resubmission says is missing. -/
inductive MissingInput
  | unnamed
  | blob (key : Sha256)
  | theory (key : Sha256)
  | rebuilt (name : TheoryName) (key : Sha256)

def MissingInput.text : MissingInput → String
  | .unnamed => "an input"
  | .blob key => MissingKind.blob.text ++ " " ++ key
  | .theory key => MissingKind.theory.text ++ " " ++ key
  | .rebuilt name key => name ++ " (" ++ (MissingKind.theory.text ++ " " ++ key) ++ ")"

/-- The theory that a resubmission for a missing input names. -/
def MissingInput.theoryKey : MissingInput → Option String
  | .theory key | .rebuilt _ key => some key
  | _ => none

/-- A floating-point number as it is formatted. -/
abbrev Hours := {text : String // ∀ c ∈ text.toList, c.isDigit = true ∨ c ∈ "+-.einfa".toList}

/-- The failures a batch gets. -/
inductive BatchFailure
  | failed (theory : TheoryName) (failure : RemoteExec.Failure)
  | expired (theory : TheoryName) (attempts : ℤ)
  | overdue (hours : Hours)
  | evicted (theory : TheoryName) (parent : Sha256)
  | inputMissing (theory : TheoryName) (missing : MissingInput) (attempts : ℤ)

def failedText (theory failure : String) : String := theory ++ ": " ++ failure

def expiredText (theory attempts : String) : String := theory ++ ": lease expired " ++ attempts ++ " times"

def overdueText (hours : String) : String := "deadline: still running after " ++ hours ++ " h"

def evictedText (theory parent : String) : String :=
  "resubmit: " ++ theory ++ " (theory " ++ parent ++ ") is not in the cache after it built"

def inputMissingText (theory what attempts : String) : String :=
  "resubmit: " ++ theory ++ " is still missing " ++ what ++ " after " ++ attempts ++ " attempts"

namespace BatchFailure

def text : BatchFailure → String
  | .failed theory failure => failedText theory failure.text
  | .expired theory attempts => expiredText theory (toString attempts)
  | .overdue hours => overdueText hours
  | .evicted theory parent => evictedText theory parent
  | .inputMissing theory missing attempts => inputMissingText theory missing.text (toString attempts)

/-- The theory that a failure for resubmission names. -/
def theoryKey : BatchFailure → Option String
  | .evicted _ parent => some parent
  | .inputMissing _ missing _ => missing.theoryKey
  | _ => none

end BatchFailure

/-! ### The words of a failure -/

theorem toList_toString (n : ℤ) : (toString n).toList = integer n := by
  rcases n with n | n
  · exact String.toList_ofList
  · have hdigits : (n + 1).repr.toList = decimal (n + 1) := String.toList_ofList
    have hminus : ("-" ++ (n + 1).repr).toList = '-' :: (n + 1).repr.toList := String.toList_append
    exact hminus.trans (congrArg _ hdigits)

theorem toList_foldl_append (first : String) (rest : List String) :
    (rest.foldl (· ++ ·) first).toList = first.toList ++ rest.flatMap String.toList := by
  induction rest generalizing first with
  | nil => exact (List.append_nil _).symm
  | cons next rest ih => rw [List.foldl_cons, ih, String.toList_append, List.flatMap_cons, List.append_assoc]

theorem toList_failedText (theory failure : String) :
    (failedText theory failure).toList = joinWords [theory.toList ++ [':'], failure.toList] := by
  rw [joinWords, joinWords, List.append_assoc]
  exact (toList_foldl_append theory [": ", failure]).trans (by simp)

theorem toList_expiredText (theory attempts : String) :
    (expiredText theory attempts).toList =
      joinWords [theory.toList ++ [':'], "lease".toList, "expired".toList, attempts.toList,
        "times".toList] := by
  rw [joinWords, List.append_assoc]
  exact toList_foldl_append theory [": lease expired ", attempts, " times"]

theorem toList_overdueText (hours : String) :
    (overdueText hours).toList =
      joinWords ["deadline:".toList, "still".toList, "running".toList, "after".toList, hours.toList,
        "h".toList] :=
  toList_foldl_append "deadline: still running after " [hours, " h"]

theorem toList_evictedText (theory parent : String) :
    (evictedText theory parent).toList =
      joinWords ["resubmit:".toList, theory.toList, "(theory".toList, parent.toList ++ [')'], "is".toList,
        "not".toList, "in".toList, "the".toList, "cache".toList, "after".toList, "it".toList,
        "built".toList] := by
  have htext : (evictedText theory parent).toList = "resubmit: ".toList ++ (theory.toList ++
      (" (theory ".toList ++ (parent.toList ++ [')'] ++ " is not in the cache after it built".toList))) := by
    refine (toList_foldl_append "resubmit: "
      [theory, " (theory ", parent, ") is not in the cache after it built"]).trans ?_
    rw [List.append_assoc parent.toList]
    rfl
  exact htext

theorem toList_inputMissingText (theory what attempts : String) {words : List Text} (hne : words ≠ [])
    (hwhat : what.toList = joinWords words) :
    (inputMissingText theory what attempts).toList =
      joinWords (["resubmit:".toList, theory.toList, "is".toList, "still".toList, "missing".toList] ++ (words ++
        ["after".toList, attempts.toList, "attempts".toList])) := by
  rw [joinWords_append (List.cons_ne_nil _ _) (by simp [hne]), joinWords_append hne (List.cons_ne_nil _ _),
    ← hwhat]
  exact (toList_foldl_append "resubmit: "
    [theory, " is still missing ", what, " after ", attempts, " attempts"]).trans (by
      simp only [joinWords, List.flatMap_cons, List.flatMap_nil, List.append_assoc, List.cons_append]
      rfl)

/-! ### The client's reason -/

/-- The reason that the client gives for a batch that failed. -/
def clientReason (failure : String) : String := String.ofList ("failed: ".toList ++ decoded failure.toList)

theorem decoded_append (first second : Text) : decoded (first ++ second) = decoded first ++ decoded second :=
  List.flatMap_append

theorem decoded_of_plain {text : Text} (h : ∀ c ∈ text, isPlain c = true) : decoded text = text :=
  decoded_eq_iff.mpr h

theorem decoded_joinWords (words : List Text) : decoded (joinWords words) = joinWords (words.map decoded) := by
  induction words with
  | nil => rfl
  | cons word rest ih =>
    by_cases hrest : rest = []
    · rw [hrest]
      rfl
    · have hspace : decoded (' ' :: joinWords rest) = ' ' :: decoded (joinWords rest) := rfl
      rw [joinWords_cons word hrest, decoded_append, hspace, ih, List.map_cons,
        joinWords_cons _ (by simpa using hrest)]

theorem space_notMem_decoded {text : Text} (h : ' ' ∉ text) : ' ' ∉ decoded text := by
  have hdigit (n : ℕ) : ' ' ∉ (unitEscape n).tail := by
    have hplain (k : ℕ) : ' ' ≠ Nat.digitChar (k % 16) :=
      (digitChar_plain (Nat.mod_lt k (by decide))).2.2.symm
    simp [unitEscape, hplain]
  have hchar : ∀ c ∈ text, ' ' ∉ decodedChar c := by
    intro c hc
    have hne : ' ' ≠ c := fun heq ↦ h (heq ▸ hc)
    rw [decodedChar]
    split_ifs
    · simpa using hne
    · decide
    · decide
    · decide
    · exact hdigit _
    · rw [List.mem_append, not_or]
      exact ⟨hdigit _, hdigit _⟩
  rw [decoded, List.mem_flatMap]
  rintro ⟨c, hc, hspace⟩
  exact hchar c hc hspace

/-- The words of a failure, as the client has them, after the state. -/
theorem resubmitTheoryKey_clientReason {failure : String} {words : List Text} (hne : words ≠ [])
    (hfailure : failure.toList = joinWords words) (hwords : Words words) :
    resubmitTheoryKey (clientReason failure) = wordsResubmitKey (words.map decoded) := by
  have hreason : (clientReason failure).toList = joinWords ("failed:".toList :: words.map decoded) := by
    refine String.toList_ofList.trans ?_
    rw [hfailure, decoded_joinWords, joinWords_cons _ (by simpa using hne)]
    rfl
  have hall : Words ("failed:".toList :: words.map decoded) := by
    intro word hmem
    rcases List.mem_cons.mp hmem with rfl | hmem
    · decide
    · obtain ⟨other, hother, rfl⟩ := List.mem_map.mp hmem
      exact space_notMem_decoded (hwords other hother)
  rw [resubmitTheoryKey_of_words hreason hall]
  obtain ⟨word, rest, rfl⟩ := List.exists_cons_of_ne_nil hne
  rw [List.map_cons, wordsResubmitKey, if_neg (by decide)]

/-! ### What the words are -/

/-- No word ends in "theory". -/
def Unnamed (words : List Text) : Prop := ∀ word ∈ words, ¬ "theory".toList <:+ word

instance (words : List Text) : Decidable (Unnamed words) :=
  inferInstanceAs (Decidable (∀ _ ∈ _, ¬ _ <:+ _))

/-- A word that ends in no "theory" names none. -/
theorem wordsKey_cons {word : Text} (hword : ¬ "theory".toList <:+ word) (rest : List Text) :
    wordsKey (word :: rest) = wordsKey rest := by
  rcases rest with _ | ⟨next, rest⟩
  · rfl
  · rw [wordsKey, if_neg fun h ↦ hword h.1]

theorem wordsKey_of_unnamed : ∀ {words : List Text}, Unnamed words → wordsKey words = none
  | [], _ => rfl
  | [_], _ => rfl
  | word :: next :: rest, h => by
    rw [wordsKey, if_neg fun hword ↦ h word List.mem_cons_self hword.1]
    exact wordsKey_of_unnamed fun other hmem ↦ h other (List.mem_cons_of_mem _ hmem)

theorem wordsResubmitKey_of_unnamed : ∀ {words : List Text}, Unnamed words.tail →
    wordsResubmitKey words = none
  | [], _ => rfl
  | [_], _ => rfl
  | word :: next :: rest, h => by
    rw [wordsResubmitKey]
    split_ifs
    · exact wordsKey_of_unnamed h
    · exact wordsResubmitKey_of_unnamed fun other hmem ↦ h other (List.mem_cons_of_mem _ hmem)

/-- A word that no hexadecimal digit follows names no theory. -/
theorem wordsKey_skip (word : Text) {next : Text} (rest : List Text)
    (hnext : (next.takeWhile isHex).length ≠ 64) :
    wordsKey (word :: next :: rest) = wordsKey (next :: rest) := by
  rw [wordsKey, if_neg fun h ↦ hnext h.2]

theorem notSuffix_of_last {c : Char} (hc : 'y' ≠ c) (word : Text) : ¬ "theory".toList <:+ word ++ [c] := by
  intro h
  have hy : ['y'] <:+ word ++ [c] := List.IsSuffix.trans (by decide) h
  rw [List.singleton_suffix_iff_getLast?_eq_some, List.getLast?_concat] at hy
  exact hc (Option.some.inj hy).symm

theorem notSuffix_of_notMem {word : Text} (h : 't' ∉ word) : ¬ "theory".toList <:+ word :=
  fun hsuffix ↦ h (hsuffix.subset (by decide))

theorem TheoryName.space_notMem (theory : TheoryName) : ' ' ∉ theory.1.toList := by
  have htheory := theory.2
  simp only [isTheory, Bool.and_eq_true, List.all_eq_true] at htheory
  obtain ⟨⟨⟨-, hpackage⟩, -⟩, hname⟩ := htheory
  intro hspace
  have hsplit : theory.1.toList.takeWhile (· != ':') ++ theory.1.toList.dropWhile (· != ':') =
      theory.1.toList := List.takeWhile_append_dropWhile
  rw [← hsplit, List.mem_append] at hspace
  rcases hspace with hspace | hspace
  · exact absurd (hpackage _ hspace) (by decide)
  · rcases hdrop : theory.1.toList.dropWhile (· != ':') with _ | ⟨c, rest⟩
    · rw [hdrop] at hspace
      cases hspace
    · rw [hdrop] at hspace hname
      rcases List.mem_cons.mp hspace with heq | hspace
      · have hhead := List.head_dropWhile_not (· != ':') (by rw [hdrop]; exact List.cons_ne_nil c rest)
        simp [hdrop, ← heq] at hhead
      · exact absurd (hname _ hspace) (by decide)

theorem isPlain_of_between {c low high : Char} (hlow : low ≤ c) (hhigh : c ≤ high) (hfirst : 32 ≤ low.toNat)
    (hlast : high.toNat < 127) : isPlain c = true := by
  have hfrom : low.toNat ≤ c.toNat := UInt32.le_iff_toNat_le.mp (Char.le_def.mp hlow)
  have hto : c.toNat ≤ high.toNat := UInt32.le_iff_toNat_le.mp (Char.le_def.mp hhigh)
  simp only [isPlain, isPrintable, Bool.or_eq_true, Bool.and_eq_true, decide_eq_true_eq]
  omega

theorem Sha256.chars (key : Sha256) : key.1.toList.length = 64 ∧
    ∀ c ∈ key.1.toList, isHex c = true ∧ isPlain c = true ∧ c ≠ ' ' ∧ c ≠ 't' := by
  have hkey := key.2
  simp only [isSha256, Bool.and_eq_true, beq_iff_eq, List.all_eq_true, Bool.or_eq_true,
    decide_eq_true_eq] at hkey
  refine ⟨hkey.1, fun c hc ↦ ?_⟩
  rcases hkey.2 c hc with ⟨hlow, hhigh⟩ | ⟨hlow, hhigh⟩
  · refine ⟨?_, isPlain_of_between hlow hhigh (by decide) (by decide), ?_, ?_⟩
    · simp only [isHex, Char.isDigit, Bool.or_eq_true, Bool.and_eq_true, decide_eq_true_eq]
      exact .inl (.inl ⟨hlow, hhigh⟩)
    · rintro rfl
      exact absurd hlow (by decide)
    · rintro rfl
      exact absurd hhigh (by decide)
  · refine ⟨?_, isPlain_of_between hlow hhigh (by decide) (by decide), ?_, ?_⟩
    · simp only [isHex, Bool.or_eq_true, Bool.and_eq_true, decide_eq_true_eq]
      exact .inl (.inr ⟨hlow, hhigh⟩)
    · rintro rfl
      exact absurd hlow (by decide)
    · rintro rfl
      exact absurd hhigh (by decide)

theorem Sha256.decoded_eq (key : Sha256) : decoded key.1.toList = key.1.toList :=
  decoded_of_plain fun c hc ↦ (key.chars.2 c hc).2.1

theorem Sha256.space_notMem (key : Sha256) : ' ' ∉ key.1.toList := fun h ↦ (key.chars.2 _ h).2.2.1 rfl

theorem Sha256.takeWhile_isHex (key : Sha256) {rest : Text} (hrest : rest.head?.any isHex = false) :
    (key.1.toList ++ rest).takeWhile isHex = key.1.toList := by
  have hall : key.1.toList.takeWhile isHex = key.1.toList :=
    List.takeWhile_eq_self_iff.mpr fun c hc ↦ (key.chars.2 c hc).1
  rw [List.takeWhile_append_of_pos fun c hc ↦ (key.chars.2 c hc).1]
  rcases rest with _ | ⟨c, rest⟩
  · exact List.append_nil _
  · have hc : isHex c = false := hrest
    rw [List.takeWhile_cons_of_neg (by rw [hc]; decide), List.append_nil]

/-- The key behind the word "theory" is found. -/
theorem wordsKey_hit (key : Sha256) {word rest : Text} (hword : "theory".toList <:+ word)
    (hrest : rest.head?.any isHex = false) (others : List Text) :
    wordsKey (word :: (key.1.toList ++ rest) :: others) = some key.1 := by
  have htake := key.takeWhile_isHex hrest
  rw [wordsKey, htake, if_pos ⟨hword, key.chars.1⟩]
  exact congrArg some (String.ofList_toList)

theorem isPlain_of_isDigit {c : Char} (h : c.isDigit = true) : isPlain c = true := by
  simp only [Char.isDigit, Bool.and_eq_true, decide_eq_true_eq] at h
  have hlow : '0' ≤ c := h.1
  have hhigh : c ≤ '9' := h.2
  exact isPlain_of_between hlow hhigh (by decide) (by decide)

theorem integer_plain (n : ℤ) : decoded (integer n) = integer n ∧ 't' ∉ integer n ∧ ' ' ∉ integer n := by
  have hchars : ∀ c ∈ integer n, isPlain c = true ∧ c ≠ 't' ∧ c ≠ ' ' := by
    have hdecimal {n : ℕ} {c : Char} (hc : c ∈ decimal n) : isPlain c = true ∧ c ≠ 't' ∧ c ≠ ' ' := by
      have hdigit := isDigit_of_mem_decimal hc
      refine ⟨isPlain_of_isDigit hdigit, ?_, ?_⟩ <;> rintro rfl <;> exact absurd hdigit (by decide)
    intro c hc
    rcases n with n | n
    · exact hdecimal hc
    · rcases List.mem_cons.mp hc with rfl | hc
      · decide
      · exact hdecimal hc
  exact ⟨decoded_of_plain fun c hc ↦ (hchars c hc).1, fun h ↦ (hchars _ h).2.1 rfl,
    fun h ↦ (hchars _ h).2.2 rfl⟩

/-! ### The key of each failure -/

theorem resubmitTheoryKey_failed (theory : TheoryName) (failure : RemoteExec.Failure) :
    resubmitTheoryKey (clientReason (failedText theory failure.text)) = none := by
  have hwords : Words [theory.1.toList ++ [':'], failure.text.toList] := by
    intro word hmem
    simp only [List.mem_cons, List.not_mem_nil, or_false] at hmem
    rcases hmem with rfl | rfl
    · simp [theory.space_notMem]
    · cases failure <;> decide
  rw [resubmitTheoryKey_clientReason (List.cons_ne_nil _ _) (toList_failedText _ _) hwords]
  refine wordsResubmitKey_of_unnamed fun word hmem ↦ ?_
  obtain rfl := List.mem_singleton.mp hmem
  cases failure <;> decide

theorem resubmitTheoryKey_expired (theory : TheoryName) (attempts : ℤ) :
    resubmitTheoryKey (clientReason (expiredText theory (toString attempts))) = none := by
  obtain ⟨hdecoded, hplain, hspace⟩ := integer_plain attempts
  have htext := toList_expiredText theory.1 (toString attempts)
  rw [toList_toString] at htext
  have hwords : Words [theory.1.toList ++ [':'], "lease".toList, "expired".toList, integer attempts,
      "times".toList] := by
    intro word hmem
    simp only [List.mem_cons, List.not_mem_nil, or_false] at hmem
    rcases hmem with rfl | rfl | rfl | rfl | rfl
    any_goals decide
    · simp [theory.space_notMem]
    · exact hspace
  rw [resubmitTheoryKey_clientReason (List.cons_ne_nil _ _) htext hwords]
  refine wordsResubmitKey_of_unnamed fun word hmem ↦ ?_
  simp only [List.map_cons, List.map_nil, List.tail_cons, List.mem_cons, List.not_mem_nil, or_false,
    hdecoded] at hmem
  rcases hmem with rfl | rfl | rfl | rfl
  any_goals decide
  exact notSuffix_of_notMem hplain

theorem resubmitTheoryKey_overdue (hours : Hours) :
    resubmitTheoryKey (clientReason (overdueText hours)) = none := by
  have hchars : ∀ c ∈ hours.1.toList, isPlain c = true ∧ c ≠ 't' ∧ c ≠ ' ' := by
    have hmarks : ∀ c ∈ "+-.einfa".toList, isPlain c = true ∧ c ≠ 't' ∧ c ≠ ' ' := by decide
    intro c hc
    rcases hours.2 c hc with hdigit | hmark
    · refine ⟨isPlain_of_isDigit hdigit, ?_, ?_⟩ <;> rintro rfl <;> exact absurd hdigit (by decide)
    · exact hmarks c hmark
  have hwords : Words ["deadline:".toList, "still".toList, "running".toList, "after".toList,
      hours.1.toList, "h".toList] := by
    intro word hmem
    simp only [List.mem_cons, List.not_mem_nil, or_false] at hmem
    rcases hmem with rfl | rfl | rfl | rfl | rfl | rfl
    any_goals decide
    exact fun h ↦ (hchars _ h).2.2 rfl
  rw [resubmitTheoryKey_clientReason (List.cons_ne_nil _ _) (toList_overdueText _) hwords]
  refine wordsResubmitKey_of_unnamed fun word hmem ↦ ?_
  have hdecoded : decoded hours.1.toList = hours.1.toList := decoded_of_plain fun c hc ↦ (hchars c hc).1
  simp only [List.map_cons, List.map_nil, List.tail_cons, List.mem_cons, List.not_mem_nil, or_false,
    hdecoded] at hmem
  rcases hmem with rfl | rfl | rfl | rfl | rfl
  any_goals decide
  exact notSuffix_of_notMem fun h ↦ (hchars _ h).2.1 rfl

theorem resubmitTheoryKey_evicted (theory : TheoryName) (parent : Sha256) :
    resubmitTheoryKey (clientReason (evictedText theory parent)) = some parent.1 := by
  have hwords : Words ["resubmit:".toList, theory.1.toList, "(theory".toList, parent.1.toList ++ [')'],
      "is".toList, "not".toList, "in".toList, "the".toList, "cache".toList, "after".toList, "it".toList,
      "built".toList] := by
    intro word hmem
    simp only [List.mem_cons, List.not_mem_nil, or_false] at hmem
    rcases hmem with rfl | rfl | rfl | rfl | rfl | rfl | rfl | rfl | rfl | rfl | rfl | rfl
    any_goals decide
    · exact theory.space_notMem
    · simp [parent.space_notMem]
  rw [resubmitTheoryKey_clientReason (List.cons_ne_nil _ _) (toList_evictedText _ _) hwords]
  simp only [List.map_cons]
  rw [wordsResubmitKey, if_pos (by decide), wordsKey_skip _ _ (by decide), decoded_append, parent.decoded_eq]
  exact wordsKey_hit parent (by decide) (by decide) _

namespace MissingInput

/-- The words that say what is missing. -/
def words : MissingInput → List Text
  | .unnamed => ["an".toList, "input".toList]
  | .blob key => ["blob".toList, key.1.toList]
  | .theory key => ["theory".toList, key.1.toList]
  | .rebuilt name key => [name.1.toList, "(theory".toList, key.1.toList ++ [')']]

theorem words_ne_nil (missing : MissingInput) : missing.words ≠ [] := by
  cases missing <;> exact List.cons_ne_nil _ _

theorem toList_text (missing : MissingInput) : missing.text.toList = joinWords missing.words := by
  cases missing with
  | unnamed => rfl
  | blob key => exact toList_foldl_append "blob" [" ", key.1] |>.trans (by simp [words, joinWords])
  | theory key => exact toList_foldl_append "theory" [" ", key.1] |>.trans (by simp [words, joinWords])
  | rebuilt name key =>
    have hinner : ("theory" ++ " " ++ key.1).toList = "theory".toList ++ ' ' :: key.1.toList :=
      toList_foldl_append "theory" [" ", key.1] |>.trans (by simp)
    refine (toList_foldl_append name.1 [" (", "theory" ++ " " ++ key.1, ")"]).trans ?_
    rw [List.flatMap_cons, List.flatMap_cons, hinner]
    simp [words, joinWords]

theorem words_plain (missing : MissingInput) : Words missing.words := by
  intro word hmem
  cases missing with
  | unnamed =>
    simp only [words, List.mem_cons, List.not_mem_nil, or_false] at hmem
    rcases hmem with rfl | rfl <;> decide
  | blob key | theory key =>
    simp only [words, List.mem_cons, List.not_mem_nil, or_false] at hmem
    rcases hmem with rfl | rfl
    · decide
    · exact key.space_notMem
  | rebuilt name key =>
    simp only [words, List.mem_cons, List.not_mem_nil, or_false] at hmem
    rcases hmem with rfl | rfl | rfl
    · exact name.space_notMem
    · decide
    · simp [key.space_notMem]

/-- Before words of which none ends in "theory", the words name the missing theory. -/
theorem wordsKey_words (missing : MissingInput) {rest : List Text} (hrest : Unnamed rest) :
    wordsKey (missing.words.map decoded ++ rest) = missing.theoryKey := by
  have hkey (key : Sha256) : ¬ "theory".toList <:+ key.1.toList :=
    notSuffix_of_notMem fun h ↦ (key.chars.2 _ h).2.2.2 rfl
  cases missing with
  | unnamed =>
    refine wordsKey_of_unnamed fun word hmem ↦ ?_
    rcases List.mem_append.mp hmem with hmem | hmem
    · simp only [words, List.map_cons, List.map_nil, List.mem_cons, List.not_mem_nil, or_false] at hmem
      rcases hmem with rfl | rfl <;> decide
    · exact hrest word hmem
  | blob key =>
    refine wordsKey_of_unnamed fun word hmem ↦ ?_
    rcases List.mem_append.mp hmem with hmem | hmem
    · simp only [words, List.map_cons, List.map_nil, List.mem_cons, List.not_mem_nil, or_false,
        key.decoded_eq] at hmem
      rcases hmem with rfl | rfl
      · decide
      · exact hkey key
    · exact hrest word hmem
  | theory key =>
    have hhit := wordsKey_hit key (by decide : "theory".toList <:+ "theory".toList)
      (by decide : ([] : Text).head?.any isHex = false) rest
    rw [List.append_nil] at hhit
    simp only [words, List.map_cons, List.map_nil, key.decoded_eq]
    exact hhit
  | rebuilt name key =>
    have hhit := wordsKey_hit key (by decide : "theory".toList <:+ "(theory".toList)
      (by decide : [')'].head?.any isHex = false) rest
    simp only [words, List.map_cons, List.map_nil, decoded_append, key.decoded_eq]
    exact (wordsKey_skip _ _ (by decide)).trans hhit

end MissingInput

theorem resubmitTheoryKey_inputMissing (theory : TheoryName) (missing : MissingInput) (attempts : ℤ) :
    resubmitTheoryKey (clientReason (inputMissingText theory missing.text (toString attempts))) =
      missing.theoryKey := by
  obtain ⟨hdecoded, hplain, hspace⟩ := integer_plain attempts
  have htext := toList_inputMissingText theory.1 missing.text (toString attempts) missing.words_ne_nil
    missing.toList_text
  rw [toList_toString] at htext
  have hwords : Words (["resubmit:".toList, theory.1.toList, "is".toList, "still".toList, "missing".toList] ++
      (missing.words ++ ["after".toList, integer attempts, "attempts".toList])) := by
    intro word hmem
    simp only [List.mem_append, List.mem_cons, List.not_mem_nil, or_false] at hmem
    rcases hmem with (rfl | rfl | rfl | rfl | rfl) | hmem | rfl | rfl | rfl
    any_goals decide
    · exact theory.space_notMem
    · exact missing.words_plain word hmem
    · exact hspace
  have hrest : Unnamed ["after".toList, integer attempts, "attempts".toList] := by
    intro word hmem
    simp only [List.mem_cons, List.not_mem_nil, or_false] at hmem
    rcases hmem with rfl | rfl | rfl
    any_goals decide
    exact notSuffix_of_notMem hplain
  have hmap : (["resubmit:".toList, theory.1.toList, "is".toList, "still".toList, "missing".toList] ++
      (missing.words ++ ["after".toList, integer attempts, "attempts".toList])).map decoded =
      "resubmit:".toList :: decoded theory.1.toList :: "is".toList :: "still".toList :: "missing".toList ::
        (missing.words.map decoded ++ ["after".toList, integer attempts, "attempts".toList]) := by
    have hlast : ["after".toList, integer attempts, "attempts".toList].map decoded =
        ["after".toList, integer attempts, "attempts".toList] := by
      rw [List.map_cons, List.map_cons, hdecoded]
      rfl
    rw [List.map_append, List.map_append, hlast]
    rfl
  rw [resubmitTheoryKey_clientReason (by simp) htext hwords, hmap, wordsResubmitKey, if_pos (by decide),
    wordsKey_skip _ _ (by decide), wordsKey_cons (by decide), wordsKey_cons (by decide),
    wordsKey_cons (by decide)]
  exact missing.wordsKey_words hrest

/-- The client's reason for a batch that failed, from the line that ends the batch. -/
theorem batchOutcome_failed (failure : String) (proof : Option ProofFailure) :
    batchOutcome (lineOfObject (batchObject .failed (some failure))) proof =
      .failed (clientReason failure) proof := by
  have hobject := named_batchObject .failed (some failure)
  have hstate : jsonStringField "state" (lineOfObject (batchObject .failed (some failure))) =
      some "failed".toList :=
    jsonStringField_dumps (fieldName_of_clientFields "state" (by decide)) false hobject (by decide)
  have hfailure : jsonStringField "failure" (lineOfObject (batchObject .failed (some failure))) =
      some (decoded failure.toList) :=
    jsonStringField_dumps (fieldName_of_clientFields "failure" (by decide)) false hobject (by decide)
  rw [batchOutcome, hstate, hfailure]
  rfl

/-- Of a failure for resubmission that names a theory, the client finds the theory's key, and of no other. -/
theorem resubmitTheoryKey_text (failure : BatchFailure) :
    resubmitTheoryKey (clientReason failure.text) = failure.theoryKey := by
  cases failure with
  | failed theory failure => exact resubmitTheoryKey_failed theory failure
  | expired theory attempts => exact resubmitTheoryKey_expired theory attempts
  | overdue hours => exact resubmitTheoryKey_overdue hours
  | evicted theory parent => exact resubmitTheoryKey_evicted theory parent
  | inputMissing theory missing attempts => exact resubmitTheoryKey_inputMissing theory missing attempts

/-! ### All that the client reads -/

/-- The client gets what it asks of a line exactly if it knows the escapes in every string it asks for and no
earlier string hides the name. It gets all of an answer, and the theory of every failure for resubmission. -/
theorem client_reads_iff (action : ActionStatus) (state : BatchState) (failure : Option String) (compact : Bool)
    (digit : ℕ → Fin 16) (reported : BatchFailure) (proof : Option ProofFailure) :
    ((∀ name ∈ clientFields,
        jsonStringField name (lineOfObject (actionObject action)) = stringValue name (actionObject action)) ↔
      Readable (actionObject action)) ∧
    ((∀ name ∈ clientFields,
        jsonStringField name (lineOfObject (batchObject state failure)) =
          stringValue name (batchObject state failure)) ↔
      Readable (batchObject state failure)) ∧
    (∀ name ∈ clientFields,
      jsonStringField name (dumps compact (submitAnswer digit)) = stringValue name (submitAnswer digit)) ∧
    (∀ name ∈ clientFields,
      jsonStringField name (dumps compact (cancelAnswer state)) = stringValue name (cancelAnswer state)) ∧
    ∃ reason,
      batchOutcome (lineOfObject (batchObject .failed (some reported.text))) proof = .failed reason proof ∧
        resubmitTheoryKey reason = reported.theoryKey := by
  have hanswer (compact : Bool) {field : String} {text : Text} (hfield : field ∈ clientFields)
      (htext : ∀ c ∈ text, isPlain c = true) : ∀ name ∈ clientFields,
      jsonStringField name (dumps compact [(field, .string text)]) =
        stringValue name [(field, .string text)] := by
    have hnamed : Named [(field, .string text)] := by
      intro member hmem
      rw [List.mem_singleton.mp hmem]
      exact fieldName_of_clientFields field hfield
    have hread := (jsonStringField_iff hnamed compact List.not_mem_nil).mpr (readable_singleton htext)
    simpa only [List.append_nil] using hread
  refine ⟨?_, ?_, ?_, ?_, _, batchOutcome_failed reported.text proof, resubmitTheoryKey_text reported⟩
  · exact jsonStringField_iff (named_actionObject action) false (by decide)
  · exact jsonStringField_iff (named_batchObject state failure) false (by decide)
  · exact hanswer compact (by decide) (isPlain_uuidText digit)
  · exact hanswer compact (by decide) (isPlain_batchStateText state)

/-- The name of a theory hides the state behind it, and the escape of a letter is not decoded. -/
theorem theory_hides_state :
    let key := "00112233445566778899aabbccddeeff00112233445566778899aabbccddeeff"
    let first : ActionStatus := ⟨key, "a:\"state", .done, .standard, 1, none, none⟩
    let second : ActionStatus := ⟨key, "a:\u00e9", .done, .standard, 1, none, none⟩
    isTheory first.theory = true ∧ isTheory second.theory = true ∧
      stringValue "state" (actionObject first) = some "done".toList ∧
      jsonStringField "state" (lineOfObject (actionObject first)) = none ∧
      stringValue "theory" (actionObject second) = some "a:\u00e9".toList ∧
      jsonStringField "theory" (lineOfObject (actionObject second)) = some "a:u00e9".toList := by
  decide +kernel

end Holbuild.Commands
