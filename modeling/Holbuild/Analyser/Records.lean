import Holbuild.Analyser.Protocol
import Mathlib.Data.List.TakeWhile

/-!
# Boundary and termination records

What the analyser writes of the theorems and of the definitions of a theory's script, and how holbuild
reads it. A record is read as it was written exactly if none of its texts is empty.
-/

set_option autoImplicit false
set_option relaxedAutoImplicit false

namespace Holbuild.Analyser

open Library

/-! ### Integers -/

/-- An integer in base ten, with a tilde if it is negative. -/
def intText : ℤ → String
  | .ofNat n => String.ofList (decimal n)
  | .negSucc n => String.ofList ('~' :: decimal (n + 1))

/-- The number that the digits in front of a text stand for. -/
def readDigits (text : Text) : Option ℕ := readDecimal (text.takeWhile Char.isDigit)

/-- The integer in front of a text, after spaces. -/
def intFromString (text : String) : Option ℤ :=
  match text.toList.dropWhile isSmlSpace with
  | '~' :: digits => (readDigits digits).map fun n ↦ -(n : ℤ)
  | '-' :: digits => (readDigits digits).map fun n ↦ -(n : ℤ)
  | '+' :: digits => (readDigits digits).map fun n ↦ (n : ℤ)
  | digits => (readDigits digits).map fun n ↦ (n : ℤ)

theorem readDigits_decimal (n : ℕ) : readDigits (decimal n) = some n := by
  rw [readDigits, List.takeWhile_eq_self_iff.mpr fun c hc ↦ isDigit_of_mem_decimal hc, readDecimal_decimal]

theorem not_isSmlSpace_of_isDigit {c : Char} (h : c.isDigit) : isSmlSpace c = false := by
  rw [Bool.eq_false_iff]
  intro hspace
  simp only [isSmlSpace, Bool.or_eq_true, decide_eq_true_eq] at hspace
  rcases hspace with ((((rfl | rfl) | rfl) | rfl) | rfl) | rfl <;> exact absurd h (by decide)

/-- An integer is read as it was written. -/
theorem intFromString_intText (n : ℤ) : intFromString (intText n) = some n := by
  cases n with
  | ofNat n =>
    obtain ⟨d, digits, hdigits⟩ := List.exists_cons_of_ne_nil (decimal_ne_nil n)
    have hd : d.isDigit := isDigit_of_mem_decimal (hdigits ▸ List.mem_cons_self)
    have hdrop : (decimal n).dropWhile isSmlSpace = decimal n := by
      rw [hdigits, List.dropWhile_cons_of_neg (by rw [not_isSmlSpace_of_isDigit hd]; exact Bool.false_ne_true)]
    rw [intFromString, intText, String.toList_ofList, hdrop]
    split
    · next rest htilde =>
      rw [hdigits, List.cons.injEq] at htilde
      exact absurd (htilde.1 ▸ hd) (by decide)
    · next rest hminus =>
      rw [hdigits, List.cons.injEq] at hminus
      exact absurd (hminus.1 ▸ hd) (by decide)
    · next rest hplus =>
      rw [hdigits, List.cons.injEq] at hplus
      exact absurd (hplus.1 ▸ hd) (by decide)
    · rw [readDigits_decimal]
      rfl
  | negSucc n =>
    rw [intFromString, intText, String.toList_ofList]
    show (readDigits (decimal (n + 1))).map (fun n ↦ -(n : ℤ)) = _
    rw [readDigits_decimal]
    rfl

theorem intText_ne_empty (n : ℤ) : intText n ≠ "" := by
  intro h
  have hread := intFromString_intText n
  rw [h] at hread
  cases hread

/-! ### Records -/

/-- Where a theorem and its proof are in a script. -/
structure Boundary where
  kind : String
  name : String
  safeName : String
  theoremStart : ℤ
  theoremStop : ℤ
  boundary : ℤ
  tacticStart : ℤ
  tacticEnd : ℤ
  tacticText : String
  proofAttrs : ProofAttrs
  prefixHash : String

/-- Where a definition with a termination proof is in a script. -/
structure Termination where
  name : String
  safeName : String
  definitionStart : ℤ
  definitionStop : ℤ
  boundary : ℤ
  quoteStart : ℤ
  quoteEnd : ℤ
  quoteText : String
  tacticStart : ℤ
  tacticEnd : ℤ
  tacticText : String

def boundaryFields (b : Boundary) : List String :=
  ["boundary", b.kind, b.name, b.safeName, intText b.theoremStart, intText b.theoremStop,
    intText b.boundary, intText b.tacticStart, intText b.tacticEnd, encodeProofAttrs b.proofAttrs,
    b.prefixHash, b.tacticText]

def emitBoundary (b : Boundary) : String := join (boundaryFields b)

def terminationFields (t : Termination) : List String :=
  ["termination", t.name, t.safeName, intText t.definitionStart, intText t.definitionStop,
    intText t.boundary, intText t.quoteStart, intText t.quoteEnd, intText t.tacticStart,
    intText t.tacticEnd, t.quoteText, t.tacticText]

def emitTermination (t : Termination) : String := join (terminationFields t)

def int (field text : String) : Except String ℤ :=
  match intFromString text with
  | some n => .ok n
  | none => .error ("bad analyser " ++ field ++ ": " ++ text)

def parseBoundary : List String → Except String Boundary
  | ["boundary", kind, name, safeName, theoremStart, theoremStop, boundary, tacticStart, tacticEnd,
      proofAttrs, prefixHash, tacticText] => do
    let theoremStart ← int "theorem_start" theoremStart
    let theoremStop ← int "theorem_stop" theoremStop
    let boundary ← int "boundary" boundary
    let tacticStart ← int "tactic_start" tacticStart
    let tacticEnd ← int "tactic_end" tacticEnd
    let proofAttrs ← decodeProofAttrs proofAttrs
    .ok { kind, name, safeName, theoremStart, theoremStop, boundary, tacticStart, tacticEnd, tacticText,
          proofAttrs, prefixHash }
  | _ => .error "bad analyser boundary record"

/-- Reads a termination record; its proof plan is not there yet. -/
def parseTermination : List String → Except String Termination
  | ["termination", name, safeName, definitionStart, definitionStop, boundary, quoteStart, quoteEnd,
      tacticStart, tacticEnd, quoteText, tacticText] => do
    let definitionStart ← int "definition_start" definitionStart
    let definitionStop ← int "definition_stop" definitionStop
    let boundary ← int "boundary" boundary
    let quoteStart ← int "quote_start" quoteStart
    let quoteEnd ← int "quote_end" quoteEnd
    let tacticStart ← int "tactic_start" tacticStart
    let tacticEnd ← int "tactic_end" tacticEnd
    .ok { name, safeName, definitionStart, definitionStop, boundary, quoteStart, quoteEnd, quoteText,
          tacticStart, tacticEnd, tacticText }
  | _ => .error "bad analyser termination record"

/-- The texts of a boundary record that are fields of their own. -/
def Boundary.texts (b : Boundary) : List String := [b.kind, b.name, b.safeName, b.prefixHash, b.tacticText]

def Termination.texts (t : Termination) : List String := [t.name, t.safeName, t.quoteText, t.tacticText]

variable {fields : List String}

theorem int_intText (field : String) (n : ℤ) : int field (intText n) = .ok n := by
  rw [int, intFromString_intText]

theorem parseBoundary_boundaryFields (b : Boundary) : parseBoundary (boundaryFields b) = .ok b := by
  simp only [parseBoundary, boundaryFields, int_intText, decodeProofAttrs_encodeProofAttrs]
  rfl

theorem parseTermination_terminationFields (t : Termination) :
    parseTermination (terminationFields t) = .ok t := by
  simp only [parseTermination, terminationFields, int_intText]
  rfl

theorem length_of_parseBoundary {b : Boundary} (h : parseBoundary fields = .ok b) : fields.length = 12 := by
  unfold parseBoundary at h
  split at h
  · rfl
  · cases h

theorem length_of_parseTermination {t : Termination} (h : parseTermination fields = .ok t) :
    fields.length = 12 := by
  unfold parseTermination at h
  split at h
  · rfl
  · cases h

/-- Fields that arrive in full are not empty. -/
theorem empty_notMem_of_length (h : (split (join fields)).length = fields.length) : "" ∉ fields := by
  rw [split_join, List.length_filter_eq_length_iff] at h
  exact fun hmem ↦ of_decide_eq_true (h "" hmem) rfl

theorem empty_mem_boundaryFields (b : Boundary) : "" ∈ boundaryFields b ↔ "" ∈ b.texts := by
  simp [boundaryFields, Boundary.texts, intText_ne_empty, encodeProofAttrs_ne_empty]

theorem empty_mem_terminationFields (t : Termination) : "" ∈ terminationFields t ↔ "" ∈ t.texts := by
  simp [terminationFields, Termination.texts, intText_ne_empty]

/-- A boundary record is read as it was written exactly if none of its texts is empty. -/
theorem parseBoundary_emitBoundary_iff (b : Boundary) :
    parseBoundary (split (emitBoundary b)) = .ok b ↔ "" ∉ b.texts := by
  rw [← empty_mem_boundaryFields]
  constructor
  · exact fun h ↦ empty_notMem_of_length (length_of_parseBoundary h)
  · intro hne
    rw [emitBoundary, split_join_eq_iff.mpr hne, parseBoundary_boundaryFields]

theorem parseTermination_emitTermination_iff (t : Termination) :
    parseTermination (split (emitTermination t)) = .ok t ↔ "" ∉ t.texts := by
  rw [← empty_mem_terminationFields]
  constructor
  · exact fun h ↦ empty_notMem_of_length (length_of_parseTermination h)
  · intro hne
    rw [emitTermination, split_join_eq_iff.mpr hne, parseTermination_terminationFields]

end Holbuild.Analyser
