import Holbuild.Library.Fields
import Holbuild.Library.Outcomes

/-!
# The lines of the HOL analyser

A line is a list of fields, escaped and put together with spaces. The reader cuts it into tokens, so that
it gets the fields back without the empty ones (`split_join`). The attributes of a proof are one field with
two separators inside, which keep empty texts (`decodeProofAttrs_encodeProofAttrs`). A boundary or a
termination record is read as it was written exactly if none of its texts is empty.
-/

set_option autoImplicit false
set_option relaxedAutoImplicit false

namespace Holbuild.Analyser

open Library

/-! ### Escaped texts -/

def escapeChar (c : Char) : Text :=
  if c = '\\' then ['\\', '\\']
  else if c = '\n' then ['\\', 'n']
  else if c = '\t' then ['\\', 't']
  else if c = ' ' then ['\\', 's']
  else [c]

def escape (s : String) : String := String.ofList (s.toList.flatMap escapeChar)

/-- What an escaped character stands for; any other character keeps its backslash. -/
def unescapeChar (c : Char) : Text :=
  if c = '\\' then ['\\']
  else if c = 'n' then ['\n']
  else if c = 't' then ['\t']
  else if c = 's' then [' ']
  else ['\\', c]

def unescapeText : Text → Text
  | [] => []
  | ['\\'] => ['\\']
  | '\\' :: c :: rest => unescapeChar c ++ unescapeText rest
  | c :: rest => c :: unescapeText rest

def unescape (s : String) : String := String.ofList (unescapeText s.toList)

def join (fields : List String) : String :=
  String.ofList (concatWith [' '] (fields.map fun field ↦ (escape field).toList))

def split (line : String) : List String :=
  (tokens (· = ' ') line.toList).map fun token ↦ unescape (String.ofList token)

variable {text rest : Text} {s field : String} {fields : List String}

theorem unescapeText_cons {c : Char} (hc : c ≠ '\\') :
    unescapeText (c :: rest) = c :: unescapeText rest := by
  rw [unescapeText]
  · exact fun h _ ↦ hc h
  · exact fun _ _ h _ ↦ hc h

/-- An escaped character is read back. -/
theorem unescapeText_escapeChar (c : Char) : unescapeText (escapeChar c ++ rest) = c :: unescapeText rest := by
  by_cases hslash : c = '\\'
  · subst hslash
    rfl
  by_cases hline : c = '\n'
  · subst hline
    rfl
  by_cases htab : c = '\t'
  · subst htab
    rfl
  by_cases hspace : c = ' '
  · subst hspace
    rfl
  rw [escapeChar, if_neg hslash, if_neg hline, if_neg htab, if_neg hspace]
  exact unescapeText_cons hslash

theorem unescape_escape (s : String) : unescape (escape s) = s := by
  have htext : ∀ text : Text, unescapeText (text.flatMap escapeChar) = text := by
    intro text
    induction text with
    | nil => rfl
    | cons c rest ih => rw [List.flatMap_cons, unescapeText_escapeChar, ih]
  rw [unescape, escape, String.toList_ofList, htext, String.ofList_toList]

/-- An escaped character has no separator. -/
theorem separator_notMem_escapeChar {sep : Char} (hsep : sep = ' ' ∨ sep = '\t' ∨ sep = '\n') (c : Char) :
    sep ∉ escapeChar c := by
  rw [escapeChar]
  split_ifs with hslash hline htab hspace
  · rcases hsep with rfl | rfl | rfl <;> decide
  · rcases hsep with rfl | rfl | rfl <;> decide
  · rcases hsep with rfl | rfl | rfl <;> decide
  · rcases hsep with rfl | rfl | rfl <;> decide
  · rw [List.mem_singleton]
    rintro rfl
    rcases hsep with rfl | rfl | rfl
    · exact hspace rfl
    · exact htab rfl
    · exact hline rfl

theorem separator_notMem_escape {sep : Char} (hsep : sep = ' ' ∨ sep = '\t' ∨ sep = '\n') (s : String) :
    sep ∉ (escape s).toList := by
  rw [escape, String.toList_ofList, List.mem_flatMap]
  rintro ⟨c, -, hc⟩
  exact separator_notMem_escapeChar hsep c hc

theorem escape_eq_nil_iff : (escape s).toList = [] ↔ s = "" := by
  constructor
  · intro h
    rw [← unescape_escape s, unescape, h]
    rfl
  · rintro rfl
    rfl

/-! ### Lines -/

/-- The reader gets back the fields that are not empty. -/
theorem split_join : split (join fields) = fields.filter fun field ↦ field ≠ "" := by
  have hpieces : ((join fields).toList.splitOnP (· = ' ')).filter (fun piece ↦ piece ≠ []) =
      (fields.map fun field ↦ (escape field).toList).filter fun piece ↦ piece ≠ [] := by
    rw [join, String.toList_ofList]
    cases fields with
    | nil => rfl
    | cons field rest =>
      have hsep : ∀ piece ∈ (field :: rest).map fun field ↦ (escape field).toList, ' ' ∉ piece := by
        intro piece hpiece
        obtain ⟨f, -, rfl⟩ := List.mem_map.mp hpiece
        exact separator_notMem_escape (.inl rfl) f
      have hread := splitOn_concatWith hsep (by simp)
      have hsame : (fun c : Char ↦ c == ' ') = fun c ↦ decide (c = ' ') := rfl
      rw [List.splitOn, hsame] at hread
      rw [hread]
  have hne : ((fun piece : Text ↦ decide (piece ≠ [])) ∘ fun field ↦ (escape field).toList) =
      fun field ↦ decide (field ≠ "") := by
    funext field
    exact decide_eq_decide.mpr (not_congr escape_eq_nil_iff)
  rw [split, tokens, hpieces, List.filter_map, hne, List.map_map]
  conv_rhs => rw [← List.map_id (fields.filter fun field ↦ field ≠ "")]
  refine List.map_congr_left fun field _ ↦ ?_
  show unescape (String.ofList (escape field).toList) = field
  rw [String.ofList_toList, unescape_escape]

theorem split_join_eq_iff : split (join fields) = fields ↔ "" ∉ fields := by
  rw [split_join, List.filter_eq_self]
  simp only [decide_eq_true_eq]
  exact ⟨fun h hmem ↦ h "" hmem rfl, fun h field hfield heq ↦ h (heq ▸ hfield)⟩

/-- A line that is put together has no newline. -/
theorem newline_notMem_join : '\n' ∉ (join fields).toList := by
  rw [join, String.toList_ofList]
  intro hmem
  rcases mem_concatWith hmem with hspace | ⟨piece, hpiece, hmem⟩
  · cases hspace
  · obtain ⟨field, -, rfl⟩ := List.mem_map.mp hpiece
    exact separator_notMem_escape (.inr (.inr rfl)) field hmem

/-! ### Proof attributes -/

/-- The attributes of a proof: keys, each with its values. -/
abbrev ProofAttrs := List (String × List String)

def encodeProofAttrs (attrs : ProofAttrs) : String :=
  String.ofList (concatWith ['\n'] ("attrs".toList :: attrs.map fun attr ↦
    concatWith ['\t'] ((attr.1 :: attr.2).map fun text ↦ (escape text).toList)))

/-- Reads the row of an attribute. -/
def decodeProofAttr (row : Text) : Except String (String × List String) :=
  match (row.splitOn '\t').map fun text ↦ unescape (String.ofList text) with
  | key :: values => .ok (key, values)
  | [] => .error "bad proof attribute record"

def decodeProofAttrs (text : String) : Except String ProofAttrs :=
  match text.toList.splitOn '\n' with
  | [] => .error "bad proof attributes"
  | tag :: rows =>
    if tag = "attrs".toList then rows.mapM decodeProofAttr else .error "bad proof attributes"

/-- The row of an attribute has no newline. -/
theorem newline_notMem_row {texts : List String} :
    '\n' ∉ concatWith ['\t'] (texts.map fun text ↦ (escape text).toList) := by
  intro hmem
  rcases mem_concatWith hmem with htab | ⟨piece, hpiece, hmem⟩
  · cases htab
  · obtain ⟨text, -, rfl⟩ := List.mem_map.mp hpiece
    exact separator_notMem_escape (.inr (.inr rfl)) text hmem

theorem decodeProofAttr_row (attr : String × List String) : decodeProofAttr (concatWith ['\t']
    ((attr.1 :: attr.2).map fun text ↦ (escape text).toList)) = .ok attr := by
  have hsep : ∀ piece ∈ (attr.1 :: attr.2).map fun text ↦ (escape text).toList, '\t' ∉ piece := by
    intro piece hpiece
    obtain ⟨text, -, rfl⟩ := List.mem_map.mp hpiece
    exact separator_notMem_escape (.inr (.inl rfl)) text
  have hback : ∀ texts : List String, (texts.map fun text ↦ (escape text).toList).map
      (fun text ↦ unescape (String.ofList text)) = texts := by
    intro texts
    rw [List.map_map]
    conv_rhs => rw [← List.map_id texts]
    refine List.map_congr_left fun text _ ↦ ?_
    show unescape (String.ofList (escape text).toList) = text
    rw [String.ofList_toList, unescape_escape]
  rw [decodeProofAttr, splitOn_concatWith hsep (by simp), hback]

/-- Attributes are read as they were written. -/
theorem decodeProofAttrs_encodeProofAttrs (attrs : ProofAttrs) :
    decodeProofAttrs (encodeProofAttrs attrs) = .ok attrs := by
  have hsep : ∀ row ∈ "attrs".toList :: attrs.map (fun attr ↦
      concatWith ['\t'] ((attr.1 :: attr.2).map fun text ↦ (escape text).toList)), '\n' ∉ row := by
    refine List.forall_mem_cons.mpr ⟨by decide, fun row hrow ↦ ?_⟩
    obtain ⟨attr, -, rfl⟩ := List.mem_map.mp hrow
    exact newline_notMem_row
  rw [decodeProofAttrs, encodeProofAttrs, String.toList_ofList, splitOn_concatWith hsep (by simp)]
  show (if "attrs".toList = "attrs".toList then _ else _) = _
  rw [if_pos rfl, List.mapM_map]
  exact (mapM_eq_ok fun attr _ ↦ decodeProofAttr_row attr).trans (congrArg Except.ok (List.map_id attrs))

theorem encodeProofAttrs_ne_empty (attrs : ProofAttrs) : encodeProofAttrs attrs ≠ "" := by
  intro h
  have hread := decodeProofAttrs_encodeProofAttrs attrs
  rw [h] at hread
  cases hread

end Holbuild.Analyser
