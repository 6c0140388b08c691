import Holbuild.Library.Lines

/-!
# Texts cut at separators

`split` cuts a text at a separator, and an empty text has no pieces; `rows` cuts a text at two
separators in one pass from its end. Texts without the separator that are put together with it are
cut into the same texts again (`splitOn_concatWith`, `split_concatWith`), with one exception: one
empty text is read back as no text at all, and no text is ever cut into one empty text
(`split_ne_singleton_nil`).
-/

set_option autoImplicit false
set_option relaxedAutoImplicit false

namespace Holbuild.Library

variable {sep sep' c : Char} {text piece : Text} {fields : List Text}

/-! ### One separator -/

/-- Texts without the separator are read back from the text they were put together in. -/
theorem splitOn_concatWith (hsep : ∀ field ∈ fields, sep ∉ field) (hne : fields ≠ []) :
    (concatWith [sep] fields).splitOn sep = fields :=
  List.splitOn_intercalate sep hsep hne

theorem concatWith_splitOn : concatWith [sep] (text.splitOn sep) = text :=
  List.intercalate_splitOn sep

theorem concatWith_cons_cons (field next : Text) (rest : List Text) :
    concatWith [sep] (field :: next :: rest) = field ++ sep :: concatWith [sep] (next :: rest) := by
  simp [concatWith]

theorem concatWith_append {first second : List Text} (hfirst : first ≠ []) (hsecond : second ≠ []) :
    concatWith [sep] (first ++ second) = concatWith [sep] first ++ sep :: concatWith [sep] second := by
  obtain ⟨next, more, rfl⟩ := List.exists_cons_of_ne_nil hsecond
  induction first with
  | nil => exact absurd rfl hfirst
  | cons field rest ih =>
    cases rest with
    | nil =>
      rw [List.singleton_append, concatWith_cons_cons]
      simp [concatWith]
    | cons other rest =>
      rw [List.cons_append, List.cons_append, concatWith_cons_cons, concatWith_cons_cons,
        ← List.cons_append, ih (List.cons_ne_nil _ _)]
      simp

/-- A character of texts put together is the separator or in one of the texts. -/
theorem mem_concatWith (hc : c ∈ concatWith [sep] fields) : c = sep ∨ ∃ field ∈ fields, c ∈ field := by
  induction fields with
  | nil => exact absurd hc List.not_mem_nil
  | cons field rest ih =>
    cases rest with
    | nil => exact .inr ⟨field, List.mem_cons_self, by simpa [concatWith] using hc⟩
    | cons next rest =>
      rw [concatWith_cons_cons, List.mem_append, List.mem_cons] at hc
      rcases hc with hfield | hsep | hrest
      · exact .inr ⟨field, List.mem_cons_self, hfield⟩
      · exact .inl hsep
      · rcases ih hrest with hsep | ⟨other, hother, hmem⟩
        · exact .inl hsep
        · exact .inr ⟨other, List.mem_cons_of_mem _ hother, hmem⟩

theorem mem_concatWith_of_mem {field : Text} (hfield : field ∈ fields) (hc : c ∈ field) :
    c ∈ concatWith [sep] fields := by
  induction fields with
  | nil => exact absurd hfield List.not_mem_nil
  | cons first rest ih =>
    cases rest with
    | nil =>
      rw [List.mem_singleton] at hfield
      subst hfield
      simpa [concatWith] using hc
    | cons next rest =>
      rw [concatWith_cons_cons, List.mem_append, List.mem_cons]
      rcases List.mem_cons.mp hfield with rfl | hrest
      · exact .inl hc
      · exact .inr (.inr (ih hrest))

/-- The pieces of a text have no characters but those of the text. -/
theorem mem_of_mem_splitOn (hpiece : piece ∈ text.splitOn sep) (hc : c ∈ piece) : c ∈ text := by
  have hmem : c ∈ concatWith [sep] (text.splitOn sep) := mem_concatWith_of_mem hpiece hc
  rwa [concatWith_splitOn] at hmem

/-- The separator is in no piece. -/
theorem sep_notMem_of_mem_splitOn (hpiece : piece ∈ text.splitOn sep) : sep ∉ piece := by
  induction text generalizing piece with
  | nil =>
    rw [List.splitOn_nil, List.mem_singleton] at hpiece
    rw [hpiece]
    exact List.not_mem_nil
  | cons first rest ih =>
    rw [List.splitOn_cons_eq_if_modifyHead] at hpiece
    split at hpiece
    · rcases List.mem_cons.mp hpiece with rfl | hrest
      · exact List.not_mem_nil
      · exact ih hrest
    · next hfirst =>
      obtain ⟨head, tail, hsplit⟩ := List.exists_cons_of_ne_nil (List.splitOn_ne_nil sep rest)
      rw [hsplit, List.modifyHead_cons] at hpiece
      rcases List.mem_cons.mp hpiece with rfl | htail
      · have hhead : sep ∉ head := ih (hsplit ▸ List.mem_cons_self)
        rw [List.mem_cons, not_or]
        exact ⟨fun heq ↦ hfirst (by simp [heq]), hhead⟩
      · exact ih (hsplit ▸ List.mem_cons_of_mem _ htail)

/-! ### Lists of texts in one text -/

/-- The pieces of a text, none for the empty text. -/
def split (sep : Char) (text : Text) : List Text :=
  if text = [] then [] else text.splitOn sep

/-- Texts without the separator are read back, unless they are one empty text. -/
theorem split_concatWith (hsep : ∀ field ∈ fields, sep ∉ field) (hne : fields ≠ [[]]) :
    split sep (concatWith [sep] fields) = fields := by
  rcases fields with _ | ⟨field, rest⟩
  · rfl
  · have htext : concatWith [sep] (field :: rest) ≠ [] := by
      rcases rest with _ | ⟨next, rest⟩
      · simpa [concatWith] using hne
      · rw [concatWith_cons_cons]
        simp
    rw [split, if_neg htext, splitOn_concatWith hsep (List.cons_ne_nil _ _)]

theorem split_ne_singleton_nil : split sep text ≠ [[]] := by
  intro hsplit
  rw [split] at hsplit
  split at hsplit
  · exact absurd hsplit.symm (List.cons_ne_nil _ _)
  · next htext =>
    have hback := @concatWith_splitOn sep text
    rw [hsplit] at hback
    exact htext hback.symm

theorem mem_of_mem_split (hpiece : piece ∈ split sep text) (hc : c ∈ piece) : c ∈ text := by
  rw [split] at hpiece
  split at hpiece
  · exact absurd hpiece List.not_mem_nil
  · exact mem_of_mem_splitOn hpiece hc

/-! ### Two separators -/

/-- What a pass from the end of a text has found: the piece at hand, the pieces of its row, and the
rows after it. -/
structure Cut where
  piece : Text
  row : List Text
  rows : List (List Text)

/-- Takes one more character. -/
def Cut.add (sep sep' : Char) (c : Char) (cut : Cut) : Cut :=
  if c = sep then ⟨[], [], (cut.piece :: cut.row) :: cut.rows⟩
  else if c = sep' then ⟨[], cut.piece :: cut.row, cut.rows⟩
  else ⟨c :: cut.piece, cut.row, cut.rows⟩

/-- The rows of a text between the first separator, each cut at the second, in one pass. -/
def rows (sep sep' : Char) (text : Text) : List (List Text) :=
  let cut := text.foldr (Cut.add sep sep') ⟨[], [], []⟩
  (cut.piece :: cut.row) :: cut.rows

/-- One pass finds what cutting the text and then each row finds. -/
theorem rows_eq_map_splitOn (sep sep' : Char) (text : Text) :
    rows sep sep' text = (text.splitOn sep).map fun row ↦ row.splitOn sep' := by
  induction text with
  | nil => rfl
  | cons c rest ih =>
    rw [rows] at ih ⊢
    obtain ⟨head, tail, hsplit⟩ := List.exists_cons_of_ne_nil (List.splitOn_ne_nil sep rest)
    rw [hsplit, List.map_cons, List.cons.injEq] at ih
    rw [List.foldr_cons, List.splitOn_cons_eq_if_modifyHead]
    by_cases hsep : c = sep
    · rw [if_pos (beq_iff_eq.mpr hsep), hsplit, List.map_cons, List.map_cons, ← ih.1, ← ih.2,
        Cut.add, if_pos hsep, List.splitOn_nil]
    · rw [if_neg (by rwa [beq_iff_eq]), hsplit, List.modifyHead_cons, List.map_cons, ← ih.2,
        Cut.add, if_neg hsep, List.splitOn_cons_eq_if_modifyHead]
      by_cases hsep' : c = sep'
      · rw [if_pos hsep', if_pos (beq_iff_eq.mpr hsep'), ← ih.1]
      · rw [if_neg hsep', if_neg (by rwa [beq_iff_eq]), ← ih.1, List.modifyHead_cons]

/-- The rows of a text that starts with terminated lines. -/
theorem splitOn_terminated_append {lines : List Text} (hlines : ∀ line ∈ lines, '\n' ∉ line)
    (rest : Text) : (terminated lines ++ rest).splitOn '\n' = lines ++ rest.splitOn '\n' := by
  induction lines with
  | nil => rfl
  | cons line lines ih =>
    rw [terminated_cons, List.append_assoc, List.cons_append,
      List.splitOn_append_cons_self_of_not_mem (hlines line List.mem_cons_self),
      ih fun l hl ↦ hlines l (List.mem_cons_of_mem _ hl), List.cons_append]

/-- Terminated lines that are not empty are the tokens between newlines. -/
theorem tokens_terminated {lines : List Text} (hlines : ∀ line ∈ lines, '\n' ∉ line ∧ line ≠ []) :
    tokens (· = '\n') (terminated lines) = lines := by
  have hsplit := splitOn_terminated_append (fun line hline ↦ (hlines line hline).1) []
  have hsame : (fun c : Char ↦ c == '\n') = fun c ↦ decide (c = '\n') := rfl
  rw [List.append_nil, List.splitOn, hsame] at hsplit
  rw [tokens, hsplit, List.filter_append,
    List.filter_eq_self.mpr fun line hline ↦ decide_eq_true (hlines line hline).2]
  exact List.append_nil lines

end Holbuild.Library
