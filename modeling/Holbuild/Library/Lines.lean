import Holbuild.Library.Texts
import Mathlib.Data.List.Lex
import Mathlib.Data.Char
import Mathlib.Data.List.Induction
import Mathlib.Order.Lattice

/-!
# Lines and separated pieces of texts

A piece that does not contain a separator is determined by the text it starts or ends with
(`append_sep_inj`, `append_sep_inj_right`). Lines are put one after the other, each with a newline;
lines without newlines can be read back (`terminated_injective`). Sorted texts are the same for every
order of the texts (`sortStrings_eq_iff`).
-/

set_option autoImplicit false
set_option relaxedAutoImplicit false

namespace Holbuild.Library

variable {α : Type*}

/-! ### Separators -/

/-- Texts with a separator between them. -/
def concatWith (separator : Text) (texts : List Text) : Text :=
  (texts.intersperse separator).flatten

theorem notMem_concatWith {c : Char} {separator : Text} {texts : List Text} (hseparator : c ∉ separator)
    (h : ∀ text ∈ texts, c ∉ text) : c ∉ concatWith separator texts := by
  induction texts with
  | nil => exact List.not_mem_nil
  | cons text rest ih =>
    obtain ⟨htext, hrest⟩ := List.forall_mem_cons.mp h
    cases rest with
    | nil => simpa [concatWith] using htext
    | cons next rest =>
      have hcons : concatWith separator (text :: next :: rest) =
          text ++ separator ++ concatWith separator (next :: rest) := by simp [concatWith]
      rw [hcons, List.mem_append, List.mem_append, not_or, not_or]
      exact ⟨⟨htext, hseparator⟩, ih hrest⟩

/-- The pieces before the first separator are equal, and so is what follows. -/
theorem append_sep_inj {sep : α} {a b x y : List α} (ha : sep ∉ a) (hb : sep ∉ b)
    (h : a ++ sep :: x = b ++ sep :: y) : a = b ∧ x = y := by
  induction a generalizing b with
  | nil =>
    cases b with
    | nil => exact ⟨rfl, (List.cons.inj h).2⟩
    | cons c b => exact absurd ((List.cons.inj h).1 ▸ List.mem_cons_self) hb
  | cons c a ih =>
    cases b with
    | nil => exact absurd ((List.cons.inj h).1 ▸ List.mem_cons_self) ha
    | cons d b =>
      obtain ⟨rfl, htail⟩ := List.cons.inj h
      obtain ⟨rfl, rfl⟩ := ih (fun hmem ↦ ha (List.mem_cons_of_mem _ hmem))
        (fun hmem ↦ hb (List.mem_cons_of_mem _ hmem)) htail
      exact ⟨rfl, rfl⟩

/-- The pieces after the last separator are equal, and so is what precedes. -/
theorem append_sep_inj_right {sep : α} {a b x y : List α} (ha : sep ∉ a) (hb : sep ∉ b)
    (h : x ++ sep :: a = y ++ sep :: b) : x = y ∧ a = b := by
  have hreverse : a.reverse ++ sep :: x.reverse = b.reverse ++ sep :: y.reverse := by
    simpa using congrArg List.reverse h
  obtain ⟨hab, hxy⟩ := append_sep_inj (fun hmem ↦ ha (List.mem_reverse.mp hmem))
    (fun hmem ↦ hb (List.mem_reverse.mp hmem)) hreverse
  exact ⟨List.reverse_injective hxy, List.reverse_injective hab⟩

/-! ### Terminated lines -/

/-- Lines, each followed by a newline. -/
def terminated (lines : List Text) : Text := lines.flatMap fun line ↦ line ++ ['\n']

@[simp] theorem terminated_nil : terminated [] = [] := rfl

@[simp] theorem terminated_cons (line : Text) (lines : List Text) :
    terminated (line :: lines) = line ++ '\n' :: terminated lines := by
  simp [terminated]

@[simp] theorem terminated_append (first second : List Text) :
    terminated (first ++ second) = terminated first ++ terminated second :=
  List.flatMap_append

/-- Lines with newlines between them and one at the end are terminated lines. -/
theorem concatWith_newline {lines : List Text} (hlines : lines ≠ []) :
    concatWith ['\n'] lines ++ ['\n'] = terminated lines := by
  obtain ⟨line, lines, rfl⟩ := List.exists_cons_of_ne_nil hlines
  clear hlines
  induction lines generalizing line with
  | nil => simp [concatWith]
  | cons next rest ih =>
    have hsplit : concatWith ['\n'] (line :: next :: rest) =
        line ++ '\n' :: concatWith ['\n'] (next :: rest) := by
      simp [concatWith]
    rw [hsplit, List.append_assoc, List.cons_append, ih, ← terminated_cons]

/-- Lines without newlines can be read back from their text. -/
theorem terminated_injective {lines lines' : List Text} (hlines : ∀ line ∈ lines, '\n' ∉ line)
    (hlines' : ∀ line ∈ lines', '\n' ∉ line) (h : terminated lines = terminated lines') :
    lines = lines' := by
  induction lines generalizing lines' with
  | nil =>
    cases lines' with
    | nil => rfl
    | cons line' rest' => simp at h
  | cons line rest ih =>
    cases lines' with
    | nil => simp at h
    | cons line' rest' =>
      rw [terminated_cons, terminated_cons] at h
      obtain ⟨rfl, hrest⟩ := append_sep_inj (hlines _ List.mem_cons_self)
        (hlines' _ List.mem_cons_self) h
      rw [ih (fun l hl ↦ hlines l (List.mem_cons_of_mem _ hl))
        (fun l hl ↦ hlines' l (List.mem_cons_of_mem _ hl)) hrest]

/-- What precedes lines that end in values without the separator, and the values, can be read back. -/
theorem terminated_values_inj {β : Type*} {front : β → Text} {sep : Char}
    (entries : List (β × Text × Text)) : ∀ {x y : Text},
    (∀ entry ∈ entries, sep ∉ entry.2.1 ∧ sep ∉ entry.2.2) →
    x ++ terminated (entries.map fun entry ↦ front entry.1 ++ sep :: entry.2.1) =
      y ++ terminated (entries.map fun entry ↦ front entry.1 ++ sep :: entry.2.2) →
    x = y ∧ ∀ entry ∈ entries, entry.2.1 = entry.2.2 := by
  induction entries using List.reverseRecOn with
  | nil =>
    intro x y _ h
    exact ⟨by simpa using h, fun entry hentry ↦ absurd hentry List.not_mem_nil⟩
  | append_singleton entries entry ih =>
    intro x y hsep h
    have hlast := hsep entry (List.mem_append_right _ List.mem_cons_self)
    have hline : ∀ (z : Text) (value : Text × Text → Text),
        z ++ terminated ((entries ++ [entry]).map fun entry ↦ front entry.1 ++ sep :: value entry.2) =
          (z ++ terminated (entries.map fun entry ↦ front entry.1 ++ sep :: value entry.2) ++
            front entry.1) ++ sep :: value entry.2 ++ ['\n'] := by
      intro z value
      simp
    rw [hline x Prod.fst, hline y Prod.snd, List.append_left_inj] at h
    obtain ⟨hbefore, hvalue⟩ := append_sep_inj_right hlast.1 hlast.2 h
    obtain ⟨hxy, hrest⟩ := ih (fun e he ↦ hsep e (List.mem_append_left _ he))
      (List.append_cancel_right hbefore)
    refine ⟨hxy, fun e he ↦ ?_⟩
    rcases List.mem_append.mp he with he | he
    · exact hrest e he
    · rw [List.mem_singleton.mp he]
      exact hvalue

/-! ### Sorted texts -/

/-- Inserts a text before the first one it is less than. -/
def insertString {κ : Type*} [LinearOrder κ] (text : κ) : List κ → List κ
  | [] => [text]
  | first :: rest =>
    if compare text first = .lt then text :: first :: rest else first :: insertString text rest

/-- The texts in order. -/
def sortStrings {κ : Type*} [LinearOrder κ] (texts : List κ) : List κ :=
  texts.foldl (fun sorted text ↦ insertString text sorted) []

section Sorted

variable {κ : Type*} [LinearOrder κ]

theorem insertString_perm (text : κ) (texts : List κ) :
    (insertString text texts).Perm (text :: texts) := by
  induction texts with
  | nil => exact .refl _
  | cons first rest ih =>
    rw [insertString]
    split_ifs
    · exact .refl _
    · exact (ih.cons first).trans (List.Perm.swap text first rest)

theorem pairwise_insertString {text : κ} {texts : List κ} (h : texts.Pairwise (· ≤ ·)) :
    (insertString text texts).Pairwise (· ≤ ·) := by
  induction texts with
  | nil => exact List.pairwise_singleton _ _
  | cons first rest ih =>
    obtain ⟨hfirst, hrest⟩ := List.pairwise_cons.mp h
    rw [insertString]
    split_ifs with hlt
    · rw [compare_lt_iff_lt] at hlt
      refine List.pairwise_cons.mpr ⟨fun other hother ↦ ?_, h⟩
      rcases List.mem_cons.mp hother with rfl | hother
      · exact hlt.le
      · exact hlt.le.trans (hfirst other hother)
    · rw [compare_lt_iff_lt, not_lt] at hlt
      refine List.pairwise_cons.mpr ⟨fun other hother ↦ ?_, ih hrest⟩
      rcases List.mem_cons.mp ((insertString_perm text rest).mem_iff.mp hother) with rfl | hother
      · exact hlt
      · exact hfirst other hother

theorem sortStrings_spec (texts : List κ) :
    (sortStrings texts).Perm texts ∧ (sortStrings texts).Pairwise (· ≤ ·) := by
  have hfold : ∀ (texts sorted : List κ), sorted.Pairwise (· ≤ ·) →
      (texts.foldl (fun sorted text ↦ insertString text sorted) sorted).Perm (sorted ++ texts) ∧
        (texts.foldl (fun sorted text ↦ insertString text sorted) sorted).Pairwise (· ≤ ·) := by
    intro texts
    induction texts with
    | nil => exact fun sorted h ↦ ⟨by simp, h⟩
    | cons text rest ih =>
      intro sorted h
      obtain ⟨hperm, hpairwise⟩ := ih (insertString text sorted) (pairwise_insertString h)
      refine ⟨hperm.trans (((insertString_perm text sorted).append_right rest).trans ?_), hpairwise⟩
      exact List.perm_middle.symm
  exact hfold texts [] List.Pairwise.nil

/-- Two lists have the same sorted list exactly when one is an order of the other. -/
theorem sortStrings_eq_iff {texts texts' : List κ} :
    sortStrings texts = sortStrings texts' ↔ texts.Perm texts' := by
  obtain ⟨hperm, hpairwise⟩ := sortStrings_spec texts
  obtain ⟨hperm', hpairwise'⟩ := sortStrings_spec texts'
  constructor
  · intro h
    exact hperm.symm.trans (h ▸ hperm')
  · intro h
    exact List.Perm.eq_of_pairwise (fun a b _ _ hab hba ↦ le_antisymm hab hba) hpairwise hpairwise'
      (hperm.trans (h.trans hperm'.symm))

end Sorted

end Holbuild.Library
