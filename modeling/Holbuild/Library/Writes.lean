import Mathlib.Data.List.Basic
import Mathlib.Logic.Function.Basic

/-!
# Sequences of writes

Files are written one after another; `overwrite` is what the files then hold. A file holds what was last
written to it, whatever it held before (`overwrite_of_written`), and a file that is not written keeps what
it held (`overwrite_of_not_written`).
-/

set_option autoImplicit false
set_option relaxedAutoImplicit false

namespace Holbuild.Library

variable {File Content : Type*} [DecidableEq File] {writes more : List (File × Content)}
  {files files' : File → Option Content} {file : File}

/-- What the files hold after writes. -/
def overwrite (files : File → Option Content) (writes : List (File × Content)) :
    File → Option Content :=
  writes.foldl (fun files write ↦ Function.update files write.1 (some write.2)) files

/-- What writes leave where no file was. -/
def written (writes : List (File × Content)) : File → Option Content := overwrite (fun _ ↦ none) writes

theorem overwrite_cons (write : File × Content) : overwrite files (write :: writes) =
    overwrite (Function.update files write.1 (some write.2)) writes := rfl

theorem overwrite_append : overwrite files (writes ++ more) = overwrite (overwrite files writes) more :=
  List.foldl_append

/-- Files that agree, but where something is written, agree afterwards. -/
theorem overwrite_congr (h : files file = files' file ∨ file ∈ writes.map Prod.fst) :
    overwrite files writes file = overwrite files' writes file := by
  induction writes generalizing files files' with
  | nil =>
    rcases h with h | h
    · exact h
    · exact absurd h List.not_mem_nil
  | cons write rest ih =>
    rw [overwrite_cons, overwrite_cons]
    by_cases hfile : file = write.1
    · exact ih (.inl (by rw [hfile, Function.update_self, Function.update_self]))
    · refine ih ?_
      rw [Function.update_of_ne hfile, Function.update_of_ne hfile]
      rcases h with h | h
      · exact .inl h
      · exact .inr ((List.mem_cons.mp h).resolve_left hfile)

theorem overwrite_of_not_written (h : file ∉ writes.map Prod.fst) :
    overwrite files writes file = files file := by
  induction writes generalizing files with
  | nil => rfl
  | cons write rest ih =>
    rw [List.map_cons, List.mem_cons, not_or] at h
    rw [overwrite_cons, ih h.2, Function.update_of_ne h.1]

/-- A written file holds what was last written to it. -/
theorem overwrite_of_written (h : file ∈ writes.map Prod.fst) :
    overwrite files writes file = written writes file := overwrite_congr (.inr h)

theorem written_isSome (h : file ∈ writes.map Prod.fst) : (written writes file).isSome = true := by
  have hsome : ∀ files : File → Option Content,
      (files file).isSome = true ∨ file ∈ writes.map Prod.fst →
        (overwrite files writes file).isSome = true := by
    induction writes with
    | nil =>
      intro files h
      exact h.resolve_right List.not_mem_nil
    | cons write rest ih =>
      intro files h
      rw [overwrite_cons]
      by_cases hrest : file ∈ rest.map Prod.fst
      · exact ih hrest _ (.inr hrest)
      rw [overwrite_of_not_written hrest]
      by_cases hfile : file = write.1
      · rw [hfile, Function.update_self, Option.isSome_some]
      · rw [Function.update_of_ne hfile]
        rcases h with h | h
        · exact h
        · exact absurd ((List.mem_cons.mp h).resolve_left hfile) hrest
  exact hsome _ (.inr h)

/-- What writes leave in a file is one of the contents written to it. -/
theorem mem_of_overwrite {content : Content} (h : overwrite files writes file = some content) :
    files file = some content ∨ (file, content) ∈ writes := by
  induction writes generalizing files with
  | nil => exact .inl h
  | cons write rest ih =>
    rw [overwrite_cons] at h
    rcases ih h with h | h
    · by_cases hfile : file = write.1
      · rw [hfile, Function.update_self, Option.some.injEq] at h
        rw [hfile, ← h]
        exact .inr List.mem_cons_self
      · rw [Function.update_of_ne hfile] at h
        exact .inl h
    · exact .inr (List.mem_cons_of_mem _ h)

end Holbuild.Library
