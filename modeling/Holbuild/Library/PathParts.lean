import Holbuild.Library.Places
import Mathlib.Data.List.TakeWhile

/-!
# Directories, files and extensions

`splitDirFile` takes a path apart at its last arc, and `splitBaseExt` at the last dot of that arc, unless the
dot starts or ends it. A relative path is what leads to its last arc, with the slash, and the arc
(`exists_front`); `dir_front`, `file_front` and `splitBaseExt_front` say what its parts are.
-/

set_option autoImplicit false
set_option relaxedAutoImplicit false

namespace Holbuild.Library.Path

/-- A path's directory and its last arc. -/
def splitDirFile (path : Text) : Text × Text := (dir path, file path)

/-- A path without its extension, and the extension. -/
def splitBaseExt (path : Text) : Text × Option Text :=
  let ext := ((file path).reverse.takeWhile (· ≠ '.')).reverse
  let stem := ((file path).reverse.dropWhile (· ≠ '.')).reverse
  if ext = [] ∨ stem.length ≤ 1 then (path, none) else (path.take (path.length - (ext.length + 1)), some ext)

example : splitBaseExt "a/.news".toList = ("a/.news".toList, none) := by decide

example : splitBaseExt "a.b/c.d.e".toList = ("a.b/c.d".toList, some "e".toList) := by decide

/-- What leads to the last arc: nothing, or a path and a slash. -/
def Front (front : Text) : Prop := front = [] ∨ ∃ path, front = path ++ ['/']

variable {path front arc stem ext rest : Text}

theorem exists_front (path : Text) : ∃ front arc, path = front ++ arc ∧ Front front ∧ '/' ∉ arc := by
  induction path using List.reverseRecOn with
  | nil => exact ⟨[], [], rfl, .inl rfl, List.not_mem_nil⟩
  | append_singleton path c ih =>
    by_cases hc : c = '/'
    · subst hc
      exact ⟨path ++ ['/'], [], (List.append_nil _).symm, .inr ⟨path, rfl⟩, List.not_mem_nil⟩
    · obtain ⟨front, arc, rfl, hfront, harc⟩ := ih
      refine ⟨front, arc ++ [c], List.append_assoc .., hfront, ?_⟩
      rw [List.mem_append, List.mem_singleton, not_or]
      exact ⟨harc, Ne.symm hc⟩

/-- The last arc is what follows the last slash. -/
theorem front_inj {front' arc' : Text} (hfront : Front front) (hfront' : Front front') (harc : '/' ∉ arc)
    (harc' : '/' ∉ arc') (h : front ++ arc = front' ++ arc') : front = front' ∧ arc = arc' := by
  rcases hfront with rfl | ⟨path, rfl⟩
  · rcases hfront' with rfl | ⟨path', rfl⟩
    · exact ⟨rfl, h⟩
    · exact absurd (h ▸ by simp : '/' ∈ [] ++ arc) harc
  · rcases hfront' with rfl | ⟨path', rfl⟩
    · exact absurd (h.symm ▸ by simp : '/' ∈ [] ++ arc') harc'
    · rw [List.append_assoc, List.append_assoc] at h
      obtain ⟨rfl, rfl⟩ := append_sep_inj_right harc harc' h
      exact ⟨rfl, rfl⟩

/-- A relative path's arcs are those that lead to its last one, and this one. -/
theorem fromString_front (hfront : Front front) (harc : '/' ∉ arc) (hrelative : (front ++ arc).head? ≠ some '/')
    (hne : front ++ arc ≠ []) : fromString (front ++ arc) =
      ⟨false, (if front = [] then [] else front.dropLast.splitOn '/') ++ [arc]⟩ := by
  have hrel : fromString (front ++ arc) = ⟨false, (front ++ arc).splitOn '/'⟩ := by
    obtain ⟨c, rest, hcons⟩ := List.exists_cons_of_ne_nil hne
    rw [hcons] at hrelative ⊢
    exact fromString_relative (fun hc ↦ hrelative (by rw [hc]; rfl)) rest
  rw [hrel]
  rcases hfront with rfl | ⟨path, rfl⟩
  · rw [List.nil_append, List.splitOn_eq_singleton harc, if_pos rfl, List.nil_append]
  · rw [if_neg (List.append_ne_nil_of_right_ne_nil _ (List.cons_ne_nil _ _)), List.dropLast_concat,
      List.append_assoc, List.singleton_append, List.splitOn_append_cons_self, List.splitOn_eq_singleton harc]

theorem file_front (hfront : Front front) (harc : '/' ∉ arc) (hrelative : (front ++ arc).head? ≠ some '/') :
    file (front ++ arc) = arc := by
  by_cases hne : front ++ arc = []
  · obtain ⟨rfl, rfl⟩ := List.append_eq_nil_iff.mp hne
    rfl
  · rw [file, fromString_front hfront harc hrelative hne]
    simp

theorem dir_front (hfront : Front front) (harc : '/' ∉ arc) (hrelative : (front ++ arc).head? ≠ some '/') :
    dir (front ++ arc) = front.dropLast := by
  by_cases hne : front ++ arc = []
  · obtain ⟨rfl, rfl⟩ := List.append_eq_nil_iff.mp hne
    rfl
  · rw [dir, fromString_front hfront harc hrelative hne]
    rcases hfront with rfl | ⟨path, rfl⟩
    · simp [toString, concatWith]
    · have hpath : path ++ ['/'] ≠ [] := List.append_ne_nil_of_right_ne_nil _ (List.cons_ne_nil _ _)
      rw [if_neg hpath, List.dropLast_concat, List.dropLast_concat]
      exact concatWith_splitOn

/-- The extension follows the last dot of the last arc. -/
theorem splitBaseExt_dot (hfile : file path = stem ++ '.' :: ext) (hext : '.' ∉ ext) : splitBaseExt path =
    if ext = [] ∨ stem = [] then (path, none) else (path.take (path.length - (ext.length + 1)), some ext) := by
  have hreverse : (file path).reverse = ext.reverse ++ '.' :: stem.reverse := by rw [hfile]; simp
  have hall : ∀ c ∈ ext.reverse, decide (c ≠ '.') = true := fun c hc ↦
    decide_eq_true fun heq ↦ hext (heq ▸ List.mem_reverse.mp hc)
  have htake : (file path).reverse.takeWhile (· ≠ '.') = ext.reverse := by
    rw [hreverse, List.takeWhile_append_of_pos hall]
    simp
  have hdrop : (file path).reverse.dropWhile (· ≠ '.') = '.' :: stem.reverse := by
    rw [hreverse, List.dropWhile_append_of_pos hall]
    simp
  rw [splitBaseExt, htake, hdrop]
  simp

/-- An arc without a dot has no extension. -/
theorem splitBaseExt_noDot (hfile : '.' ∉ file path) : splitBaseExt path = (path, none) := by
  have hdrop : (file path).reverse.dropWhile (· ≠ '.') = [] := by
    rw [List.dropWhile_eq_nil_iff]
    exact fun c hc ↦ decide_eq_true fun heq ↦ hfile (heq ▸ List.mem_reverse.mp hc)
  rw [splitBaseExt, hdrop]
  simp

/-! ### Appending an arc -/

variable {root : Text}

theorem toString_fromString (path : Text) : toString (fromString path) = path := by
  cases path with
  | nil => rfl
  | cons c rest =>
    by_cases hc : c = '/'
    · subst hc
      rw [fromString_slash]
      exact congrArg ('/' :: ·) concatWith_splitOn
    · rw [fromString_relative hc]
      exact concatWith_splitOn

theorem fromString_arc (harc : '/' ∉ arc) (hne : arc ≠ []) : fromString arc = ⟨false, [arc]⟩ := by
  obtain ⟨c, rest, rfl⟩ := List.exists_cons_of_ne_nil hne
  rw [fromString_relative fun hc ↦ harc (hc ▸ List.mem_cons_self), List.splitOn_eq_singleton harc]

theorem concat_arc (harc : '/' ∉ arc) (hne : arc ≠ []) : concat root arc = some (append root arc) := by
  rw [concat, isAbsolute, fromString_arc harc hne]
  rfl

/-- An arc is appended after a slash to a path that does not end with one. -/
theorem append_arc (hroot : file root ≠ []) (harc : '/' ∉ arc) (hne : arc ≠ []) :
    append root arc = root ++ '/' :: arc := by
  rcases List.eq_nil_or_concat (fromString root).arcs with hnil | ⟨init, last, harcs⟩
  · exact absurd (by rw [file, hnil]; rfl) hroot
  · rw [List.concat_eq_append] at harcs
    have hlast : last ≠ [] := by simpa [file, harcs] using hroot
    have hroot' : toString (fromString root) = root := toString_fromString root
    rw [append, fromString_arc harc hne, concatArcs_eq_append, harcs, concatArcs_append_nil hlast]
    rw [toString, harcs] at hroot'
    rw [toString, concatWith_append (List.append_ne_nil_of_right_ne_nil _ (List.cons_ne_nil _ _))
      (List.cons_ne_nil _ _), ← List.append_assoc, hroot']
    simp [concatWith]

/-- A path ends with the arc that is appended to it. -/
theorem suffix_append_arc (harc : '/' ∉ arc) (hne : arc ≠ []) : arc <:+ append root arc := by
  rw [append, fromString_arc harc hne, concatArcs_eq_append, toString]
  have hlast := @concatWith_append_last arc (concatArcs (fromString root).arcs []) []
  rw [List.nil_append] at hlast
  rw [hlast, ← List.append_assoc]
  exact List.suffix_append _ _

theorem file_append_arc (harc : '/' ∉ arc) (hne : arc ≠ []) : file (append root arc) = arc := by
  have hrelative : isAbsolute arc = false := by rw [isAbsolute, fromString_arc harc hne]
  rw [file_append hrelative hne, file, fromString_arc harc hne]
  rfl

end Holbuild.Library.Path
