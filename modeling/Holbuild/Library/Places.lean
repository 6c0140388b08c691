import Holbuild.Library.Paths
import Holbuild.Library.Fields
import Mathlib.Data.List.Infix

/-!
# Where paths lead

A place is a directory, given by the names that lead to it from the root, the last first. Following
arcs from a place skips the empty and the current ones and goes up at a parent arc (`follow`); a path
leads where its arcs lead from the root or, when it is relative, from the working directory
(`resolve`). Appending a relative path follows its arcs (`resolve_append`), and a path's canonical form
leads to the same place (`resolve_mkCanonical`).
-/

set_option autoImplicit false
set_option relaxedAutoImplicit false

namespace Holbuild.Library.Path

/-- The names that lead to a directory from the root, the last first. -/
abbrev Place := List Text

/-- The arc of the current directory. -/
def currentArc : Text := ['.']

/-- The arc of the parent directory. -/
def parentArc : Text := ['.', '.']

/-- An arc that stays where it is. -/
def Idle (arc : Text) : Prop := arc = [] ∨ arc = currentArc

instance (arc : Text) : Decidable (Idle arc) := inferInstanceAs (Decidable (_ ∨ _))

/-- Where an arc leads. -/
def followArc (place : Place) (arc : Text) : Place :=
  if Idle arc then place else if arc = parentArc then place.tail else arc :: place

/-- Where arcs lead. -/
def follow (place : Place) (arcs : List Text) : Place := arcs.foldl followArc place

/-- Where a path leads from a working directory. -/
def follows (cwd : Place) (path : Path) : Place := follow (if path.isAbs then [] else cwd) path.arcs

def resolve (cwd : Place) (path : Text) : Place := follows cwd (fromString path)

/-- The last arc of a path. -/
def file (path : Text) : Text := (fromString path).arcs.getLastD []

variable {cwd place base : Place} {arc path root relative ext : Text} {arcs : List Text}

/-! ### Following arcs -/

theorem followArc_idle (h : Idle arc) : followArc place arc = place := if_pos h

theorem not_idle_parentArc : ¬Idle parentArc := by decide

theorem followArc_parentArc : followArc place parentArc = place.tail := by
  rw [followArc, if_neg not_idle_parentArc, if_pos rfl]

theorem followArc_name (hidle : ¬Idle arc) (hparent : arc ≠ parentArc) :
    followArc place arc = arc :: place := by
  rw [followArc, if_neg hidle, if_neg hparent]

@[simp] theorem follow_nil : follow place [] = place := rfl

@[simp] theorem follow_cons : follow place (arc :: arcs) = follow (followArc place arc) arcs := rfl

@[simp] theorem follow_append {more : List Text} :
    follow place (arcs ++ more) = follow (follow place arcs) more :=
  List.foldl_append

/-- Arcs with no more parent arcs than names below a place stay below the place; each parent arc takes
at most one name away. -/
theorem exists_follow (above : Place) (h : arcs.count parentArc ≤ above.length) :
    ∃ above' : Place, follow (above ++ base) arcs = above' ++ base ∧
      above.length ≤ above'.length + arcs.count parentArc := by
  induction arcs generalizing above with
  | nil => exact ⟨above, rfl, Nat.le_add_right _ _⟩
  | cons arc arcs ih =>
    rw [follow_cons]
    by_cases hidle : Idle arc
    · have hne : arc ≠ parentArc := fun heq ↦ not_idle_parentArc (heq ▸ hidle)
      rw [followArc_idle hidle, List.count_cons_of_ne hne]
      rw [List.count_cons_of_ne hne] at h
      exact ih above h
    · by_cases hparent : arc = parentArc
      · subst hparent
        rw [List.count_cons_self] at h ⊢
        obtain ⟨name, above, rfl⟩ := List.exists_cons_of_ne_nil
          (List.ne_nil_of_length_pos (Nat.lt_of_lt_of_le (Nat.succ_pos _) h))
        rw [followArc_parentArc, List.cons_append, List.tail_cons]
        obtain ⟨above', hfollow, hlength⟩ := ih above (Nat.le_of_succ_le_succ h)
        exact ⟨above', hfollow, Nat.succ_le_succ hlength⟩
      · rw [followArc_name hidle hparent, ← List.cons_append, List.count_cons_of_ne hparent]
        rw [List.count_cons_of_ne hparent] at h
        obtain ⟨above', hfollow, hlength⟩ := ih (arc :: above) (le_trans h (Nat.le_succ _))
        exact ⟨above', hfollow, (Nat.le_succ _).trans hlength⟩

/-- Arcs without parent arcs stay below the place they start from. -/
theorem suffix_follow_of_notMem (h : parentArc ∉ arcs) : base <:+ follow base arcs := by
  obtain ⟨above, hfollow, -⟩ := @exists_follow base arcs [] (List.count_eq_zero_of_not_mem h).le
  exact ⟨above, hfollow.symm⟩

/-- A name among arcs without parent arcs leads to a place strictly below. -/
theorem suffix_tail_follow (h : parentArc ∉ arcs) (hname : ∃ arc ∈ arcs, ¬Idle arc) :
    base <:+ (follow base arcs).tail := by
  induction arcs generalizing base with
  | nil =>
    obtain ⟨arc, harc, -⟩ := hname
    exact absurd harc List.not_mem_nil
  | cons first arcs ih =>
    rw [List.mem_cons, not_or] at h
    rw [follow_cons]
    by_cases hidle : Idle first
    · rw [followArc_idle hidle]
      obtain ⟨arc, harc, hnot⟩ := hname
      rcases List.mem_cons.mp harc with rfl | harc
      · exact absurd hidle hnot
      · exact ih h.2 ⟨arc, harc, hnot⟩
    · rw [followArc_name hidle (Ne.symm h.1)]
      obtain ⟨above, habove⟩ := @suffix_follow_of_notMem (first :: base) arcs h.2
      rw [← habove]
      cases above with
      | nil => exact List.suffix_refl base
      | cons name above =>
        exact (List.suffix_cons first base).trans (List.suffix_append above _)

theorem follow_of_idle (h : ∀ arc ∈ arcs, Idle arc) : follow place arcs = place := by
  induction arcs with
  | nil => rfl
  | cons arc arcs ih =>
    rw [follow_cons, followArc_idle (h arc List.mem_cons_self)]
    exact ih fun other hother ↦ h other (List.mem_cons_of_mem _ hother)

theorem follow_concatArcs {first : List Text} :
    follow place (concatArcs first arcs) = follow (follow place first) arcs := by
  induction first generalizing place with
  | nil => rfl
  | cons arc first ih =>
    by_cases hlast : arc = [] ∧ first = []
    · obtain ⟨rfl, rfl⟩ := hlast
      rfl
    · have hcons : concatArcs (arc :: first) arcs = arc :: concatArcs first arcs := by
        rw [concatArcs]
        exact fun harc hfirst ↦ hlast ⟨harc, hfirst⟩
      rw [hcons, follow_cons, follow_cons, ih]

/-! ### Paths and their texts -/

/-- A path that its text gives back: no slash inside an arc, and no empty first arc of a relative
path. -/
structure Regular (path : Path) : Prop where
  slash : ∀ arc ∈ path.arcs, '/' ∉ arc
  head : path.isAbs = false → path.arcs.head? ≠ some []

theorem fromString_nil : fromString [] = ⟨false, []⟩ := rfl

theorem fromString_slash (path : Text) :
    fromString ('/' :: path) = ⟨true, path.splitOn '/'⟩ := by
  obtain ⟨arc, arcs, hsplit⟩ := List.exists_cons_of_ne_nil (List.splitOn_ne_nil '/' path)
  rw [fromString, List.splitOn_cons_eq_if_modifyHead, if_pos (by rfl), hsplit]

theorem fromString_relative {c : Char} (hc : c ≠ '/') (path : Text) :
    fromString (c :: path) = ⟨false, (c :: path).splitOn '/'⟩ := by
  obtain ⟨arc, arcs, hsplit⟩ := List.exists_cons_of_ne_nil (List.splitOn_ne_nil '/' path)
  rw [fromString, List.splitOn_cons_eq_if_modifyHead, if_neg (by simpa using hc), hsplit,
    List.modifyHead_cons]

/-- A relative path that is not empty has the arcs its text is cut into. -/
theorem fromString_of_relative (h : isAbsolute path = false) (hne : path ≠ []) :
    fromString path = ⟨false, path.splitOn '/'⟩ := by
  obtain ⟨c, rest, rfl⟩ := List.exists_cons_of_ne_nil hne
  by_cases hc : c = '/'
  · subst hc
    rw [isAbsolute, fromString_slash] at h
    exact absurd h (by simp)
  · exact fromString_relative hc rest

theorem arcs_ne_nil (hne : path ≠ []) : (fromString path).arcs ≠ [] := by
  obtain ⟨c, rest, rfl⟩ := List.exists_cons_of_ne_nil hne
  by_cases hc : c = '/'
  · subst hc
    rw [fromString_slash]
    exact List.splitOn_ne_nil _ _
  · rw [fromString_relative hc]
    exact List.splitOn_ne_nil _ _

theorem regular_fromString (path : Text) : Regular (fromString path) := by
  cases path with
  | nil => exact ⟨fun _ h ↦ absurd h List.not_mem_nil, fun _ ↦ by rw [fromString_nil]; simp⟩
  | cons c rest =>
    by_cases hc : c = '/'
    · subst hc
      rw [fromString_slash]
      exact ⟨fun _ ↦ sep_notMem_of_mem_splitOn, fun h ↦ absurd h (by simp)⟩
    · rw [fromString_relative hc]
      refine ⟨fun _ ↦ sep_notMem_of_mem_splitOn, fun _ ↦ ?_⟩
      rw [List.splitOn_cons_eq_if_modifyHead, if_neg (by simpa using hc)]
      obtain ⟨arc, arcs, hsplit⟩ := List.exists_cons_of_ne_nil (List.splitOn_ne_nil '/' rest)
      rw [hsplit]
      simp

/-- A regular path with arcs is read back from its text. -/
theorem fromString_toString {path : Path} (h : Regular path) (hne : path.arcs ≠ []) :
    fromString (toString path) = path := by
  obtain ⟨isAbs, arcs⟩ := path
  have hsplit : (concatWith ['/'] arcs).splitOn '/' = arcs := splitOn_concatWith h.slash hne
  cases isAbs with
  | true =>
    show fromString ('/' :: concatWith ['/'] arcs) = _
    rw [fromString_slash, hsplit]
  | false =>
    show fromString (concatWith ['/'] arcs) = _
    rw [fromString, hsplit]
    obtain ⟨arc, arcs, rfl⟩ := List.exists_cons_of_ne_nil hne
    have harc : arc ≠ [] := fun harc ↦ h.head rfl (by simp [harc])
    split
    · next heq => exact absurd (List.cons.inj heq).1 harc
    · next heq => exact absurd (List.cons.inj heq).1 harc
    · rfl

/-- The text of a regular path leads where the path does. -/
theorem resolve_toString {path : Path} (h : Regular path) :
    resolve cwd (toString path) = follows cwd path := by
  by_cases hne : path.arcs = []
  · obtain ⟨isAbs, arcs⟩ := path
    obtain rfl : arcs = [] := hne
    cases isAbs <;> rfl
  · rw [resolve, fromString_toString h hne]

theorem Regular.dropLast {path : Path} (h : Regular path) :
    Regular { path with arcs := path.arcs.dropLast } := by
  constructor
  · exact fun arc harc ↦ h.slash arc (List.mem_of_mem_dropLast harc)
  · intro hrel hhead
    refine h.head hrel ?_
    rw [← hhead]
    rcases harcs : path.arcs with _ | ⟨first, _ | ⟨second, rest⟩⟩
    · rw [harcs] at hhead
      exact absurd hhead (by simp)
    · rw [harcs] at hhead
      exact absurd hhead (by simp)
    · rfl

theorem concatArcs_eq_append {first : List Text} :
    concatArcs first arcs = concatArcs first [] ++ arcs := by
  induction first with
  | nil => rfl
  | cons arc first ih =>
    by_cases hlast : arc = [] ∧ first = []
    · obtain ⟨rfl, rfl⟩ := hlast
      rfl
    · have hnot : arc = [] → first = [] → False := fun harc hfirst ↦ hlast ⟨harc, hfirst⟩
      rw [concatArcs, concatArcs, ih]
      · rfl
      · exact hnot
      · exact hnot

theorem concatArcs_append_nil {init : List Text} {last : Text} (hlast : last ≠ []) :
    concatArcs (init ++ [last]) [] = init ++ [last] := by
  induction init with
  | nil =>
    rw [List.nil_append, concatArcs]
    · rfl
    · exact fun hnil _ ↦ hlast hnil
  | cons first init ih =>
    rw [List.cons_append, concatArcs, ih]
    exact fun _ hnil ↦ List.append_ne_nil_of_right_ne_nil _ (List.cons_ne_nil _ _) hnil

theorem mem_of_mem_concatArcs_nil {first : List Text} (h : arc ∈ concatArcs first []) :
    arc ∈ first := by
  induction first with
  | nil => exact h
  | cons other first ih =>
    by_cases hlast : other = [] ∧ first = []
    · obtain ⟨rfl, rfl⟩ := hlast
      exact absurd h List.not_mem_nil
    · rw [concatArcs] at h
      · exact (List.mem_cons.mp h).elim (fun heq ↦ heq ▸ List.mem_cons_self)
          fun hmem ↦ List.mem_cons_of_mem _ (ih hmem)
      · exact fun harc hfirst ↦ hlast ⟨harc, hfirst⟩

/-! ### Appending, taking apart and extending -/

theorem regular_append (hrel : isAbsolute relative = false) :
    Regular ⟨(fromString root).isAbs,
      concatArcs (fromString root).arcs (fromString relative).arcs⟩ := by
  have hroot := regular_fromString root
  have hrelative := regular_fromString relative
  constructor
  · intro arc harc
    rw [concatArcs_eq_append, List.mem_append] at harc
    rcases harc with harc | harc
    · exact hroot.slash arc (mem_of_mem_concatArcs_nil harc)
    · exact hrelative.slash arc harc
  · intro habs hhead
    rcases harcs : (fromString root).arcs with _ | ⟨first, rest⟩
    · rw [harcs] at hhead
      exact hrelative.head hrel hhead
    · have hfirst : first ≠ [] := fun hfirst ↦ hroot.head habs (by rw [harcs, hfirst]; rfl)
      rw [harcs, concatArcs] at hhead
      · exact hfirst (Option.some.inj hhead)
      · exact fun hnil _ ↦ hfirst hnil

/-- What a relative path, appended to a root, is taken apart into. -/
theorem fromString_append (hrel : isAbsolute relative = false) (hne : relative ≠ []) :
    fromString (append root relative) =
      ⟨(fromString root).isAbs, concatArcs (fromString root).arcs (fromString relative).arcs⟩ := by
  refine fromString_toString (regular_append hrel) ?_
  rw [concatArcs_eq_append]
  exact List.append_ne_nil_of_right_ne_nil _ (arcs_ne_nil hne)

/-- An appended relative path is followed from the root. -/
theorem resolve_append (hrel : isAbsolute relative = false) :
    resolve cwd (append root relative) = follow (resolve cwd root) (fromString relative).arcs :=
  (resolve_toString (regular_append hrel)).trans follow_concatArcs

theorem resolve_dir : resolve cwd (dir path) =
    follow (if (fromString path).isAbs then [] else cwd) (fromString path).arcs.dropLast :=
  resolve_toString (regular_fromString path).dropLast

/-- A path leads where its last arc leads from its directory. -/
theorem resolve_eq_followArc : resolve cwd path = followArc (resolve cwd (dir path)) (file path) := by
  rw [resolve_dir, file, resolve, follows]
  rcases List.eq_nil_or_concat (fromString path).arcs with harcs | ⟨init, last, harcs⟩
  · rw [harcs]
    rfl
  · rw [harcs]
    simp

/-- The directory of an appended relative path is followed from the root. -/
theorem resolve_dir_append (hrel : isAbsolute relative = false) (hne : relative ≠ []) :
    resolve cwd (dir (append root relative)) =
      follow (resolve cwd root) (fromString relative).arcs.dropLast := by
  rw [resolve_dir, fromString_append hrel hne, concatArcs_eq_append,
    List.dropLast_append_of_ne_nil (arcs_ne_nil hne), follow_append, follow_concatArcs, follow_nil]
  rfl

theorem file_append (hrel : isAbsolute relative = false) (hne : relative ≠ []) :
    file (append root relative) = file relative := by
  rw [file, file, fromString_append hrel hne, concatArcs_eq_append]
  obtain ⟨init, last, harcs⟩ := (List.eq_nil_or_concat _).resolve_left (arcs_ne_nil hne)
  rw [harcs]
  simp

theorem concatWith_append_last {init : List Text} {last : Text} :
    concatWith ['/'] (init ++ [last ++ ext]) = concatWith ['/'] (init ++ [last]) ++ ext := by
  induction init with
  | nil => simp [concatWith]
  | cons first init ih =>
    cases init with
    | nil =>
      show concatWith ['/'] [first, last ++ ext] = concatWith ['/'] [first, last] ++ ext
      rw [concatWith_cons_cons, concatWith_cons_cons]
      simp [concatWith]
    | cons next init =>
      rw [List.cons_append, List.cons_append, List.cons_append, List.cons_append,
        concatWith_cons_cons, concatWith_cons_cons, ← List.cons_append, ← List.cons_append, ih]
      simp

theorem splitOn_extended (hext : '/' ∉ ext) : (path ++ ext).splitOn '/' =
    (path.splitOn '/').dropLast ++ [(path.splitOn '/').getLastD [] ++ ext] := by
  obtain ⟨init, last, hsplit⟩ := (List.eq_nil_or_concat (path.splitOn '/')).resolve_left
    (List.splitOn_ne_nil _ _)
  rw [List.concat_eq_append] at hsplit
  have hpath : path = concatWith ['/'] (init ++ [last]) := by rw [← hsplit, concatWith_splitOn]
  have hslash : ∀ arc ∈ init ++ [last ++ ext], '/' ∉ arc := by
    intro arc harc
    rcases List.mem_append.mp harc with harc | harc
    · exact sep_notMem_of_mem_splitOn (hsplit ▸ List.mem_append_left _ harc)
    · rw [List.mem_singleton.mp harc, List.mem_append, not_or]
      exact ⟨sep_notMem_of_mem_splitOn (hsplit ▸ List.mem_append_right _ List.mem_cons_self), hext⟩
  rw [hsplit, List.dropLast_concat, hpath, ← concatWith_append_last,
    splitOn_concatWith hslash (List.append_ne_nil_of_right_ne_nil _ (List.cons_ne_nil _ _))]
  simp

/-- A text without slashes at the end of a path extends the path's last arc. -/
theorem fromString_extended (hext : '/' ∉ ext) (hne : ext ≠ []) :
    fromString (path ++ ext) = ⟨(fromString path).isAbs,
      (fromString path).arcs.dropLast ++ [(fromString path).arcs.getLastD [] ++ ext]⟩ := by
  cases path with
  | nil =>
    obtain ⟨c, rest, rfl⟩ := List.exists_cons_of_ne_nil hne
    rw [List.nil_append, fromString_relative fun hc ↦ hext (hc ▸ List.mem_cons_self),
      List.splitOn_eq_singleton hext]
    rfl
  | cons c rest =>
    by_cases hc : c = '/'
    · subst hc
      rw [List.cons_append, fromString_slash, fromString_slash, splitOn_extended hext]
    · rw [List.cons_append, fromString_relative hc, fromString_relative hc, ← List.cons_append,
        splitOn_extended hext]

theorem resolve_dir_extended (hext : '/' ∉ ext) (hne : ext ≠ []) :
    resolve cwd (dir (path ++ ext)) = resolve cwd (dir path) := by
  rw [resolve_dir, resolve_dir, fromString_extended hext hne]
  simp

theorem file_extended (hext : '/' ∉ ext) (hne : ext ≠ []) : file (path ++ ext) = file path ++ ext := by
  rw [file, file, fromString_extended hext hne]
  simp

/-! ### Canonical paths -/

section Canonical

variable {isAbs : Bool} {kept rest : List Text} {first last : Text}

theorem canonicalArcs_nil : canonicalArcs isAbs kept [] = kept.reverse := rfl

theorem canonicalArcs_cons : canonicalArcs isAbs kept (first :: rest) =
    if Idle first then canonicalArcs isAbs kept rest
    else if first = parentArc then
      match kept with
      | [] => canonicalArcs isAbs (if isAbs then [] else [first]) rest
      | last :: before =>
        if last = parentArc then canonicalArcs isAbs (first :: kept) rest
        else canonicalArcs isAbs before rest
    else canonicalArcs isAbs (first :: kept) rest := rfl

theorem canonicalArcs_idle (h : Idle first) :
    canonicalArcs isAbs kept (first :: rest) = canonicalArcs isAbs kept rest := by
  rw [canonicalArcs_cons]
  exact if_pos h

theorem canonicalArcs_name (hidle : ¬Idle first) (hparent : first ≠ parentArc) :
    canonicalArcs isAbs kept (first :: rest) = canonicalArcs isAbs (first :: kept) rest := by
  rw [canonicalArcs_cons]
  exact (if_neg hidle).trans (if_neg hparent)

theorem canonicalArcs_parent_nil : canonicalArcs isAbs [] (parentArc :: rest) =
    canonicalArcs isAbs (if isAbs then [] else [parentArc]) rest := by
  rw [canonicalArcs_cons]
  exact (if_neg not_idle_parentArc).trans (if_pos rfl)

theorem canonicalArcs_parent_cons : canonicalArcs isAbs (last :: kept) (parentArc :: rest) =
    canonicalArcs isAbs (if last = parentArc then parentArc :: last :: kept else kept) rest := by
  rw [canonicalArcs_cons]
  refine ((if_neg not_idle_parentArc).trans (if_pos rfl)).trans ?_
  by_cases hlast : last = parentArc
  · rw [if_pos hlast]
    exact if_pos hlast
  · rw [if_neg hlast]
    exact if_neg hlast

theorem mem_canonicalArcs (hkept : ∀ arc ∈ kept, ¬Idle arc)
    (h : arc ∈ canonicalArcs isAbs kept rest) : ¬Idle arc ∧ (arc ∈ kept ∨ arc ∈ rest) := by
  induction rest generalizing kept with
  | nil =>
    rw [canonicalArcs_nil, List.mem_reverse] at h
    exact ⟨hkept arc h, .inl h⟩
  | cons first rest ih =>
    -- The arcs kept next come from those kept before and the first arc.
    have hnext : ∀ next : List Text, (∀ other ∈ next, other ∈ kept ∨ other = first) →
        (∀ other ∈ next, ¬Idle other) → arc ∈ canonicalArcs isAbs next rest →
          ¬Idle arc ∧ (arc ∈ kept ∨ arc ∈ first :: rest) := by
      intro next hmem hidle harc
      obtain ⟨hnot, harc | harc⟩ := ih hidle harc
      · exact ⟨hnot, (hmem arc harc).imp_right fun heq ↦ List.mem_cons.mpr (.inl heq)⟩
      · exact ⟨hnot, .inr (List.mem_cons_of_mem _ harc)⟩
    by_cases hidle : Idle first
    · rw [canonicalArcs_idle hidle] at h
      exact hnext kept (fun _ ↦ .inl) hkept h
    · have hcons : ∀ other ∈ first :: kept, ¬Idle other := by
        intro other hother
        rcases List.mem_cons.mp hother with rfl | hother
        · exact hidle
        · exact hkept other hother
      have hpush : ∀ other ∈ first :: kept, other ∈ kept ∨ other = first := fun other hother ↦
        (List.mem_cons.mp hother).symm
      by_cases hparent : first = parentArc
      · subst hparent
        cases kept with
        | nil =>
          rw [canonicalArcs_parent_nil] at h
          split at h
          · exact hnext [] (fun _ hother ↦ absurd hother List.not_mem_nil) hkept h
          · exact hnext [parentArc] hpush hcons h
        | cons last kept =>
          rw [canonicalArcs_parent_cons] at h
          split at h
          · exact hnext (parentArc :: last :: kept) hpush hcons h
          · exact hnext kept (fun _ hother ↦ .inl (List.mem_cons_of_mem _ hother))
              (fun other hother ↦ hkept other (List.mem_cons_of_mem _ hother)) h
      · rw [canonicalArcs_name hidle hparent] at h
        exact hnext (first :: kept) hpush hcons h

/-- The canonical arcs lead where the arcs kept and then the others lead. -/
theorem follow_canonicalArcs (hkept : ∀ arc ∈ kept, ¬Idle arc) (hplace : isAbs = true → place = []) :
    follow place (canonicalArcs isAbs kept rest) = follow (follow place kept.reverse) rest := by
  induction rest generalizing kept with
  | nil =>
    rw [canonicalArcs_nil]
    rfl
  | cons first rest ih =>
    rw [follow_cons]
    by_cases hidle : Idle first
    · rw [canonicalArcs_idle hidle, ih hkept, followArc_idle hidle]
    · have hpush : follow place (canonicalArcs isAbs (first :: kept) rest) =
          follow (followArc (follow place kept.reverse) first) rest := by
        rw [ih, List.reverse_cons, follow_append]
        · rfl
        · intro other hother
          rcases List.mem_cons.mp hother with rfl | hother
          · exact hidle
          · exact hkept other hother
      by_cases hparent : first = parentArc
      · subst hparent
        cases kept with
        | nil =>
          rw [canonicalArcs_parent_nil]
          split
          · next habs =>
            rw [ih hkept, hplace habs]
            rfl
          · exact hpush
        | cons last kept =>
          rw [canonicalArcs_parent_cons]
          split
          · exact hpush
          · next hlast =>
            rw [ih fun other hother ↦ hkept other (List.mem_cons_of_mem _ hother), List.reverse_cons,
              follow_append, follow_cons, followArc_name (hkept last List.mem_cons_self) hlast,
              follow_nil, followArc_parentArc, List.tail_cons]
      · rw [canonicalArcs_name hidle hparent]
        exact hpush

end Canonical

theorem regular_canonical (path : Path) (h : Regular path) :
    Regular ⟨path.isAbs, canonicalArcs path.isAbs [] path.arcs⟩ := by
  have hmem : ∀ arc ∈ canonicalArcs path.isAbs [] path.arcs, ¬Idle arc ∧ arc ∈ path.arcs := by
    intro arc harc
    obtain ⟨hidle, hnil | hrest⟩ := mem_canonicalArcs (fun _ h ↦ absurd h List.not_mem_nil) harc
    · exact absurd hnil List.not_mem_nil
    · exact ⟨hidle, hrest⟩
  refine ⟨fun arc harc ↦ h.slash arc (hmem arc harc).2, fun _ hhead ↦ ?_⟩
  exact (hmem [] (List.mem_of_mem_head? hhead)).1 (.inl rfl)

/-- The canonical form of a path leads where the path leads. -/
theorem resolve_mkCanonical : resolve cwd (mkCanonical path) = resolve cwd path := by
  have hregular := regular_canonical _ (regular_fromString path)
  have hfollow : follows cwd ⟨(fromString path).isAbs,
      canonicalArcs (fromString path).isAbs [] (fromString path).arcs⟩ = resolve cwd path := by
    rw [follows, follow_canonicalArcs (fun _ h ↦ absurd h List.not_mem_nil)]
    · rfl
    · exact fun habs ↦ if_pos habs
  rw [← hfollow, ← resolve_toString hregular, mkCanonical]
  split
  · next habs harcs =>
    rw [habs] at harcs ⊢
    rw [harcs]
    rfl
  · rfl

theorem isAbsolute_mkCanonical : isAbsolute (mkCanonical path) = isAbsolute path := by
  have hregular := regular_canonical _ (regular_fromString path)
  rw [mkCanonical]
  split
  · next habs _ =>
    rw [isAbsolute, isAbsolute, habs]
    rfl
  · next hnot =>
    by_cases harcs : canonicalArcs (fromString path).isAbs [] (fromString path).arcs = []
    · have habs : (fromString path).isAbs = true := by
        rw [← Bool.not_eq_false]
        exact fun habs ↦ hnot habs harcs
      rw [harcs, isAbsolute, isAbsolute, habs]
      rfl
    · rw [isAbsolute, fromString_toString hregular harcs]
      rfl

theorem mkCanonical_ne_nil : mkCanonical path ≠ [] := by
  have hregular := regular_canonical _ (regular_fromString path)
  intro hnil
  have hpath := congrArg fromString hnil
  rw [mkCanonical] at hpath
  split at hpath
  · exact absurd (congrArg Path.arcs hpath) (by decide)
  · next hnot =>
    by_cases harcs : canonicalArcs (fromString path).isAbs [] (fromString path).arcs = []
    · have habs : (fromString path).isAbs = true := by
        rw [← Bool.not_eq_false]
        exact fun habs ↦ hnot habs harcs
      rw [harcs, habs] at hpath
      exact absurd (congrArg Path.isAbs hpath) (by decide)
    · rw [fromString_toString hregular harcs] at hpath
      exact harcs (congrArg Path.arcs hpath)

/-- The arcs of a relative path and of its canonical form lead to the same place. -/
theorem follow_arcs_mkCanonical (hrel : isAbsolute path = false) :
    follow place (fromString (mkCanonical path)).arcs = follow place (fromString path).arcs := by
  have hcanonical : isAbsolute (mkCanonical path) = false := isAbsolute_mkCanonical.trans hrel
  have h : follows place _ = follows place _ := @resolve_mkCanonical place path
  rw [follows, follows] at h
  rw [isAbsolute] at hrel hcanonical
  rw [hrel, hcanonical] at h
  exact h

/-! ### Guarded paths -/

/-- A relative path with no parent arc but possibly its last arc. -/
structure Guarded (path : Text) : Prop where
  relative : isAbsolute path = false
  inner : parentArc ∉ (fromString path).arcs.dropLast

/-- A path whose last arc is its parent arc, after arcs that stay where they are. -/
def Climbing (path : Text) : Prop :=
  (∀ arc ∈ (fromString path).arcs.dropLast, Idle arc) ∧ file path = parentArc

instance (path : Text) : Decidable (Climbing path) := inferInstanceAs (Decidable (_ ∧ _))

theorem Guarded.count_le (h : Guarded path) : (fromString path).arcs.count parentArc ≤ 1 := by
  rcases List.eq_nil_or_concat (fromString path).arcs with harcs | ⟨init, last, harcs⟩
  · rw [harcs]
    exact Nat.zero_le 1
  · have hinner := h.inner
    rw [harcs, List.concat_eq_append, List.dropLast_concat] at hinner
    rw [harcs, List.concat_eq_append, List.count_append, List.count_eq_zero_of_not_mem hinner,
      Nat.zero_add]
    exact List.count_le_length

theorem Guarded.extended (h : Guarded path) (hext : '/' ∉ ext) (hne : ext ≠ []) :
    Guarded (path ++ ext) := by
  constructor
  · rw [isAbsolute, fromString_extended hext hne]
    exact h.relative
  · rw [fromString_extended hext hne, List.dropLast_concat]
    exact h.inner

/-- A text without slashes is a single arc. -/
theorem guarded_of_notMem (h : '/' ∉ path) : Guarded path := by
  cases path with
  | nil => exact ⟨rfl, List.not_mem_nil⟩
  | cons c rest =>
    have hc : c ≠ '/' := fun hc ↦ h (hc ▸ List.mem_cons_self)
    refine ⟨?_, ?_⟩
    · rw [isAbsolute, fromString_relative hc]
    · rw [fromString_relative hc, List.splitOn_eq_singleton h]
      exact List.not_mem_nil

theorem guarded_file : Guarded (file path) := by
  refine guarded_of_notMem ?_
  rw [file]
  rcases List.eq_nil_or_concat (fromString path).arcs with harcs | ⟨init, last, harcs⟩
  · rw [harcs]
    exact List.not_mem_nil
  · refine (regular_fromString path).slash _ ?_
    rw [harcs, List.concat_eq_append, List.getLastD_concat]
    exact List.mem_append_right _ List.mem_cons_self

/-- A guarded path leads below where it starts from, unless it climbs. -/
theorem Guarded.suffix_follow (h : Guarded path) (hclimbing : ¬Climbing path) :
    base <:+ follow base (fromString path).arcs := by
  rcases List.eq_nil_or_concat (fromString path).arcs with harcs | ⟨init, last, harcs⟩
  · rw [harcs]
    exact List.suffix_refl base
  · rw [List.concat_eq_append] at harcs
    have hinner := h.inner
    rw [harcs, List.dropLast_concat] at hinner
    rw [harcs, follow_append, follow_cons, follow_nil]
    by_cases hlast : last = parentArc
    · rw [Climbing, file, harcs, List.dropLast_concat] at hclimbing
      push Not at hclimbing
      subst hlast
      rw [followArc_parentArc]
      refine suffix_tail_follow hinner ?_
      by_contra hidle
      push Not at hidle
      exact hclimbing hidle (by simp)
    · have hbelow := @suffix_follow_of_notMem base init hinner
      by_cases hidle : Idle last
      · rwa [followArc_idle hidle]
      · rw [followArc_name hidle hlast]
        exact hbelow.trans (List.suffix_cons _ _)

/-- A climbing path leads one directory up. -/
theorem Climbing.follow_eq (h : Climbing path) : follow place (fromString path).arcs = place.tail := by
  obtain ⟨hidle, hfile⟩ := h
  rw [file] at hfile
  rcases List.eq_nil_or_concat (fromString path).arcs with harcs | ⟨init, last, harcs⟩
  · rw [harcs] at hfile
    exact absurd hfile (by decide)
  · rw [List.concat_eq_append] at harcs
    rw [harcs, List.dropLast_concat] at hidle
    rw [harcs, List.getLastD_concat] at hfile
    rw [harcs, follow_append, follow_of_idle hidle, hfile, follow_cons, follow_nil,
      followArc_parentArc]

/-! ### Places below a base -/

/-- A path that leads to a place with at least `n` names below a base. -/
def Below (cwd base : Place) (n : ℕ) (path : Text) : Prop :=
  ∃ above : Place, n ≤ above.length ∧ resolve cwd path = above ++ base

section Below

variable {n : ℕ}

theorem Below.suffix (h : Below cwd base n path) : base <:+ resolve cwd path := by
  obtain ⟨above, -, hresolve⟩ := h
  exact ⟨above, hresolve.symm⟩

theorem below_of_suffix (h : base <:+ resolve cwd path) : Below cwd base 0 path := by
  obtain ⟨above, hresolve⟩ := h
  exact ⟨above, Nat.zero_le _, hresolve.symm⟩

theorem Below.mono {m : ℕ} (h : Below cwd base n path) (hm : m ≤ n) : Below cwd base m path := by
  obtain ⟨above, hlength, hresolve⟩ := h
  exact ⟨above, hm.trans hlength, hresolve⟩

theorem Below.mkCanonical (h : Below cwd base n path) : Below cwd base n (mkCanonical path) := by
  obtain ⟨above, hlength, hresolve⟩ := h
  exact ⟨above, hlength, resolve_mkCanonical.trans hresolve⟩

/-- Appending a path with few parent arcs loses as many names. -/
theorem Below.append_count {k : ℕ} (h : Below cwd base (n + k) root)
    (hrel : isAbsolute relative = false)
    (hcount : (fromString relative).arcs.count parentArc ≤ k) :
    Below cwd base n (append root relative) := by
  obtain ⟨above, hlength, hresolve⟩ := h
  obtain ⟨above', hfollow, hle⟩ := @exists_follow base (fromString relative).arcs above (by omega)
  exact ⟨above', by omega, by rw [resolve_append hrel, hresolve, hfollow]⟩

theorem Below.append_guarded (h : Below cwd base (n + 1) root) (hguarded : Guarded relative) :
    Below cwd base n (append root relative) :=
  h.append_count hguarded.relative hguarded.count_le

/-- Arcs that all are names. -/
def Names (arcs : List Text) : Prop := ∀ arc ∈ arcs, ¬Idle arc ∧ arc ≠ parentArc

instance (arcs : List Text) : Decidable (Names arcs) :=
  inferInstanceAs (Decidable (∀ arc ∈ arcs, _))

theorem follow_names (h : Names arcs) : follow place arcs = arcs.reverse ++ place := by
  induction arcs generalizing place with
  | nil => rfl
  | cons arc arcs ih =>
    obtain ⟨hidle, hparent⟩ := h arc List.mem_cons_self
    rw [follow_cons, followArc_name hidle hparent,
      ih fun other hother ↦ h other (List.mem_cons_of_mem _ hother)]
    simp

/-- A relative path of `k` names. -/
def Named (k : ℕ) (path : Text) : Prop :=
  isAbsolute path = false ∧ Names (fromString path).arcs ∧ (fromString path).arcs.length = k

instance (k : ℕ) (path : Text) : Decidable (Named k path) := inferInstanceAs (Decidable (_ ∧ _))

theorem Below.append_named {k : ℕ} (h : Below cwd base n root) (hnamed : Named k relative) :
    Below cwd base (n + k) (append root relative) := by
  obtain ⟨hrel, hnames, hk⟩ := hnamed
  obtain ⟨above, hlength, hresolve⟩ := h
  refine ⟨(fromString relative).arcs.reverse ++ above, ?_, ?_⟩
  · rw [List.length_append, List.length_reverse]
    omega
  · rw [resolve_append hrel, hresolve, follow_names hnames, List.append_assoc]

/-- A path whose directory is below a base, and whose last arc is a name. -/
theorem below_of_dir (h : Below cwd base n (dir path)) (hidle : ¬Idle (file path))
    (hparent : file path ≠ parentArc) : Below cwd base (n + 1) path := by
  obtain ⟨above, hlength, hresolve⟩ := h
  refine ⟨file path :: above, Nat.succ_le_succ hlength, ?_⟩
  rw [resolve_eq_followArc, hresolve, followArc_name hidle hparent]
  rfl

/-- The directory of a guarded path. -/
theorem Below.dir_append (h : Below cwd base n root) (hguarded : Guarded relative)
    (hne : relative ≠ []) : Below cwd base n (dir (append root relative)) := by
  obtain ⟨above, hlength, hresolve⟩ := h
  obtain ⟨above', hfollow, hle⟩ := @exists_follow base (fromString relative).arcs.dropLast above
    ((List.count_eq_zero_of_not_mem hguarded.inner).trans_le (Nat.zero_le _))
  rw [List.count_eq_zero_of_not_mem hguarded.inner] at hle
  exact ⟨above', by omega, by rw [resolve_dir_append hguarded.relative hne, hresolve, hfollow]⟩

end Below

end Holbuild.Library.Path
