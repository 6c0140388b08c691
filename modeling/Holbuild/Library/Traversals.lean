import Holbuild.Library.DepthFirst
import Holbuild.Library.Outcomes

/-!
# Traversing an ordered graph by position

`Traversal.visit` goes through the vertices of a list by their positions. It marks a position before it
descends to the positions of the successors, and it does not look for cycles.

Where every successor of a vertex stands before the vertex, a traversal and a depth-first search visit
alike (`visit_eq_visit`): the search may mark a vertex only afterwards, since nothing below a vertex
leads back to it. Both then list the same vertices in the same order (`traverse_eq_sort`).
-/

set_option autoImplicit false
set_option relaxedAutoImplicit false

namespace Holbuild.Library



variable {α ε : Type}

/-- What a traversal goes through: each vertex with the positions of its successors, and what it raises
outside of them and without fuel. -/
structure Traversal (α ε : Type) where
  entries : List (α × List ℕ)
  outside : ε
  exhausted : ε

namespace Traversal

/-- The marks of a traversal and the vertices it has listed, newest first. -/
structure State (α : Type) where
  marked : ℕ → Bool
  order : List α

/-- Visits a position, with the position marked before its successors are visited. -/
def visit (w : Traversal α ε) : ℕ → State α → ℕ → Except ε (State α)
  | 0, _, _ => .error w.exhausted
  | fuel + 1, s, i =>
    match w.entries[i]? with
    | none => .error w.outside
    | some (v, next) =>
      if s.marked i then .ok s
      else do
        let s' ← next.foldlM (visit w fuel) { s with marked := Function.update s.marked i true }
        .ok { s' with order := v :: s'.order }

/-- The vertices reachable from the roots, each after its successors. -/
def traverse (w : Traversal α ε) (fuel : ℕ) (roots : List ℕ) : Except ε (List α) := do
  let s ← roots.foldlM (w.visit fuel) ⟨fun _ ↦ false, []⟩
  .ok s.order.reverse

/-- The traversal of the vertices of a list along their successors. -/
def of [DecidableEq α] (vertices : List α) (next : α → List α) (outside exhausted : ε) : Traversal α ε :=
  ⟨vertices.map fun v ↦ (v, (next v).map vertices.idxOf), outside, exhausted⟩

section Agreement

variable {n : ℕ} {s s' : Search α ℕ} {t t' : State α}

/-- What a search and a traversal share below a position: the search has nothing active there, and they
have the same marks. -/
structure Agree (n : ℕ) (s : Search α ℕ) (t : State α) : Prop where
  inactive : ∀ j < n, s.active j = false
  marks : ∀ j < n, t.marked j = s.visited j
  order : t.order = s.order

/-- What a step leaves alone from a position on, and the active marks everywhere. -/
structure Frame (n : ℕ) (s s' : Search α ℕ) (t t' : State α) : Prop where
  active : s'.active = s.active
  visited : ∀ j, n ≤ j → s'.visited j = s.visited j
  marked : ∀ j, n ≤ j → t'.marked j = t.marked j

theorem Frame.refl : Frame n s s t t := ⟨rfl, fun _ _ ↦ rfl, fun _ _ ↦ rfl⟩

theorem Frame.trans {s'' : Search α ℕ} {t'' : State α} (h : Frame n s s' t t')
    (h' : Frame n s' s'' t' t'') : Frame n s s'' t t'' :=
  ⟨h'.active.trans h.active, fun j hj ↦ (h'.visited j hj).trans (h.visited j hj),
    fun j hj ↦ (h'.marked j hj).trans (h.marked j hj)⟩

end Agreement

variable [DecidableEq α] {g : Sorter α ℕ ε} {vertices : List α} {next : α → List α}
  {outside exhausted : ε}

/-- Loops of visits to vertices below a position agree where the visits do. -/
theorem foldlM_eq_foldlM {n : ℕ} {step : Search α ℕ → α → Except ε (Search α ℕ)}
    {move : State α → ℕ → Except ε (State α)} {ahead : List α}
    (hvisit : ∀ v ∈ ahead, ∀ s t, Agree n s t → ∃ s' t', step s v = .ok s' ∧
      move t (vertices.idxOf v) = .ok t' ∧ Agree n s' t' ∧ Frame n s s' t t')
    {s : Search α ℕ} {t : State α} (h : Agree n s t) :
    ∃ s' t', ahead.foldlM step s = .ok s' ∧ (ahead.map vertices.idxOf).foldlM move t = .ok t' ∧
      Agree n s' t' ∧ Frame n s s' t t' := by
  induction ahead generalizing s t with
  | nil => exact ⟨s, t, rfl, rfl, h, .refl⟩
  | cons v rest ih =>
    obtain ⟨s₁, t₁, hs₁, ht₁, hagree₁, hframe₁⟩ := hvisit v List.mem_cons_self s t h
    obtain ⟨s₂, t₂, hs₂, ht₂, hagree₂, hframe₂⟩ :=
      ih (fun w hw ↦ hvisit w (List.mem_cons_of_mem _ hw)) hagree₁
    refine ⟨s₂, t₂, ?_, ?_, hagree₂, hframe₁.trans hframe₂⟩
    · rw [List.foldlM_cons, hs₁]
      exact hs₂
    · rw [List.map_cons, List.foldlM_cons, ht₁]
      exact ht₂

/-- Assumes: every successor of a vertex stands before it, and fuel for the positions up to the
vertex. The search and the traversal visit the vertex alike. -/
theorem visit_eq_visit (hsound : g.Sound vertices vertices.idxOf next)
    (hbefore : ∀ v ∈ vertices, ∀ w ∈ next v, vertices.idxOf w < vertices.idxOf v) {k : ℕ} :
    ∀ {v : α}, v ∈ vertices → vertices.idxOf v < k → ∀ {fuel fuel' : ℕ}, k ≤ fuel → k ≤ fuel' →
      ∀ {n : ℕ}, vertices.idxOf v < n → ∀ {path : List α} {s : Search α ℕ} {t : State α},
        Agree n s t → ∃ s' t', g.visit fuel path s v = .ok s' ∧
          (of vertices next outside exhausted).visit fuel' t (vertices.idxOf v) = .ok t' ∧
            Agree n s' t' ∧ Frame n s s' t t' := by
  induction k with
  | zero => exact fun _ h ↦ absurd h (Nat.not_lt_zero _)
  | succ k ih =>
    intro v hv hk fuel fuel' hfuel hfuel' n hlt path s t h
    obtain ⟨fuel, rfl⟩ := Nat.exists_eq_add_one_of_ne_zero (Nat.ne_zero_of_lt hfuel)
    obtain ⟨fuel', rfl⟩ := Nat.exists_eq_add_one_of_ne_zero (Nat.ne_zero_of_lt hfuel')
    have hentry : (of vertices next outside exhausted).entries[vertices.idxOf v]? =
        some (v, (next v).map vertices.idxOf) := by
      rw [of, List.getElem?_map, List.getElem?_idxOf hv]
      rfl
    rw [Sorter.visit, hsound.locate v hv, visit, hentry]
    show ∃ s' t', (if s.visited (vertices.idxOf v) then _ else _) = Except.ok s' ∧
      (if t.marked (vertices.idxOf v) then _ else _) = Except.ok t' ∧ _
    rw [h.marks _ hlt]
    by_cases hvisited : s.visited (vertices.idxOf v) = true
    · rw [if_pos hvisited, if_pos hvisited]
      exact ⟨s, t, rfl, rfl, h, .refl⟩
    have hinactive := h.inactive _ hlt
    rw [if_neg hvisited, if_neg hvisited, if_neg (by rw [hinactive]; exact Bool.false_ne_true),
      hsound.successors v hv]
    -- below the vertex, whose own mark is not looked at there, both start alike
    have hstart : Agree (vertices.idxOf v)
        { s with active := Function.update s.active (vertices.idxOf v) true }
        { t with marked := Function.update t.marked (vertices.idxOf v) true } := by
      refine ⟨fun j hj ↦ ?_, fun j hj ↦ ?_, h.order⟩
      · exact (Function.update_of_ne hj.ne _ _).trans (h.inactive j (hj.trans hlt))
      · exact (Function.update_of_ne hj.ne _ _).trans (h.marks j (hj.trans hlt))
    obtain ⟨s₁, t₁, hs₁, ht₁, hagree, hframe⟩ := foldlM_eq_foldlM
      (fun w hw s t hst ↦ ih (hsound.closed v hv w hw)
        ((hbefore v hv w hw).trans_le (Nat.lt_succ_iff.mp hk)) (Nat.le_of_succ_le_succ hfuel)
        (Nat.le_of_succ_le_succ hfuel') (hbefore v hv w hw) hst) hstart
    refine ⟨_, _, bind_eq_ok_iff.mpr ⟨next v, rfl, bind_eq_ok_iff.mpr ⟨s₁, hs₁, rfl⟩⟩,
      bind_eq_ok_iff.mpr ⟨t₁, ht₁, rfl⟩, ?_, ?_⟩
    · refine ⟨fun j hj ↦ ?_, fun j hj ↦ ?_, congrArg (v :: ·) hagree.order⟩
      · show Function.update s₁.active (vertices.idxOf v) false j = false
        rcases eq_or_ne j (vertices.idxOf v) with rfl | hne
        · exact Function.update_self ..
        · rw [Function.update_of_ne hne, hframe.active]
          exact (Function.update_of_ne hne _ _).trans (h.inactive j hj)
      · show t₁.marked j = Function.update s₁.visited (vertices.idxOf v) true j
        rcases lt_trichotomy j (vertices.idxOf v) with hbelow | rfl | habove
        · rw [Function.update_of_ne hbelow.ne]
          exact hagree.marks j hbelow
        · rw [Function.update_self, hframe.marked _ le_rfl]
          exact Function.update_self ..
        · rw [Function.update_of_ne habove.ne', hframe.marked j habove.le,
            hframe.visited j habove.le]
          exact (Function.update_of_ne habove.ne' _ _).trans (h.marks j hj)
    · refine ⟨?_, fun j hj ↦ ?_, fun j hj ↦ ?_⟩
      · show Function.update s₁.active (vertices.idxOf v) false = s.active
        rw [hframe.active, Function.update_idem, ← hinactive, Function.update_eq_self]
      · have habove := hlt.trans_le hj
        exact (Function.update_of_ne habove.ne' _ _).trans (hframe.visited j habove.le)
      · have habove := hlt.trans_le hj
        exact (hframe.marked j habove.le).trans (Function.update_of_ne habove.ne' _ _)

/-- Assumes: every successor of a vertex stands before it. The traversal lists what the search
lists, in the same order. -/
theorem traverse_eq_sort (hsound : g.Sound vertices vertices.idxOf next)
    (hbefore : ∀ v ∈ vertices, ∀ w ∈ next v, vertices.idxOf w < vertices.idxOf v) {roots : List α}
    (hroots : ∀ root ∈ roots, root ∈ vertices) {fuel fuel' : ℕ} (hfuel : vertices.length ≤ fuel)
    (hfuel' : vertices.length ≤ fuel') :
    ∃ order, g.sort fuel roots = .ok order ∧
      (of vertices next outside exhausted).traverse fuel' (roots.map vertices.idxOf) =
        .ok order := by
  have hinitial : Agree vertices.length (⟨fun _ ↦ false, fun _ ↦ false, []⟩ : Search α ℕ)
      (⟨fun _ ↦ false, []⟩ : State α) := ⟨fun _ _ ↦ rfl, fun _ _ ↦ rfl, rfl⟩
  obtain ⟨s, t, hs, ht, hagree, -⟩ := foldlM_eq_foldlM
    (fun v hv s t hst ↦ by
      have hlt := List.idxOf_lt_length_iff.mpr (hroots v hv)
      exact @visit_eq_visit _ _ _ g vertices next outside exhausted hsound hbefore _ v (hroots v hv)
        hlt fuel fuel' hfuel hfuel' _ hlt [] s t hst) hinitial
  refine ⟨s.order.reverse, bind_eq_ok_iff.mpr ⟨s, hs, rfl⟩, bind_eq_ok_iff.mpr ⟨t, ht, ?_⟩⟩
  rw [hagree.order]

end Traversal

end Holbuild.Library
