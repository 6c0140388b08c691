import Holbuild.Library.Digraph
import Mathlib.Logic.Function.Basic

/-!
# Topological sorting by depth-first search

`Sorter.sort` visits the successors of a vertex before it lists the vertex. A vertex is marked active
while its successors are visited and visited afterwards; meeting an active vertex raises a cycle.
Locating a vertex and listing its successors may raise as well. The search has fuel for the length of
its path.

`Sorter.Sound` says that on a finite set of vertices nothing raises and the set is closed under
successors. Then the fuel never runs out, and `sort_spec` says what the search does: it lists exactly
the vertices reachable from its roots, each once and after its successors, or it raises a cycle
because some reachable vertex precedes itself. An order excludes such a vertex
(`ReadyOrder.not_transGen`), so the two outcomes exclude each other.
-/

set_option autoImplicit false
set_option relaxedAutoImplicit false

namespace Holbuild.Library

open Relation

universe u

variable {α ι ε : Type u}

/-- The marks of a search and the vertices it has listed, newest first. -/
structure Search (α ι : Type u) where
  visited : ι → Bool
  active : ι → Bool
  order : List α

/-- What a search calls: the position of a vertex in the arrays of marks, its successors, and what it
raises at an active vertex and without fuel. -/
structure Sorter (α ι ε : Type u) where
  locate : α → Except ε ι
  successors : α → Except ε (List α)
  cycle : List α → α → ε
  exhausted : ε

namespace Sorter

/-- Visits a vertex from the vertices on its path, the nearest first. -/
def visit [DecidableEq ι] (g : Sorter α ι ε) : ℕ → List α → Search α ι → α → Except ε (Search α ι)
  | 0, _, _, _ => .error g.exhausted
  | fuel + 1, path, s, v => do
    let i ← g.locate v
    if s.visited i then .ok s
    else if s.active i then .error (g.cycle path v)
    else
      let next ← g.successors v
      let s' ← next.foldlM (visit g fuel (v :: path)) { s with active := Function.update s.active i true }
      .ok
        { visited := Function.update s'.visited i true
          active := Function.update s'.active i false
          order := v :: s'.order }

/-- The vertices reachable from the roots, each after its successors. -/
def sort [DecidableEq ι] (g : Sorter α ι ε) (fuel : ℕ) (roots : List α) : Except ε (List α) := do
  let s ← roots.foldlM (g.visit fuel []) ⟨fun _ ↦ false, fun _ ↦ false, []⟩
  .ok s.order.reverse

/-- On the vertices of a list nothing raises, and their successors are vertices of the list. -/
structure Sound (g : Sorter α ι ε) (vertices : List α) (position : α → ι) (next : α → List α) :
    Prop where
  locate : ∀ v ∈ vertices, g.locate v = .ok (position v)
  injective : ∀ v ∈ vertices, ∀ w ∈ vertices, position v = position w → v = w
  successors : ∀ v ∈ vertices, g.successors v = .ok (next v)
  closed : ∀ v ∈ vertices, ∀ w ∈ next v, w ∈ vertices

/-- What holds of a search between visits: the marks say what is listed and what is on the path, and
the listed vertices are reachable and stand after their successors. -/
structure Good (vertices : List α) (position : α → ι) (next : α → List α) (roots path : List α)
    (s : Search α ι) : Prop where
  visited : ∀ v ∈ vertices, s.visited (position v) = true ↔ v ∈ s.order
  active : ∀ v ∈ vertices, s.active (position v) = true ↔ v ∈ path
  nodup : s.order.Nodup
  listed : ∀ v ∈ s.order, v ∈ vertices ∧ v ∉ path ∧ ∃ root ∈ roots,
    ReflTransGen (fun a b ↦ b ∈ next a) root v
  ready : ReadyOrder next [] s.order.reverse

variable {g : Sorter α ι ε} {vertices roots : List α} {position : α → ι} {next : α → List α}

/-- A search ends well, or raises a cycle because some reachable vertex precedes itself. -/
def Ends (g : Sorter α ι ε) (next : α → List α) (roots : List α) (post : Search α ι → Prop) :
    Except ε (Search α ι) → Prop
  | .ok s => post s
  | .error e => (∃ path v, e = g.cycle path v) ∧
      ∃ root ∈ roots, ∃ v, ReflTransGen (fun a b ↦ b ∈ next a) root v ∧
        TransGen (fun a b ↦ b ∈ next a) v v

theorem Ends.bind {post post' : Search α ι → Prop} {x : Except ε (Search α ι)}
    {f : Search α ι → Except ε (Search α ι)} (hx : Ends g next roots post x)
    (hf : ∀ s, post s → Ends g next roots post' (f s)) : Ends g next roots post' (x >>= f) := by
  cases x with
  | ok s => exact hf s hx
  | error e => exact hx

/-- A loop of visits lists every vertex it visits. -/
theorem foldlM_spec {path ahead : List α} {step : Search α ι → α → Except ε (Search α ι)}
    (hstep : ∀ s, Good vertices position next roots path s → ∀ v ∈ ahead,
      Ends g next roots (fun s' ↦ Good vertices position next roots path s' ∧ s.order ⊆ s'.order ∧
        v ∈ s'.order) (step s v)) {s : Search α ι} (hs : Good vertices position next roots path s) :
    Ends g next roots (fun s' ↦ Good vertices position next roots path s' ∧ s.order ⊆ s'.order ∧
      ∀ v ∈ ahead, v ∈ s'.order) (ahead.foldlM step s) := by
  induction ahead generalizing s with
  | nil => exact ⟨hs, List.Subset.refl _, fun v hv ↦ absurd hv List.not_mem_nil⟩
  | cons v rest ih =>
    rw [List.foldlM_cons]
    apply (hstep s hs v List.mem_cons_self).bind
    rintro s₁ ⟨hs₁, hsub₁, hv⟩
    have hrest := ih (fun s hs w hw ↦ hstep s hs w (List.mem_cons_of_mem _ hw)) hs₁
    cases hfold : rest.foldlM step s₁ with
    | error e =>
      rw [hfold] at hrest
      exact hrest
    | ok s₂ =>
      rw [hfold] at hrest
      obtain ⟨hs₂, hsub₂, hmem⟩ := hrest
      refine ⟨hs₂, List.Subset.trans hsub₁ hsub₂, fun w hw ↦ ?_⟩
      rcases List.mem_cons.mp hw with rfl | hw
      · exact hsub₂ hv
      · exact hmem w hw

variable [DecidableEq ι]

/-- Assumes: the path holds distinct vertices that all lead to this one, and the fuel is enough for
the vertices that are not on it. The visit lists the vertex. -/
theorem visit_spec (hsound : g.Sound vertices position next) : ∀ {fuel : ℕ} {path : List α} {v : α}
    {s : Search α ι}, Good vertices position next roots path s → v ∈ vertices → path.Nodup →
    (∀ w ∈ path, w ∈ vertices ∧ TransGen (fun a b ↦ b ∈ next a) w v) →
    (∃ root ∈ roots, ReflTransGen (fun a b ↦ b ∈ next a) root v) →
    vertices.length < fuel + path.length →
    Ends g next roots (fun s' ↦ Good vertices position next roots path s' ∧ s.order ⊆ s'.order ∧
      v ∈ s'.order) (g.visit fuel path s v) := by
  intro fuel
  induction fuel with
  | zero =>
    intro path v s _ _ hnodup hpath _ hfuel
    have hle : path.length ≤ vertices.length :=
      (List.subperm_of_subset hnodup fun w hw ↦ (hpath w hw).1).length_le
    omega
  | succ fuel ih =>
    intro path v s hs hv hnodup hpath hroot hfuel
    rw [visit, hsound.locate v hv]
    show Ends _ _ _ _ (if s.visited (position v) = true then _ else _)
    by_cases hvisited : s.visited (position v) = true
    · rw [if_pos hvisited]
      exact ⟨hs, List.Subset.refl _, (hs.visited v hv).mp hvisited⟩
    rw [if_neg hvisited]
    by_cases hactive : s.active (position v) = true
    · rw [if_pos hactive]
      obtain ⟨root, hmem, hreach⟩ := hroot
      exact ⟨⟨path, v, rfl⟩, root, hmem, v, hreach, (hpath v ((hs.active v hv).mp hactive)).2⟩
    rw [if_neg hactive, hsound.successors v hv]
    have hfresh : v ∉ path := fun h ↦ hactive ((hs.active v hv).mpr h)
    have hunlisted : v ∉ s.order := fun h ↦ hvisited ((hs.visited v hv).mpr h)
    have hmark : ∀ w ∈ vertices, w ≠ v → position w ≠ position v := by
      intro w hw hne heq
      exact hne (hsound.injective w hw v hv heq)
    -- the search among the successors, with the vertex on the path
    have hs₀ : Good vertices position next roots (v :: path)
        { s with active := Function.update s.active (position v) true } := by
      refine ⟨hs.visited, fun w hw ↦ ?_, hs.nodup, fun w hw ↦ ?_, hs.ready⟩
      · by_cases hwv : w = v
        · subst hwv
          simp
        · dsimp only
          rw [Function.update_of_ne (hmark w hw hwv), hs.active w hw, List.mem_cons]
          simp [hwv]
      · obtain ⟨hmem, hnot, hreach⟩ := hs.listed w hw
        refine ⟨hmem, fun hcons ↦ ?_, hreach⟩
        rcases List.mem_cons.mp hcons with rfl | hpathw
        · exact hunlisted hw
        · exact hnot hpathw
    have hnext : ∀ s₁, Good vertices position next roots (v :: path) s₁ → ∀ w ∈ next v,
        Ends g next roots (fun s' ↦ Good vertices position next roots (v :: path) s' ∧
          s₁.order ⊆ s'.order ∧ w ∈ s'.order) (g.visit fuel (v :: path) s₁ w) := by
      intro s₁ hs₁ w hw
      refine ih hs₁ (hsound.closed v hv w hw) (List.nodup_cons.mpr ⟨hfresh, hnodup⟩) ?_ ?_ ?_
      · intro u hu
        rcases List.mem_cons.mp hu with rfl | hu
        · exact ⟨hv, .single hw⟩
        · exact ⟨(hpath u hu).1, (hpath u hu).2.tail hw⟩
      · obtain ⟨root, hmem, hreach⟩ := hroot
        exact ⟨root, hmem, hreach.tail hw⟩
      · simp only [List.length_cons]
        omega
    refine Ends.bind (foldlM_spec hnext hs₀) ?_
    rintro s' ⟨hs', hsub, hall⟩
    have hv' : v ∉ s'.order := fun h ↦ (hs'.listed v h).2.1 List.mem_cons_self
    refine ⟨⟨fun w hw ↦ ?_, fun w hw ↦ ?_, List.nodup_cons.mpr ⟨hv', hs'.nodup⟩, fun w hw ↦ ?_, ?_⟩,
      fun w hw ↦ List.mem_cons_of_mem _ (hsub hw), List.mem_cons_self⟩
    · by_cases hwv : w = v
      · subst hwv
        simp
      · dsimp only
        rw [Function.update_of_ne (hmark w hw hwv), hs'.visited w hw, List.mem_cons]
        simp [hwv]
    · by_cases hwv : w = v
      · subst hwv
        simp [hfresh]
      · dsimp only
        rw [Function.update_of_ne (hmark w hw hwv), hs'.active w hw, List.mem_cons]
        simp [hwv]
    · rcases List.mem_cons.mp hw with rfl | hw
      · exact ⟨hv, hfresh, hroot⟩
      · obtain ⟨hmem, hnot, hreach⟩ := hs'.listed w hw
        exact ⟨hmem, fun h ↦ hnot (List.mem_cons_of_mem _ h), hreach⟩
    · rw [List.reverse_cons]
      refine hs'.ready.append ⟨fun w hw ↦ ?_, trivial⟩
      rw [List.nil_append, List.mem_reverse]
      exact hall w hw

/-- The search ends with an order of exactly the reachable vertices, each once and after its
successors, or it raises a cycle because some reachable vertex precedes itself. -/
theorem sort_spec (hsound : g.Sound vertices position next) {fuel : ℕ}
    (hroots : ∀ root ∈ roots, root ∈ vertices) (hfuel : vertices.length < fuel) :
    (∃ order, g.sort fuel roots = .ok order ∧ order.Nodup ∧ ReadyOrder next [] order ∧
      ∀ v, v ∈ order ↔ ∃ root ∈ roots, ReflTransGen (fun a b ↦ b ∈ next a) root v) ∨
    (∃ path v, g.sort fuel roots = .error (g.cycle path v)) ∧
      ∃ root ∈ roots, ∃ v, ReflTransGen (fun a b ↦ b ∈ next a) root v ∧
        TransGen (fun a b ↦ b ∈ next a) v v := by
  have hinitial : Good vertices position next roots []
      (⟨fun _ ↦ false, fun _ ↦ false, []⟩ : Search α ι) :=
    ⟨by simp, by simp, List.nodup_nil, by simp, trivial⟩
  have hvisit : ∀ s, Good vertices position next roots [] s → ∀ v ∈ roots,
      Ends g next roots (fun s' ↦ Good vertices position next roots [] s' ∧ s.order ⊆ s'.order ∧
        v ∈ s'.order) (g.visit fuel [] s v) := by
    intro s hs v hv
    exact visit_spec hsound hs (hroots v hv) List.nodup_nil (by simp) ⟨v, hv, .refl⟩
      (by simpa using hfuel)
  have hloop := foldlM_spec hvisit hinitial
  cases hfold : roots.foldlM (g.visit fuel []) ⟨fun _ ↦ false, fun _ ↦ false, []⟩ with
  | error e =>
    rw [hfold] at hloop
    obtain ⟨⟨path, v, rfl⟩, hcycle⟩ := hloop
    refine .inr ⟨⟨path, v, ?_⟩, hcycle⟩
    rw [sort, hfold]
    rfl
  | ok s =>
    rw [hfold] at hloop
    obtain ⟨hs, -, hall⟩ := hloop
    refine .inl ⟨s.order.reverse, ?_, List.nodup_reverse.mpr hs.nodup, hs.ready, fun v ↦ ?_⟩
    · rw [sort, hfold]
      rfl
    · rw [List.mem_reverse]
      refine ⟨fun hv ↦ (hs.listed v hv).2.2, ?_⟩
      rintro ⟨root, hroot, hreach⟩
      induction hreach with
      | refl => exact hall root hroot
      | tail _ hedge ih =>
        classical
        have hmem := List.mem_reverse.mpr ih
        rcases hs.ready.idxOf_lt hmem hedge with htaken | hlt
        · exact absurd htaken List.not_mem_nil
        · have hlength := hlt.trans (List.idxOf_lt_length_iff.mpr hmem)
          exact List.mem_reverse.mp (List.idxOf_lt_length_iff.mp hlength)

end Sorter

/-- An order that is ready for some predecessors is ready for fewer. -/
theorem ReadyOrder.of_subset {next next' : α → List α} (hsub : ∀ v, next' v ⊆ next v) {order : List α} :
    ∀ {taken : List α}, ReadyOrder next taken order → ReadyOrder next' taken order := by
  induction order with
  | nil => exact fun _ ↦ trivial
  | cons v rest ih =>
    intro taken horder
    exact ⟨fun w hw ↦ horder.1 w (hsub v hw), ih horder.2⟩

/-- No vertex of an order in which every vertex stands after its successors precedes itself. -/
theorem ReadyOrder.not_transGen {next : α → List α} {order : List α}
    (horder : ReadyOrder next [] order) {v : α} (hv : v ∈ order) :
    ¬ TransGen (fun a b ↦ b ∈ next a) v v := by
  classical
  have hstep : ∀ a ∈ order, ∀ b ∈ next a, b ∈ order ∧ order.idxOf b < order.idxOf a := by
    intro a ha b hb
    have hlt := (horder.idxOf_lt ha hb).resolve_left List.not_mem_nil
    exact ⟨List.idxOf_lt_length_iff.mp (hlt.trans (List.idxOf_lt_length_iff.mpr ha)), hlt⟩
  have hlt : ∀ b, TransGen (fun a b ↦ b ∈ next a) v b →
      b ∈ order ∧ order.idxOf b < order.idxOf v := by
    intro b hb
    induction hb with
    | single hedge => exact hstep v hv _ hedge
    | tail _ hedge ih =>
      obtain ⟨hmem, hidx⟩ := hstep _ ih.1 _ hedge
      exact ⟨hmem, hidx.trans ih.2⟩
  exact fun hcycle ↦ lt_irrefl _ (hlt v hcycle).2

end Holbuild.Library
