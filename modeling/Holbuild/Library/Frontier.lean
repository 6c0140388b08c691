import Mathlib.Data.List.Nodup
import Mathlib.Logic.Relation

/-!
# The marked vertices that a tour meets first

A depth-first tour of a graph that goes no further at a marked vertex, and notes it. `frontier_spec` says
what it notes in a graph whose successors are lower in a rank: marked vertices that the roots lead to, each
once, and on the way to any marked vertex at least one. Where nothing is marked the tour meets exactly the
vertices that the roots lead to (`mem_reached_iff`).
-/

set_option autoImplicit false
set_option relaxedAutoImplicit false

namespace Holbuild.Library

open Relation

variable {α : Type*} [DecidableEq α] {next : α → List α} {marked : α → Bool} {rank : α → ℕ}
  {roots path : List α}

/-- The vertices met so far, and the marked ones among them, newest first. -/
structure Tour (α : Type*) where
  seen : List α
  found : List α

/-- Tours from a vertex, with fuel for the length of the way. -/
def tour (next : α → List α) (marked : α → Bool) : ℕ → Tour α → α → Tour α
  | 0, s, _ => s
  | fuel + 1, s, v =>
    if v ∈ s.seen then s
    else if marked v then ⟨v :: s.seen, v :: s.found⟩
    else (next v).foldl (tour next marked fuel) { s with seen := v :: s.seen }

/-- Tours from several vertices. -/
def tourFrom (next : α → List α) (marked : α → Bool) (fuel : ℕ) (roots : List α) : Tour α :=
  roots.foldl (tour next marked fuel) ⟨[], []⟩

/-- The marked vertices that are met, oldest first. -/
def frontier (next : α → List α) (marked : α → Bool) (fuel : ℕ) (roots : List α) : List α :=
  (tourFrom next marked fuel roots).found.reverse

/-- The vertices that are met where nothing is marked, oldest first. -/
def reached (next : α → List α) (fuel : ℕ) (roots : List α) : List α :=
  (tourFrom next (fun _ ↦ false) fuel roots).seen.reverse

/-- What a tour keeps: the marked vertices met are noted, each once, and every other vertex met, but those on
the way to the vertex being visited, has had its successors met. -/
structure Tour.Good (next : α → List α) (marked : α → Bool) (roots path : List α) (s : Tour α) : Prop where
  nodup : s.found.Nodup
  found : ∀ v ∈ s.found, v ∈ s.seen ∧ marked v
  noted : ∀ v ∈ s.seen, marked v → v ∈ s.found
  closed : ∀ v ∈ s.seen, v ∉ path → marked v = false → ∀ w ∈ next v, w ∈ s.seen
  reached : ∀ v ∈ s.seen, ∃ root ∈ roots, ReflTransGen (fun a b ↦ b ∈ next a) root v

omit [DecidableEq α] in
/-- What every visit of a list keeps and meets, visiting them in turn does. -/
theorem foldl_tour_spec {step : Tour α → α → Tour α} {ahead : List α}
    (hstep : ∀ s, s.Good next marked roots path → ∀ v ∈ ahead,
      (step s v).Good next marked roots path ∧ s.seen ⊆ (step s v).seen ∧ v ∈ (step s v).seen)
    {s : Tour α} (hs : s.Good next marked roots path) :
    (ahead.foldl step s).Good next marked roots path ∧ s.seen ⊆ (ahead.foldl step s).seen ∧
      ∀ v ∈ ahead, v ∈ (ahead.foldl step s).seen := by
  induction ahead generalizing s with
  | nil => exact ⟨hs, List.Subset.refl _, fun _ hv ↦ nomatch hv⟩
  | cons v rest ih =>
    obtain ⟨hgood, hsub, hv⟩ := hstep s hs v List.mem_cons_self
    obtain ⟨hgood', hsub', hrest⟩ :=
      ih (fun s' hs' w hw ↦ hstep s' hs' w (List.mem_cons_of_mem v hw)) hgood
    refine ⟨hgood', fun w hw ↦ hsub' (hsub hw), fun w hw ↦ ?_⟩
    rcases List.mem_cons.mp hw with rfl | hw
    · exact hsub' hv
    · exact hrest w hw

/-- Assumes: successors are lower in a rank, and fuel for the rank of a vertex that the roots lead to. The
visit meets it. -/
theorem tour_spec (hrank : ∀ v, ∀ w ∈ next v, rank w < rank v) : ∀ {fuel : ℕ} {path : List α} {v : α}
    {s : Tour α}, s.Good next marked roots path → rank v < fuel →
    (∃ root ∈ roots, ReflTransGen (fun a b ↦ b ∈ next a) root v) →
    (tour next marked fuel s v).Good next marked roots path ∧ s.seen ⊆ (tour next marked fuel s v).seen ∧
      v ∈ (tour next marked fuel s v).seen := by
  intro fuel
  induction fuel with
  | zero => exact fun _ hfuel ↦ absurd hfuel (Nat.not_lt_zero _)
  | succ fuel ih =>
    intro path v s hs hfuel hroot
    rw [tour]
    split_ifs with hseen hmarked
    · exact ⟨hs, List.Subset.refl _, hseen⟩
    · refine ⟨⟨?_, ?_, ?_, ?_, ?_⟩, List.subset_cons_self .., List.mem_cons_self⟩
      · exact List.nodup_cons.mpr ⟨fun hv ↦ hseen (hs.found v hv).1, hs.nodup⟩
      · refine List.forall_mem_cons.mpr ⟨⟨List.mem_cons_self, hmarked⟩, fun w hw ↦ ?_⟩
        exact ⟨List.mem_cons_of_mem v (hs.found w hw).1, (hs.found w hw).2⟩
      · refine List.forall_mem_cons.mpr ⟨fun _ ↦ List.mem_cons_self, fun w hw hm ↦ ?_⟩
        exact List.mem_cons_of_mem v (hs.noted w hw hm)
      · intro w hw hpath hm u hu
        rcases List.mem_cons.mp hw with rfl | hw
        · cases hmarked.symm.trans hm
        · exact List.mem_cons_of_mem v (hs.closed w hw hpath hm u hu)
      · exact List.forall_mem_cons.mpr ⟨hroot, hs.reached⟩
    · -- the successors are visited with the vertex on the path
      have hopen : Tour.Good next marked roots (v :: path) { s with seen := v :: s.seen } := by
        refine ⟨hs.nodup, fun w hw ↦ ?_, ?_, fun w hw hpath hm u hu ↦ ?_, ?_⟩
        · exact ⟨List.mem_cons_of_mem v (hs.found w hw).1, (hs.found w hw).2⟩
        · exact List.forall_mem_cons.mpr ⟨fun hm ↦ absurd hm hmarked, hs.noted⟩
        · rw [List.mem_cons, not_or] at hpath
          have hold := (List.mem_cons.mp hw).resolve_left hpath.1
          exact List.mem_cons_of_mem v (hs.closed w hold hpath.2 hm u hu)
        · exact List.forall_mem_cons.mpr ⟨hroot, hs.reached⟩
      have hvisit : ∀ s', s'.Good next marked roots (v :: path) → ∀ w ∈ next v,
          (tour next marked fuel s' w).Good next marked roots (v :: path) ∧
            s'.seen ⊆ (tour next marked fuel s' w).seen ∧ w ∈ (tour next marked fuel s' w).seen := by
        intro s' hs' w hw
        obtain ⟨root, hmem, hway⟩ := hroot
        have hlower := hrank v w hw
        exact ih hs' (by omega) ⟨root, hmem, hway.tail hw⟩
      obtain ⟨hgood, hsub, hnext⟩ := foldl_tour_spec hvisit hopen
      have hv := hsub (@List.mem_cons_self _ v s.seen)
      refine ⟨⟨hgood.nodup, hgood.found, hgood.noted, fun w hw hpath hm u hu ↦ ?_, hgood.reached⟩,
        fun w hw ↦ hsub (List.mem_cons_of_mem v hw), hv⟩
      rcases eq_or_ne w v with rfl | hne
      · exact hnext u hu
      · exact hgood.closed w hw (fun hmem ↦ (List.mem_cons.mp hmem).elim hne hpath) hm u hu

/-- Assumes: successors are lower in a rank, and fuel for the roots. The tour from the roots meets them. -/
theorem tourFrom_spec (hrank : ∀ v, ∀ w ∈ next v, rank w < rank v) {fuel : ℕ}
    (hfuel : ∀ root ∈ roots, rank root < fuel) :
    (tourFrom next marked fuel roots).Good next marked roots [] ∧
      ∀ root ∈ roots, root ∈ (tourFrom next marked fuel roots).seen := by
  have hempty : Tour.Good next marked roots [] ⟨[], []⟩ := by
    constructor <;> simp
  obtain ⟨hgood, -, hmet⟩ := foldl_tour_spec
    (fun s hs v hv ↦ tour_spec hrank hs (hfuel v hv) ⟨v, hv, .refl⟩) hempty
  exact ⟨hgood, hmet⟩

/-- Assumes: successors are lower in a rank, and fuel for the roots. The tour notes marked vertices that the
roots lead to, each once, and one on every way to a marked vertex. -/
theorem frontier_spec (hrank : ∀ v, ∀ w ∈ next v, rank w < rank v) {fuel : ℕ}
    (hfuel : ∀ root ∈ roots, rank root < fuel) :
    (frontier next marked fuel roots).Nodup ∧
    (∀ v ∈ frontier next marked fuel roots, marked v ∧
      ∃ root ∈ roots, ReflTransGen (fun a b ↦ b ∈ next a) root v) ∧
    ∀ v, marked v → (∃ root ∈ roots, ReflTransGen (fun a b ↦ b ∈ next a) root v) →
      ∃ first ∈ frontier next marked fuel roots, ReflTransGen (fun a b ↦ b ∈ next a) first v := by
  obtain ⟨hgood, hmet⟩ := @tourFrom_spec α _ next marked rank roots hrank fuel hfuel
  refine ⟨List.nodup_reverse.mpr hgood.nodup, fun v hv ↦ ?_, fun v hv hroot ↦ ?_⟩
  · obtain ⟨hseen, hmarked⟩ := hgood.found v (List.mem_reverse.mp hv)
    exact ⟨hmarked, hgood.reached v hseen⟩
  · obtain ⟨root, hmem, hway⟩ := hroot
    have hfirst : ∀ u, ReflTransGen (fun a b ↦ b ∈ next a) u v → u ∈ (tourFrom next marked fuel roots).seen →
        ∃ first ∈ (tourFrom next marked fuel roots).found,
          ReflTransGen (fun a b ↦ b ∈ next a) first v := by
      intro u hu
      induction hu using ReflTransGen.head_induction_on with
      | refl => exact fun hseen ↦ ⟨v, hgood.noted v hseen hv, .refl⟩
      | @head u w hedge hrest ih =>
        intro hseen
        by_cases hmarked : marked u
        · exact ⟨u, hgood.noted u hseen hmarked, .head hedge hrest⟩
        · exact ih (hgood.closed u hseen (List.not_mem_nil) (Bool.eq_false_iff.mpr hmarked) w hedge)
    obtain ⟨first, hfound, hrest⟩ := hfirst root hway (hmet root hmem)
    exact ⟨first, List.mem_reverse.mpr hfound, hrest⟩

/-- Assumes: successors are lower in a rank, and fuel for the roots. -/
theorem mem_reached_iff (hrank : ∀ v, ∀ w ∈ next v, rank w < rank v) {fuel : ℕ}
    (hfuel : ∀ root ∈ roots, rank root < fuel) {v : α} :
    v ∈ reached next fuel roots ↔ ∃ root ∈ roots, ReflTransGen (fun a b ↦ b ∈ next a) root v := by
  obtain ⟨hgood, hmet⟩ := @tourFrom_spec α _ next (fun _ ↦ false) rank roots hrank fuel hfuel
  rw [reached, List.mem_reverse]
  refine ⟨hgood.reached v, ?_⟩
  rintro ⟨root, hmem, hway⟩
  induction hway with
  | refl => exact hmet root hmem
  | @tail u w _ hedge ih => exact hgood.closed u ih List.not_mem_nil rfl w hedge

end Holbuild.Library
