import Mathlib.Combinatorics.Hall.Basic
import Mathlib.Data.Fintype.Sum

/-!
# Staffing jobs with two kinds of workers

Some jobs are special and need one of the able workers; any worker does for the others. By Hall's theorem jobs
can be worked on at once, one by each worker, exactly when there are enough able workers for the special ones and
enough workers for all (`staffed_iff`).

Some jobs are capped: of these at most a number may be worked on at once. `forall_capped_card_le_iff` says what
the largest choice of such jobs is, and `forall_capped_staffed_iff` what all of them need.
-/

set_option autoImplicit false
set_option relaxedAutoImplicit false

namespace Holbuild.Library

variable {α : Type*}

/-- Each of the jobs can have a worker of its own, one of the `able` ones where it is special. -/
def Staffed (able others : ℕ) (special : α → Prop) (jobs : Finset α) : Prop :=
  ∃ worker : jobs → Fin able ⊕ Fin others,
    Function.Injective worker ∧ ∀ job, special job.1 → (worker job).isLeft

section

variable {able others slots n : ℕ} {special capped p : α → Prop} [DecidablePred special] [DecidablePred capped]
  [DecidablePred p] {jobs all : Finset α}

theorem staffed_iff : Staffed able others special jobs ↔
    (jobs.filter special).card ≤ able ∧ jobs.card ≤ able + others := by
  classical
  let ables : Finset (Fin able ⊕ Fin others) := Finset.univ.filter fun worker ↦ worker.isLeft
  have hables : ables.card = able := by
    have hmap : ables = Finset.univ.map ⟨Sum.inl, Sum.inl_injective⟩ := by
      ext worker
      cases worker <;> simp [ables]
    rw [hmap, Finset.card_map, Finset.card_fin]
  have heveryone : (Finset.univ : Finset (Fin able ⊕ Fin others)).card = able + others := by simp
  let fit (job : jobs) : Finset (Fin able ⊕ Fin others) := if special job.1 then ables else Finset.univ
  have hhall : Staffed able others special jobs ↔
      ∀ chosen : Finset jobs, chosen.card ≤ (chosen.biUnion fit).card := by
    rw [Finset.all_card_le_biUnion_card_iff_exists_injective]
    refine exists_congr fun worker ↦ and_congr_right fun _ ↦ forall_congr' fun job ↦ ?_
    by_cases hspecial : special job.1 <;> simp [fit, ables, hspecial]
  have hcard (chosen : Finset jobs) : (chosen.map (Function.Embedding.subtype _)).card = chosen.card :=
    Finset.card_map _
  have hsub (chosen : Finset jobs) : chosen.map (Function.Embedding.subtype _) ⊆ jobs := fun job hjob ↦ by
    obtain ⟨job, -, rfl⟩ := Finset.mem_map.mp hjob
    exact job.2
  rw [hhall]
  refine ⟨fun hfit ↦ ⟨?_, ?_⟩, fun ⟨hspecial, hall⟩ chosen ↦ ?_⟩
  · -- the special jobs are fit for nobody but the able
    have hle := hfit (Finset.univ.filter fun job ↦ special job.1)
    have hunion : (Finset.univ.filter fun job : jobs ↦ special job.1).biUnion fit ⊆ ables := by
      refine Finset.biUnion_subset.mpr fun job hjob ↦ ?_
      simp [fit, (Finset.mem_filter.mp hjob).2]
    have hsame : (Finset.univ.filter fun job : jobs ↦ special job.1).card = (jobs.filter special).card := by
      rw [Finset.univ_eq_attach, Finset.filter_attach, Finset.card_map, Finset.card_attach]
    exact hsame ▸ hle.trans ((Finset.card_le_card hunion).trans_eq hables)
  · have hle := (hfit Finset.univ).trans (Finset.card_le_card (Finset.subset_univ _))
    rwa [Finset.univ_eq_attach, Finset.card_attach, heveryone] at hle
  · by_cases hordinary : ∃ job ∈ chosen, ¬special job.1
    · obtain ⟨job, hjob, hordinary⟩ := hordinary
      have hunion : chosen.biUnion fit = Finset.univ := by
        refine Finset.eq_univ_of_forall fun worker ↦ Finset.mem_biUnion.mpr ⟨job, hjob, ?_⟩
        simp [fit, hordinary]
      rw [hunion, heveryone, ← hcard]
      exact (Finset.card_le_card (hsub chosen)).trans hall
    · push Not at hordinary
      obtain rfl | ⟨job, hjob⟩ := chosen.eq_empty_or_nonempty
      · simp
      have hables' : ables ⊆ chosen.biUnion fit := by
        refine (subset_of_eq ?_).trans (Finset.subset_biUnion_of_mem fit hjob)
        simp [fit, hordinary job hjob]
      refine le_trans ?_ (hables.symm.le.trans (Finset.card_le_card hables'))
      rw [← hcard]
      refine (Finset.card_le_card fun other hother ↦ ?_).trans hspecial
      obtain ⟨job, hjob, rfl⟩ := Finset.mem_map.mp hother
      exact Finset.mem_filter.mpr ⟨job.2, hordinary job hjob⟩

/-- Of the choices of jobs with at most `slots` capped ones, the largest has all jobs that are not capped and as
many capped ones as may be. -/
theorem forall_capped_card_le_iff :
    (∀ jobs ⊆ all, (jobs.filter capped).card ≤ slots → (jobs.filter p).card ≤ n) ↔
      (all.filter fun job ↦ p job ∧ ¬capped job).card +
        min slots (all.filter fun job ↦ p job ∧ capped job).card ≤ n := by
  classical
  constructor
  · intro hle
    obtain ⟨some, hsome, hcard⟩ := Finset.exists_subset_card_eq
      (min_le_right slots (all.filter fun job ↦ p job ∧ capped job).card)
    have hsomeP : ∀ job ∈ some, job ∈ all ∧ p job ∧ capped job := fun job hjob ↦
      Finset.mem_filter.mp (hsome hjob)
    have hdisjoint : Disjoint (all.filter fun job ↦ p job ∧ ¬capped job) some := by
      refine Finset.disjoint_left.mpr fun job hjob hsome ↦ ?_
      exact (Finset.mem_filter.mp hjob).2.2 (hsomeP job hsome).2.2
    have hsubset : (all.filter fun job ↦ p job ∧ ¬capped job) ∪ some ⊆ all :=
      Finset.union_subset (Finset.filter_subset _ _) fun job hjob ↦ (hsomeP job hjob).1
    have hcapped : ((all.filter fun job ↦ p job ∧ ¬capped job) ∪ some).filter capped = some := by
      ext job
      simp only [Finset.mem_filter, Finset.mem_union]
      have := hsomeP job
      tauto
    have hp : ((all.filter fun job ↦ p job ∧ ¬capped job) ∪ some).filter p =
        (all.filter fun job ↦ p job ∧ ¬capped job) ∪ some := by
      refine Finset.filter_true_of_mem fun job hjob ↦ ?_
      rcases Finset.mem_union.mp hjob with hjob | hjob
      · exact (Finset.mem_filter.mp hjob).2.1
      · exact (hsomeP job hjob).2.1
    have hn := hle _ hsubset (by rw [hcapped, hcard]; exact min_le_left _ _)
    rwa [hp, Finset.card_union_of_disjoint hdisjoint, hcard] at hn
  · intro hle jobs hjobs hcapped
    have hsplit : (jobs.filter p).card = (jobs.filter fun job ↦ p job ∧ ¬capped job).card +
        (jobs.filter fun job ↦ p job ∧ capped job).card := by
      rw [← Finset.filter_filter, ← Finset.filter_filter, add_comm, Finset.card_filter_add_card_filter_not]
    have hfree : (jobs.filter fun job ↦ p job ∧ ¬capped job).card ≤
        (all.filter fun job ↦ p job ∧ ¬capped job).card := Finset.card_le_card (Finset.filter_subset_filter _ hjobs)
    have hall : (jobs.filter fun job ↦ p job ∧ capped job).card ≤
        (all.filter fun job ↦ p job ∧ capped job).card := Finset.card_le_card (Finset.filter_subset_filter _ hjobs)
    have hslots : (jobs.filter fun job ↦ p job ∧ capped job).card ≤ slots :=
      (Finset.card_le_card (Finset.monotone_filter_right _ fun _ _ h ↦ h.2)).trans hcapped
    omega

/-- What all choices of jobs with at most `slots` capped ones need. -/
theorem forall_capped_staffed_iff :
    (∀ jobs ⊆ all, (jobs.filter capped).card ≤ slots → Staffed able others special jobs) ↔
      (all.filter fun job ↦ special job ∧ ¬capped job).card +
          min slots (all.filter fun job ↦ special job ∧ capped job).card ≤ able ∧
        (all.filter fun job ↦ ¬capped job).card + min slots (all.filter capped).card ≤ able + others := by
  have hall : (∀ jobs ⊆ all, (jobs.filter capped).card ≤ slots →
      (jobs.filter fun _ ↦ True).card ≤ able + others) ↔ _ := forall_capped_card_le_iff
  simp only [Finset.filter_true, true_and] at hall
  rw [← hall, ← forall_capped_card_le_iff]
  simp only [staffed_iff]
  constructor
  · exact fun h ↦ ⟨fun jobs hjobs hcapped ↦ (h jobs hjobs hcapped).1,
      fun jobs hjobs hcapped ↦ (h jobs hjobs hcapped).2⟩
  · exact fun h jobs hjobs hcapped ↦ ⟨h.1 jobs hjobs hcapped, h.2 jobs hjobs hcapped⟩

end

end Holbuild.Library
