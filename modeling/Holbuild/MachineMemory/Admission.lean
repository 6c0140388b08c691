import Holbuild.Library.Rows
import Holbuild.MachineMemory.Acquire
import Mathlib.Algebra.Order.BigOperators.Group.List
import Mathlib.Data.Fintype.EquivFin
import Mathlib.Data.List.Nodup

/-!
# Admission never oversubscribes the budget

`Inv` is what holds of the shared directory in every reachable state (`inv_reachable`). Whoever is in
the body of an attempt has the lock; a scan has counted every lease still held, or has it still
ahead (`ScanSound`); and a process about to create its lease leaves room for its charge below the
budget it read. Leases are only ever locked by the process that has the lock, so what the other
processes do meanwhile can only release charges (`Evolve` along `Lease.Released`).

`admission_safe` collects what follows: an admission fits the budget it read, the charges never
exceed a budget that stays the same, no held lease is removed or missed by a scan, and an attempt
that finds no held lease is admitted whatever `MemAvailable` says.
-/

set_option autoImplicit false
set_option relaxedAutoImplicit false

namespace Holbuild.MachineMemory

open Library

/-! ### Numbers survive their files -/

theorem isSpace_eq_false_of_isDigit {c : Char} (hc : c.isDigit) : isSpace c = false := by
  simp only [Char.isDigit, Bool.and_eq_true, decide_eq_true_eq, UInt32.le_iff_toNat_le] at hc
  have hlower : 48 ≤ c.toNat := hc.1
  have hspace : c ≠ ' ' := by
    rintro rfl
    exact absurd hlower (by decide)
  simp only [isSpace, hspace, false_or, decide_eq_false_iff_not]
  omega

/-- A written byte count is read back. -/
theorem readNumber_numberText (charge : Bytes) : readNumber (numberText charge.1) = .ok charge := by
  have hlength : (decimal charge.1).length ≤ 63 :=
    (length_decimal_le_iff (by decide)).mpr (charge.2.trans_lt (by decide))
  have htake : (numberText charge.1).take 64 = numberText charge.1 := by
    apply List.take_of_length_le
    simp only [numberText, List.length_append, List.length_singleton]
    omega
  have htokens : tokens isSpace (numberText charge.1) = [decimal charge.1] :=
    tokens_append_singleton (decimal_ne_nil _)
      (fun c hc ↦ isSpace_eq_false_of_isDigit (isDigit_of_mem_decimal hc)) (by decide)
  rw [readNumber, htake, htokens]
  simp only [readDecimal_decimal, checked, dif_pos charge.2]

/-! ### Charges of held leases -/

/-- The sum of the charges of the leases some process holds. -/
def heldCharges (leases : List Lease) : ℕ := (leases.map fun l ↦ if l.Held then l.charge else 0).sum

/-- What processes that end or inherit do to a lease: it keeps its name and its number, and nobody
takes its lock. -/
structure Lease.Released (l l' : Lease) : Prop where
  name : l'.name = l.name
  text : l'.text = l.text
  held : l'.Held → l.Held

/-- The charges held are those of the leases that are held. -/
theorem heldCharges_eq_sum_filter (leases : List Lease) :
    heldCharges leases = ((leases.filter fun l ↦ l.Held).map Lease.charge).sum := by
  induction leases with
  | nil => rfl
  | cons l rest ih =>
    rw [heldCharges] at ih ⊢
    rw [List.map_cons, List.sum_cons, ih]
    by_cases hheld : l.Held
    · simp [hheld]
    · simp [hheld]

theorem Lease.Released.refl (l : Lease) : l.Released l := ⟨rfl, rfl, id⟩

theorem Lease.Released.charge {l l' : Lease} (h : l.Released l') : l'.charge = l.charge := by
  rw [Lease.charge, Lease.charge, h.text]

/-- Assumes: a lease that is held afterwards was held before, with the same charge. The charges held
do not rise. -/
theorem heldCharges_le_of_evolve {leases leases' : List Lease}
    (h : Evolve (fun l l' ↦ l'.Held → l.Held ∧ l'.charge = l.charge) leases leases') :
    heldCharges leases' ≤ heldCharges leases := by
  induction h with
  | nil => exact le_rfl
  | @cons l l' rest rest' hl _ ih =>
    simp only [heldCharges, List.map_cons, List.sum_cons] at ih ⊢
    apply Nat.add_le_add _ ih
    by_cases hheld : l'.Held
    · rw [if_pos hheld, if_pos (hl hheld).1, (hl hheld).2]
    · rw [if_neg hheld]
      exact Nat.zero_le _

/-- Releasing leases does not raise the charges held. -/
theorem heldCharges_le_of_released {leases leases' : List Lease}
    (h : Evolve Lease.Released leases leases') : heldCharges leases' ≤ heldCharges leases :=
  heldCharges_le_of_evolve (h.imp fun _ _ hl hheld ↦ ⟨hl.held hheld, hl.charge⟩)

/-- Removing files does not raise the charges held. -/
theorem heldCharges_filter_le (keep : Lease → Bool) (leases : List Lease) :
    heldCharges (leases.filter keep) ≤ heldCharges leases :=
  (List.filter_sublist.map _).sum_le_sum fun _ _ ↦ Nat.zero_le _

/-- Locking the one file of a name adds its charge. -/
theorem heldCharges_lock {leases : List Lease} (hnodup : (leases.map Lease.name).Nodup) {l : Lease}
    (hl : l ∈ leases) (hheld : ¬ l.Held) :
    heldCharges (leases.map fun l' ↦ if l'.name = l.name then { l' with holders := 1 } else l') =
      heldCharges leases + l.charge := by
  induction leases with
  | nil => exact absurd hl List.not_mem_nil
  | cons head rest ih =>
    rw [List.map_cons, List.nodup_cons] at hnodup
    rw [List.map_cons, heldCharges, heldCharges, List.map_cons, List.map_cons, List.sum_cons,
      List.sum_cons]
    rcases List.mem_cons.mp hl with rfl | hrest
    · have hsame : (rest.map fun l' ↦ if l'.name = l.name then { l' with holders := 1 } else l') =
          rest := by
        conv_rhs => rw [← List.map_id rest]
        apply List.map_congr_left
        intro l' hl'
        have hne : l'.name ≠ l.name := fun heq ↦ hnodup.1 (heq ▸ List.mem_map_of_mem hl')
        exact if_neg hne
      rw [hsame, if_pos rfl, if_neg hheld, if_pos (show Lease.Held { l with holders := 1 } from one_pos)]
      show l.charge + _ = _
      omega
    · have hne : head.name ≠ l.name := fun heq ↦ hnodup.1 (heq ▸ List.mem_map_of_mem hrest)
      have hrest' := ih hnodup.2 hrest
      rw [heldCharges, heldCharges] at hrest'
      rw [if_neg hne, hrest']
      omega

/-! ### Scans -/

/-- A scan has added up what it counted, and every lease still held is counted or still ahead. -/
structure ScanSound (leases : List Lease) (ahead : List Text) (scan : Scan) : Prop where
  sum : scan.sums.reserved = (scan.counted.map Prod.snd).sum
  held : ∀ l ∈ leases, l.Held → l.name ∈ ahead ∨ (l.name, l.charge) ∈ scan.counted

/-- A finished scan has counted at least the charges still held. -/
theorem ScanSound.heldCharges_le {leases : List Lease} {scan : Scan} (h : ScanSound leases [] scan)
    (hnodup : (leases.map Lease.name).Nodup) : heldCharges leases ≤ scan.sums.reserved := by
  let entry : Lease → Text × ℕ := fun l ↦ (l.name, l.charge)
  let held := leases.filter fun l ↦ l.Held
  have hsum : heldCharges leases = ((held.map entry).map Prod.snd).sum := by
    rw [List.map_map]
    exact heldCharges_eq_sum_filter leases
  have hentries : (held.map entry).Nodup := by
    apply List.Nodup.of_map Prod.fst
    rw [List.map_map]
    exact (List.filter_sublist.map Lease.name).nodup hnodup
  have hsub : held.map entry ⊆ scan.counted := by
    intro pair hpair
    obtain ⟨l, hl, rfl⟩ := List.mem_map.mp hpair
    obtain ⟨hmem, hheld⟩ := List.mem_filter.mp hl
    exact (h.held l hmem (of_decide_eq_true hheld)).resolve_left List.not_mem_nil
  obtain ⟨sub, hperm, hsublist⟩ := List.subperm_of_subset hentries hsub
  calc heldCharges leases = ((held.map entry).map Prod.snd).sum := hsum
    _ = (sub.map Prod.snd).sum := (hperm.map Prod.snd).symm.sum_eq
    _ ≤ (scan.counted.map Prod.snd).sum :=
      (hsublist.map Prod.snd).sum_le_sum fun _ _ ↦ Nat.zero_le _
    _ = scan.sums.reserved := h.sum.symm

/-- Releasing leases keeps a scan sound. -/
theorem ScanSound.released {leases leases' : List Lease} {ahead : List Text} {scan : Scan}
    (h : ScanSound leases ahead scan) (hreleased : Evolve Lease.Released leases leases') :
    ScanSound leases' ahead scan where
  sum := h.sum
  held := by
    intro l' hl' hheld
    obtain ⟨l, hl, hll'⟩ := hreleased.exists_before hl'
    rw [hll'.name, hll'.charge]
    exact h.held l hl (hll'.held hheld)

/-! ### The invariant -/

/-- What the phase of a process says about the lease files. -/
def Phase.Sound (leases : List Lease) : Phase → Prop
  | .listing budget charge => charge ≤ budget
  | .scanning budget charge scan => charge ≤ budget ∧ ScanSound leases scan.names scan
  | .opened budget charge name scan | .refused budget charge name scan =>
    charge ≤ budget ∧ ScanSound leases (name :: scan.names) scan
  | .stale budget charge name scan =>
    charge ≤ budget ∧ ScanSound leases (name :: scan.names) scan ∧
      ∀ l ∈ leases, l.name = name → ¬ l.Held
  | .creating budget charge => heldCharges leases + charge.1 ≤ budget.1
  | .created budget charge name =>
    heldCharges leases + charge.1 ≤ budget.1 ∧ ∃ l ∈ leases, l.name = name ∧ ¬ l.Held
  | .written budget charge name =>
    heldCharges leases + charge.1 ≤ budget.1 ∧
      ∃ l ∈ leases, l.name = name ∧ l.text = numberText charge.1 ∧ ¬ l.Held
  | _ => True

/-- What holds of the shared directory in every reachable state. -/
structure Inv (s : State) : Prop where
  names : (s.leases.map Lease.name).Nodup
  text : ∀ l ∈ s.leases, l.Held → ∃ charge : Bytes, l.text = numberText charge.1
  lock : ∀ p, (s.phase p).underLock → s.lock = some p
  sound : ∀ p, (s.phase p).Sound s.leases

variable {s s' : State} {p : Pid} {phase : Phase}

/-- Outside the body of an attempt a phase says nothing about the lease files. -/
theorem Phase.sound_of_not_underLock (h : phase.underLock = false) (leases : List Lease) :
    phase.Sound leases := by
  cases phase
  all_goals first | exact trivial | cases h

/-- Releasing leases keeps what a phase says about them. -/
theorem Phase.Sound.released {leases leases' : List Lease} (h : phase.Sound leases)
    (hreleased : Evolve Lease.Released leases leases') : phase.Sound leases' := by
  have hcharges := heldCharges_le_of_released hreleased
  cases phase with
  | listing budget charge => exact h
  | scanning budget charge scan => exact ⟨h.1, h.2.released hreleased⟩
  | opened budget charge name scan => exact ⟨h.1, h.2.released hreleased⟩
  | refused budget charge name scan => exact ⟨h.1, h.2.released hreleased⟩
  | stale budget charge name scan =>
    refine ⟨h.1, h.2.1.released hreleased, fun l' hl' hname hheld ↦ ?_⟩
    obtain ⟨l, hl, hll'⟩ := hreleased.exists_before hl'
    exact h.2.2 l hl (hll'.name.symm.trans hname) (hll'.held hheld)
  | creating budget charge => exact (Nat.add_le_add_right hcharges _).trans h
  | created budget charge name =>
    obtain ⟨hroom, l, hl, hname, hheld⟩ := h
    obtain ⟨l', hl', hll'⟩ := hreleased.exists_after hl
    exact ⟨(Nat.add_le_add_right hcharges _).trans hroom, l', hl', hll'.name.trans hname,
      fun hheld' ↦ hheld (hll'.held hheld')⟩
  | written budget charge name =>
    obtain ⟨hroom, l, hl, hname, htext, hheld⟩ := h
    obtain ⟨l', hl', hll'⟩ := hreleased.exists_after hl
    exact ⟨(Nat.add_le_add_right hcharges _).trans hroom, l', hl', hll'.name.trans hname,
      hll'.text.trans htext, fun hheld' ↦ hheld (hll'.held hheld')⟩
  | _ => trivial

/-- The invariant reads the lock, the phases and the lease files only. -/
theorem Inv.congr (h : Inv s) (hlock : s'.lock = s.lock) (hphase : s'.phase = s.phase)
    (hleases : s'.leases = s.leases) : Inv s' where
  names := hleases ▸ h.names
  text := hleases ▸ h.text
  lock := by
    rw [hlock, hphase]
    exact h.lock
  sound := by
    rw [hleases, hphase]
    exact h.sound

/-- A process that moves on with the files as they are. -/
theorem Inv.goto (h : Inv s) (hlock : phase.underLock → s.lock = some p)
    (hsound : phase.Sound s.leases) : Inv (s.goto p phase) where
  names := h.names
  text := h.text
  lock := by
    intro q hq
    by_cases hqp : q = p
    · subst hqp
      exact hlock (by simpa [State.goto] using hq)
    · exact h.lock q (by simpa [State.goto, hqp] using hq)
  sound := by
    intro q
    by_cases hqp : q = p
    · subst hqp
      simpa [State.goto] using hsound
    · simpa [State.goto, hqp] using h.sound q

/-- A process that takes the free lock. -/
theorem Inv.take (h : Inv s) (hfree : s.lock = none) (hsound : phase.Sound s.leases) :
    Inv { s.goto p phase with lock := some p } where
  names := h.names
  text := h.text
  lock := by
    intro q hq
    by_cases hqp : q = p
    · rw [hqp]
    · have hheld := h.lock q (by simpa [State.goto, hqp] using hq)
      exact absurd (hheld.symm.trans hfree) (by simp)
  sound := by
    intro q
    by_cases hqp : q = p
    · subst hqp
      simpa [State.goto] using hsound
    · simpa [State.goto, hqp] using h.sound q

/-- Nobody else is in the body of an attempt. -/
theorem Inv.others (h : Inv s) (hp : (s.phase p).underLock) {q : Pid} (hqp : q ≠ p) :
    (s.phase q).underLock = false := by
  by_contra hq
  have hlock := (h.lock q (by simpa using hq)).symm.trans (h.lock p hp)
  exact hqp (Option.some.inj hlock)

/-- The process that has the lock changes the lease files and moves on. -/
theorem Inv.holder (h : Inv s) (hp : (s.phase p).underLock) {leases : List Lease}
    (hnames : (leases.map Lease.name).Nodup)
    (htext : ∀ l ∈ leases, l.Held → ∃ charge : Bytes, l.text = numberText charge.1)
    (hsound : phase.Sound leases) : Inv ({ s with leases := leases }.goto p phase) where
  names := hnames
  text := htext
  lock := by
    intro q hq
    by_cases hqp : q = p
    · subst hqp
      exact h.lock q hp
    · exact h.lock q (by simpa [State.goto, hqp] using hq)
  sound := by
    intro q
    by_cases hqp : q = p
    · subst hqp
      simpa [State.goto] using hsound
    · simpa [State.goto, hqp] using Phase.sound_of_not_underLock (h.others hp hqp) leases

/-- The process that has the lock changes the lease files and gives the lock back. -/
theorem Inv.finish (h : Inv s) (hp : (s.phase p).underLock) (hphase : phase.underLock = false)
    {leases : List Lease} (hnames : (leases.map Lease.name).Nodup)
    (htext : ∀ l ∈ leases, l.Held → ∃ charge : Bytes, l.text = numberText charge.1) :
    Inv ({ s with leases := leases }.finish p phase) where
  names := hnames
  text := htext
  lock := by
    intro q hq
    by_cases hqp : q = p
    · subst hqp
      exact absurd hq (by simp [State.finish, hphase])
    · exact absurd hq (by simp [State.finish, hqp, h.others hp hqp])
  sound := by
    intro q
    apply Phase.sound_of_not_underLock
    by_cases hqp : q = p
    · subst hqp
      simpa [State.finish] using hphase
    · simpa [State.finish, hqp] using h.others hp hqp

/-- The process that has the lock gives it back. -/
theorem Inv.finish_same (h : Inv s) (hp : (s.phase p).underLock) (hphase : phase.underLock = false) :
    Inv (s.finish p phase) :=
  h.finish hp hphase h.names h.text

/-- Removing lease files keeps names distinct and held leases readable. -/
theorem Inv.finish_removeFile (h : Inv s) (hp : (s.phase p).underLock)
    (hphase : phase.underLock = false) (name : Text) :
    Inv ((s.removeFile name).finish p phase) :=
  h.finish hp hphase ((List.filter_sublist.map _).nodup h.names)
    fun l hl ↦ h.text l (List.mem_of_mem_filter hl)

/-! ### Every step keeps the invariant -/

theorem mem_of_lease? {name : Text} {l : Lease} (h : s.lease? name = some l) :
    l ∈ s.leases ∧ l.name = name := by
  unfold State.lease? at h
  exact ⟨List.mem_of_find?_eq_some h, by simpa using List.find?_some h⟩

theorem ne_of_lease?_eq_none {name : Text} (h : s.lease? name = none) {l : Lease}
    (hl : l ∈ s.leases) : l.name ≠ name := by
  simpa using List.find?_eq_none.mp h l hl

theorem Reserved.add_reserved {r r' : Reserved} {charge : ℕ} {starting : Bool}
    (h : r.add charge starting = .ok r') : r'.reserved = r.reserved + charge := by
  unfold Reserved.add checked at h
  split_ifs at h
  all_goals first | cases h; rfl | cases h

/-- An attempt is admitted only where its charge fits. -/
theorem le_of_decision {budget charge : Bytes} {r : Reserved} {info : Meminfo}
    (h : decision budget charge r info = .ok none) : r.reserved + charge.1 ≤ budget.1 := by
  unfold decision checked at h
  by_cases hsum : r.reserved + charge.1 ≤ maxInt
  · rw [dif_pos hsum] at h
    by_contra hbudget
    have hlt : budget.1 < r.reserved + charge.1 := not_le.mp hbudget
    change (if budget.1 < r.reserved + charge.1 then _ else _) = _ at h
    rw [if_pos hlt] at h
    cases h
  · rw [dif_neg hsum] at h
    cases h

theorem inv_begin (h : Inv s) (settings : Settings) : Inv (begin s p settings) := by
  unfold begin
  split
  · exact h.goto nofun trivial
  · exact h.goto nofun trivial

theorem inv_readBudget (h : Inv s) {info : Meminfo} (hstep : step s (.readBudget p info) = some s') :
    Inv s' := by
  rw [step] at hstep
  split at hstep
  case h_2 => cases hstep
  case h_1 settings charge hphase =>
    have hp : (s.phase p).underLock := by rw [hphase]; rfl
    split at hstep
    case h_2 failure _ =>
      cases hstep
      exact h.finish_same hp rfl
    case h_1 budget file _ =>
      by_cases hbudget : budget < charge
      · rw [if_pos hbudget] at hstep
        cases hstep
        have hfinish : Inv (s.finish p (.failed (.exceedsBudget charge budget))) :=
          h.finish_same hp rfl
        exact hfinish.congr rfl rfl rfl
      · rw [if_neg hbudget] at hstep
        cases hstep
        have hgoto : Inv (s.goto p (.listing budget charge)) :=
          h.goto (fun _ ↦ h.lock p hp) (not_lt.mp hbudget)
        exact hgoto.congr rfl rfl rfl

theorem inv_list (h : Inv s) {names : List Text} (hstep : step s (.list p names) = some s') :
    Inv s' := by
  simp only [step] at hstep
  split at hstep
  case h_2 => cases hstep
  case h_1 budget charge hphase =>
    by_cases hperm : names.Perm (s.leases.map Lease.name)
    · rw [if_pos hperm] at hstep
      cases hstep
      have hp : (s.phase p).underLock := by rw [hphase]; rfl
      have hcharge : charge ≤ budget := by simpa [hphase, Phase.Sound] using h.sound p
      apply h.goto fun _ ↦ h.lock p hp
      exact ⟨hcharge, rfl, fun l hl _ ↦ .inl (hperm.mem_iff.mpr (List.mem_map_of_mem hl))⟩
    · rw [if_neg hperm] at hstep
      cases hstep

theorem inv_openLease (h : Inv s) (hstep : step s (.openLease p) = some s') : Inv s' := by
  simp only [step] at hstep
  split at hstep
  case h_2 => cases hstep
  case h_1 budget charge name rest sums counted hphase =>
    have hp : (s.phase p).underLock := by rw [hphase]; rfl
    have hsound : (s.phase p).Sound s.leases := h.sound p
    rw [hphase] at hsound
    split at hstep
    case h_1 =>
      cases hstep
      exact h.goto (fun _ ↦ h.lock p hp) ⟨hsound.1, hsound.2.sum, hsound.2.held⟩
    case h_2 hnone =>
      cases hstep
      refine h.goto (fun _ ↦ h.lock p hp) ⟨hsound.1, hsound.2.sum, fun l hl hheld ↦ ?_⟩
      rcases hsound.2.held l hl hheld with hname | hcounted
      · exact .inl ((List.mem_cons.mp hname).resolve_left (ne_of_lease?_eq_none hnone hl))
      · exact .inr hcounted

theorem inv_tryLease (h : Inv s) (hstep : step s (.tryLease p) = some s') : Inv s' := by
  simp only [step] at hstep
  split at hstep
  case h_2 => cases hstep
  case h_1 budget charge name scan hphase =>
    have hp : (s.phase p).underLock := by rw [hphase]; rfl
    have hsound : (s.phase p).Sound s.leases := h.sound p
    rw [hphase] at hsound
    split at hstep
    case h_1 l hl =>
      by_cases hheld : l.Held
      · rw [if_pos hheld] at hstep
        cases hstep
        exact h.goto (fun _ ↦ h.lock p hp) hsound
      · rw [if_neg hheld] at hstep
        cases hstep
        refine h.goto (fun _ ↦ h.lock p hp) ⟨hsound.1, hsound.2, fun l' hl' hname ↦ ?_⟩
        obtain ⟨hmem, hlname⟩ := mem_of_lease? hl
        have heq : l' = l := eq_of_key_eq h.names hl' hmem (hname.trans hlname.symm)
        exact heq ▸ hheld
    case h_2 hnone =>
      cases hstep
      refine h.goto (fun _ ↦ h.lock p hp) ⟨hsound.1, hsound.2, fun l' hl' hname ↦ ?_⟩
      exact absurd hname (ne_of_lease?_eq_none hnone hl')

theorem inv_removeLease (h : Inv s) {permitted : Bool}
    (hstep : step s (.removeLease p permitted) = some s') : Inv s' := by
  simp only [step] at hstep
  split at hstep
  case h_2 => cases hstep
  case h_1 budget charge name scan hphase =>
    have hp : (s.phase p).underLock := by rw [hphase]; rfl
    have hsound : (s.phase p).Sound s.leases := h.sound p
    rw [hphase] at hsound
    have hscan : ScanSound s.leases scan.names scan := by
      refine ⟨hsound.2.1.sum, fun l hl hheld ↦ ?_⟩
      rcases hsound.2.1.held l hl hheld with hname | hcounted
      · refine .inl ((List.mem_cons.mp hname).resolve_left fun heq ↦ ?_)
        exact hsound.2.2 l hl heq hheld
      · exact .inr hcounted
    cases hstep
    cases permitted with
    | false => exact h.goto (fun _ ↦ h.lock p hp) ⟨hsound.1, hscan⟩
    | true =>
      exact h.holder hp ((List.filter_sublist.map _).nodup h.names)
        (fun l hl ↦ h.text l (List.mem_of_mem_filter hl))
        ⟨hsound.1, hscan.sum, fun l hl ↦ hscan.held l (List.mem_of_mem_filter hl)⟩

theorem inv_readLease (h : Inv s) (hstep : step s (.readLease p) = some s') : Inv s' := by
  simp only [step] at hstep
  split at hstep
  case h_2 => cases hstep
  case h_1 budget charge name scan hphase =>
    have hp : (s.phase p).underLock := by rw [hphase]; rfl
    have hsound : (s.phase p).Sound s.leases := h.sound p
    rw [hphase] at hsound
    split at hstep
    case h_2 => cases hstep
    case h_1 l hl =>
      split at hstep
      case h_2 =>
        cases hstep
        exact h.finish_same hp rfl
      case h_1 value hvalue =>
        split at hstep
        case h_2 =>
          cases hstep
          exact h.finish_same hp rfl
        case h_1 sums hsums =>
          cases hstep
          obtain ⟨hmem, hlname⟩ := mem_of_lease? hl
          have hcharge : l.charge = value.1 := by
            rw [Lease.charge, hvalue]
            rfl
          refine h.goto (fun _ ↦ h.lock p hp) ⟨hsound.1, ?_, fun l' hl' hheld ↦ ?_⟩
          · show sums.reserved = value.1 + (scan.counted.map Prod.snd).sum
            rw [Reserved.add_reserved hsums, hsound.2.sum, Nat.add_comm]
          · rcases hsound.2.held l' hl' hheld with hname | hcounted
            · rcases List.mem_cons.mp hname with heq | hrest
              · have hl'l : l' = l := eq_of_key_eq h.names hl' hmem (heq.trans hlname.symm)
                rw [hl'l, hlname, hcharge]
                exact .inr List.mem_cons_self
              · exact .inl hrest
            · exact .inr (List.mem_cons_of_mem _ hcounted)

theorem inv_decide (h : Inv s) {info : Meminfo} (hstep : step s (.decide p info) = some s') :
    Inv s' := by
  simp only [step] at hstep
  split at hstep
  case h_2 => cases hstep
  case h_1 budget charge sums counted hphase =>
    have hp : (s.phase p).underLock := by rw [hphase]; rfl
    have hsound : (s.phase p).Sound s.leases := h.sound p
    rw [hphase] at hsound
    split at hstep
    case h_1 hdecision =>
      cases hstep
      apply h.goto fun _ ↦ h.lock p hp
      exact (Nat.add_le_add_right (hsound.2.heldCharges_le h.names) _).trans
        (le_of_decision hdecision)
    case h_2 =>
      cases hstep
      exact h.finish_same hp rfl
    case h_3 =>
      cases hstep
      exact h.finish_same hp rfl

theorem inv_createLease (h : Inv s) {name : Text} (hstep : step s (.createLease p name) = some s') :
    Inv s' := by
  simp only [step] at hstep
  split at hstep
  case h_2 => cases hstep
  case h_1 budget charge hphase =>
    have hp : (s.phase p).underLock := by rw [hphase]; rfl
    have hsound : (s.phase p).Sound s.leases := h.sound p
    rw [hphase] at hsound
    by_cases hname : name ∈ s.leases.map Lease.name
    · rw [if_pos hname] at hstep
      cases hstep
    · rw [if_neg hname] at hstep
      cases hstep
      have hnew : ¬ Lease.Held ⟨name, [], s.now, 0⟩ := Nat.lt_irrefl 0
      refine h.holder hp (List.nodup_cons.mpr ⟨hname, h.names⟩) ?_ ⟨?_, ?_⟩
      · intro l hl hheld
        rcases List.mem_cons.mp hl with rfl | hrest
        · exact absurd hheld hnew
        · exact h.text l hrest hheld
      · have hcharges : heldCharges (⟨name, [], s.now, 0⟩ :: s.leases) = heldCharges s.leases := by
          rw [heldCharges, List.map_cons, List.sum_cons, if_neg hnew, Nat.zero_add, heldCharges]
        rw [hcharges]
        exact hsound
      · exact ⟨_, List.mem_cons_self, rfl, hnew⟩

theorem inv_writeLease (h : Inv s) (hstep : step s (.writeLease p) = some s') : Inv s' := by
  simp only [step] at hstep
  split at hstep
  case h_2 => cases hstep
  case h_1 budget charge name hphase =>
    have hp : (s.phase p).underLock := by rw [hphase]; rfl
    have hsound : (s.phase p).Sound s.leases := h.sound p
    rw [hphase] at hsound
    obtain ⟨hroom, l, hl, hname, hheld⟩ := hsound
    cases hstep
    let write : Lease → Lease := fun l ↦
      if l.name = name then { l with text := numberText charge.1 } else l
    have hwrite : ∀ l' ∈ s.leases, (write l').Held → l'.Held ∧ (write l') = l' := by
      intro l' hl' hheld'
      by_cases hname' : l'.name = name
      · have heq : l' = l := eq_of_key_eq h.names hl' hl (hname'.trans hname.symm)
        simp only [write, if_pos hname'] at hheld'
        exact absurd (show l.Held from heq ▸ hheld') hheld
      · simp only [write, if_neg hname'] at hheld' ⊢
        exact ⟨hheld', trivial⟩
    have hnames : (s.leases.map write).map Lease.name = s.leases.map Lease.name := by
      rw [List.map_map]
      apply List.map_congr_left
      intro l' _
      by_cases hname' : l'.name = name <;> simp [write, hname']
    have hcharges : heldCharges (s.leases.map write) ≤ heldCharges s.leases := by
      apply heldCharges_le_of_evolve
      apply evolve_map
      intro l' hl' hheld'
      obtain ⟨hbefore, heq⟩ := hwrite l' hl' hheld'
      exact ⟨hbefore, by rw [heq]⟩
    refine h.holder hp (hnames ▸ h.names) ?_ ⟨(Nat.add_le_add_right hcharges _).trans hroom, ?_⟩
    · intro l' hl' hheld'
      obtain ⟨before, hbefore, rfl⟩ := List.mem_map.mp hl'
      obtain ⟨hheld₀, heq⟩ := hwrite before hbefore hheld'
      rw [show (if before.name = name then _ else before) = before from heq]
      exact h.text before hbefore hheld₀
    · refine ⟨write l, List.mem_map_of_mem hl, ?_, ?_, ?_⟩
      · simp [write, hname]
      · simp [write, hname]
      · intro hheld'
        exact hheld (hwrite l hl hheld').1

/-- What the lock of a new lease does: its charge joins the charges held. -/
theorem lockLease_effect (h : Inv s) (hstep : step s (.lockLease p) = some s') :
    ∃ budget charge name, s.phase p = .written budget charge name ∧
      s'.phase = Function.update s.phase p (.admitted name) ∧
      heldCharges s'.leases = heldCharges s.leases + charge.1 ∧
      heldCharges s.leases + charge.1 ≤ budget.1 ∧ Inv s' := by
  simp only [step] at hstep
  split at hstep
  case h_2 => cases hstep
  case h_1 budget charge name hphase =>
    have hp : (s.phase p).underLock := by rw [hphase]; rfl
    have hsound : (s.phase p).Sound s.leases := h.sound p
    rw [hphase] at hsound
    obtain ⟨hroom, l, hl, hname, htext, hheld⟩ := hsound
    split at hstep
    case h_2 => cases hstep
    case h_1 l' hl' =>
      obtain ⟨hmem, hlname⟩ := mem_of_lease? hl'
      have heq : l' = l := eq_of_key_eq h.names hmem hl (hlname.trans hname.symm)
      rw [if_neg (heq ▸ hheld)] at hstep
      cases hstep
      have hcharge : l.charge = charge.1 := by
        rw [Lease.charge, htext, readNumber_numberText]
        rfl
      let lock : Lease → Lease := fun l ↦ if l.name = name then { l with holders := 1 } else l
      have hnames : (s.leases.map lock).map Lease.name = s.leases.map Lease.name := by
        rw [List.map_map]
        apply List.map_congr_left
        intro l' _
        by_cases hname' : l'.name = name <;> simp [lock, hname']
      refine ⟨budget, charge, name, hphase, rfl, ?_, hroom, ?_⟩
      · rw [← hcharge, ← heldCharges_lock h.names hl hheld, hname]
        rfl
      · apply h.finish hp rfl (hnames ▸ h.names)
        intro l' hl' hheld'
        obtain ⟨before, hbefore, rfl⟩ := List.mem_map.mp hl'
        by_cases hname' : before.name = name
        · have hbl : before = l := eq_of_key_eq h.names hbefore hl (hname'.trans hname.symm)
          rw [if_pos hname']
          exact ⟨charge, by rw [hbl, htext]⟩
        · rw [if_neg hname'] at hheld' ⊢
          exact h.text before hbefore hheld'

theorem inv_raise (h : Inv s) (hstep : step s (.raise p) = some s') : Inv s' := by
  simp only [step] at hstep
  split at hstep
  case h_1 =>
    cases hstep
    exact h.goto nofun trivial
  case h_2 hphase =>
    cases hstep
    exact h.finish_removeFile (by rw [hphase]; rfl) rfl _
  case h_3 hphase =>
    cases hstep
    exact h.finish_removeFile (by rw [hphase]; rfl) rfl _
  case h_4 =>
    by_cases hp : (s.phase p).underLock
    · rw [if_pos hp] at hstep
      cases hstep
      exact h.finish_same hp rfl
    · rw [if_neg hp] at hstep
      cases hstep

/-- Processes that inherit, close or end. -/
theorem inv_setLease (h : Inv s) {name : Text} {change : Lease → Lease}
    (hchange : ∀ l : Lease, l.Released (change l)) : Inv (s.setLease name change) := by
  have hreleased : Evolve Lease.Released s.leases (s.setLease name change).leases := by
    apply evolve_map
    intro l _
    by_cases hname : l.name = name
    · rw [if_pos hname]
      exact hchange l
    · rw [if_neg hname]
      exact .refl l
  refine ⟨?_, ?_, h.lock, fun q ↦ (h.sound q).released hreleased⟩
  · rw [hreleased.map_eq fun _ _ hl ↦ hl.name]
    exact h.names
  · intro l' hl' hheld
    obtain ⟨l, hl, hll'⟩ := hreleased.exists_before hl'
    rw [hll'.text]
    exact h.text l hl (hll'.held hheld)

theorem released_inherit (l : Lease) :
    l.Released (if l.Held then { l with holders := l.holders + 1 } else l) := by
  by_cases hheld : l.Held
  · rw [if_pos hheld]
    exact ⟨rfl, rfl, fun _ ↦ hheld⟩
  · rw [if_neg hheld]
    exact .refl l

theorem released_close (l : Lease) : l.Released { l with holders := l.holders - 1 } :=
  ⟨rfl, rfl, fun hheld ↦ Nat.lt_of_lt_of_le hheld (Nat.sub_le _ _)⟩

theorem inv_step {e : Event} (h : Inv s) (hstep : step s e = some s') : Inv s' := by
  cases e with
  | configure p settings =>
    cases hstep
    exact h.congr rfl rfl rfl
  | acquire p =>
    simp only [step] at hstep
    split at hstep
    case h_1 settings _ =>
      split at hstep
      · cases hstep
        have hattempt : Inv { s with attempt := Function.update s.attempt p (some settings) } :=
          h.congr rfl rfl rfl
        exact inv_begin hattempt settings
      · cases hstep
    · cases hstep
  | retry p =>
    simp only [step] at hstep
    split at hstep
    · cases hstep
      exact inv_begin h _
    · cases hstep
  | tryLock p =>
    simp only [step] at hstep
    split at hstep
    · split at hstep
      case h_1.isTrue hfree =>
        cases hstep
        exact h.take hfree trivial
      · cases hstep
        exact h
    · cases hstep
  | giveUp p failure =>
    simp only [step] at hstep
    split at hstep
    · cases hstep
      exact h.goto nofun trivial
    · cases hstep
  | readBudget p info => exact inv_readBudget h hstep
  | list p names => exact inv_list h hstep
  | openLease p => exact inv_openLease h hstep
  | tryLease p => exact inv_tryLease h hstep
  | removeLease p permitted => exact inv_removeLease h hstep
  | readLease p => exact inv_readLease h hstep
  | decide p info => exact inv_decide h hstep
  | createLease p name => exact inv_createLease h hstep
  | writeLease p => exact inv_writeLease h hstep
  | lockLease p =>
    obtain ⟨_, _, _, _, _, _, _, hinv⟩ := lockLease_effect h hstep
    exact hinv
  | raise p => exact inv_raise h hstep
  | kill p =>
    cases hstep
    by_cases hp : (s.phase p).underLock
    · rw [if_pos hp]
      exact h.finish_same hp rfl
    · rw [if_neg hp]
      exact h.goto nofun trivial
  | inherit name =>
    cases hstep
    exact inv_setLease h released_inherit
  | close name =>
    cases hstep
    exact inv_setLease h released_close
  | resize p =>
    simp only [step] at hstep
    split at hstep
    case isTrue hfree =>
      cases hstep
      exact h.take hfree.2 trivial
    · cases hstep
  | replaceBudget p text =>
    simp only [step] at hstep
    split at hstep
    · cases hstep
      exact h.congr rfl rfl rfl
    · cases hstep
  | unlock p =>
    simp only [step] at hstep
    split at hstep
    case h_1 hphase =>
      cases hstep
      exact h.finish_same (by rw [hphase]; rfl) rfl
    · cases hstep
  | tick =>
    cases hstep
    exact h.congr rfl rfl rfl

theorem inv_reachable (h : processes.Reachable s) : Inv s := by
  refine h.invariant (P := Inv) ⟨?_, ?_, ?_, ?_⟩ fun _ _ _ _ hs hstep ↦ inv_step hs hstep
  · exact List.nodup_nil
  · exact fun l hl ↦ absurd hl List.not_mem_nil
  · exact fun p hp ↦ absurd hp (by simp [processes, Phase.underLock])
  · exact fun p ↦ trivial

/-! ### What a step can do to phases and lease files -/

/-- The budget an attempt has read. -/
def Phase.budget? : Phase → Option Bytes
  | .listing budget _ | .scanning budget _ _ | .opened budget _ _ _ | .stale budget _ _ _
  | .refused budget _ _ _ | .creating budget _ | .created budget _ _ | .written budget _ _ =>
    some budget
  | _ => none

/-- The budget a step reads. -/
def readBudget? (s : State) : Event → Option Bytes
  | .readBudget p info =>
    match s.phase p with
    | .locked settings _ =>
      (currentBudget s.budgetFile info.total settings.budgetMb).toOption.map Prod.fst
    | _ => none
  | _ => none

/-- A process moves to a phase: it is admitted only by locking its lease, and it has the budget it
had unless it reads one now. -/
structure Moves (s : State) (e : Event) (p : Pid) (phase : Phase) (s' : State) : Prop where
  update : s'.phase = Function.update s.phase p phase
  admitted : ∀ name, phase = .admitted name → e = .lockLease p
  budget : ∀ budget, phase.budget? = some budget →
    (s.phase p).budget? = some budget ∨ readBudget? s e = some budget

/-- A move to a phase outside every attempt's body. -/
theorem Moves.of_budget_none {e : Event} (hphase : s'.phase = Function.update s.phase p phase)
    (hbudget : phase.budget? = none) (hadmitted : ∀ name, phase = .admitted name → e = .lockLease p) :
    Moves s e p phase s' :=
  ⟨hphase, hadmitted, fun _ h ↦ absurd (hbudget.symm.trans h) (by simp)⟩

/-- A move within the body of an attempt. -/
theorem Moves.of_budget_eq {e : Event} (hphase : s'.phase = Function.update s.phase p phase)
    (hbudget : phase.budget? = (s.phase p).budget?) (hadmitted : ∀ name, phase ≠ .admitted name) :
    Moves s e p phase s' :=
  ⟨hphase, fun name h ↦ absurd h (hadmitted name), fun _ h ↦ .inl (hbudget.symm.trans h)⟩

theorem moves_begin {e : Event} (s₀ : State) (hs₀ : s₀.phase = s.phase) (settings : Settings) :
    ∃ phase, Moves s e p phase (begin s₀ p settings) := by
  unfold begin
  split
  case h_1 charge _ =>
    exact ⟨.waiting settings charge, .of_budget_none (by simp [State.goto, hs₀]) rfl nofun⟩
  case h_2 failure _ =>
    exact ⟨.failed failure, .of_budget_none (by simp [State.goto, hs₀]) rfl nofun⟩

/-- The process an event is a step of. -/
def Event.pid? : Event → Option Pid
  | .configure p _ | .acquire p | .retry p | .tryLock p | .giveUp p _ | .readBudget p _ | .list p _
  | .openLease p | .tryLease p | .removeLease p _ | .readLease p | .decide p _ | .createLease p _
  | .writeLease p | .lockLease p | .raise p | .kill p | .resize p | .replaceBudget p _
  | .unlock p => some p
  | .inherit _ | .close _ | .tick => none

/-- A step changes the phase of the process it is a step of, or no phase. -/
theorem moves_of_step {e : Event} (hstep : step s e = some s') :
    s'.phase = s.phase ∨ ∃ p phase, e.pid? = some p ∧ Moves s e p phase s' := by
  cases e with
  | configure p settings =>
    cases hstep
    exact .inl rfl
  | acquire p =>
    simp only [step] at hstep
    split at hstep
    case h_1 settings _ =>
      split at hstep
      · cases hstep
        obtain ⟨phase, h⟩ := moves_begin (s := s) (p := p) (e := .acquire p)
          { s with attempt := Function.update s.attempt p (some settings) } rfl settings
        exact .inr ⟨p, phase, rfl, h⟩
      · cases hstep
    · cases hstep
  | retry p =>
    simp only [step] at hstep
    split at hstep
    case h_1 settings _ _ =>
      cases hstep
      obtain ⟨phase, h⟩ := moves_begin (p := p) (e := .retry p) s rfl settings
      exact .inr ⟨p, phase, rfl, h⟩
    · cases hstep
  | tryLock p =>
    simp only [step] at hstep
    split at hstep
    · split at hstep
      · cases hstep
        exact .inr ⟨p, _, rfl, .of_budget_none rfl rfl nofun⟩
      · cases hstep
        exact .inl rfl
    · cases hstep
  | giveUp p failure =>
    simp only [step] at hstep
    split at hstep
    · cases hstep
      exact .inr ⟨p, _, rfl, .of_budget_none rfl rfl nofun⟩
    · cases hstep
  | readBudget p info =>
    rw [step] at hstep
    split at hstep
    case h_1 settings charge hphase =>
      split at hstep
      case h_1 budget file hbudget =>
        split at hstep
        · cases hstep
          exact .inr ⟨p, _, rfl, .of_budget_none rfl rfl nofun⟩
        · cases hstep
          refine .inr ⟨p, _, rfl, rfl, nofun, fun budget' hbudget' ↦ .inr ?_⟩
          simp only [readBudget?, hphase, hbudget]
          exact hbudget'
      · cases hstep
        exact .inr ⟨p, _, rfl, .of_budget_none rfl rfl nofun⟩
    · cases hstep
  | list p names =>
    simp only [step] at hstep
    split at hstep
    case h_1 hphase =>
      split at hstep
      · cases hstep
        exact .inr ⟨p, _, rfl, .of_budget_eq rfl (by rw [hphase]; rfl) nofun⟩
      · cases hstep
    · cases hstep
  | openLease p =>
    simp only [step] at hstep
    split at hstep
    case h_1 hphase =>
      split at hstep
      all_goals
        cases hstep
        exact .inr ⟨p, _, rfl, .of_budget_eq rfl (by rw [hphase]; rfl) nofun⟩
    · cases hstep
  | tryLease p =>
    simp only [step] at hstep
    split at hstep
    case h_1 hphase =>
      split at hstep
      · split at hstep
        all_goals
          cases hstep
          exact .inr ⟨p, _, rfl, .of_budget_eq rfl (by rw [hphase]; rfl) nofun⟩
      · cases hstep
        exact .inr ⟨p, _, rfl, .of_budget_eq rfl (by rw [hphase]; rfl) nofun⟩
    · cases hstep
  | removeLease p permitted =>
    simp only [step] at hstep
    split at hstep
    case h_1 budget charge name scan hphase =>
      cases hstep
      refine .inr ⟨p, .scanning budget charge scan, rfl,
        .of_budget_eq ?_ (by rw [hphase]; rfl) nofun⟩
      cases permitted <;> rfl
    · cases hstep
  | readLease p =>
    simp only [step] at hstep
    split at hstep
    case h_1 hphase =>
      split at hstep
      · split at hstep
        · split at hstep
          · cases hstep
            exact .inr ⟨p, _, rfl, .of_budget_eq rfl (by rw [hphase]; rfl) nofun⟩
          · cases hstep
            exact .inr ⟨p, _, rfl, .of_budget_none rfl rfl nofun⟩
        · cases hstep
          exact .inr ⟨p, _, rfl, .of_budget_none rfl rfl nofun⟩
      · cases hstep
    · cases hstep
  | decide p info =>
    simp only [step] at hstep
    split at hstep
    case h_1 hphase =>
      split at hstep
      · cases hstep
        exact .inr ⟨p, _, rfl, .of_budget_eq rfl (by rw [hphase]; rfl) nofun⟩
      all_goals
        cases hstep
        exact .inr ⟨p, _, rfl, .of_budget_none rfl rfl nofun⟩
    · cases hstep
  | createLease p name =>
    simp only [step] at hstep
    split at hstep
    case h_1 hphase =>
      split at hstep
      · cases hstep
      · cases hstep
        exact .inr ⟨p, _, rfl, .of_budget_eq rfl (by rw [hphase]; rfl) nofun⟩
    · cases hstep
  | writeLease p =>
    simp only [step] at hstep
    split at hstep
    case h_1 hphase =>
      cases hstep
      exact .inr ⟨p, _, rfl, .of_budget_eq rfl (by rw [hphase]; rfl) nofun⟩
    · cases hstep
  | lockLease p =>
    simp only [step] at hstep
    split at hstep
    · split at hstep
      · split at hstep
        all_goals
          cases hstep
          exact .inr ⟨p, _, rfl, .of_budget_none rfl rfl fun _ _ ↦ rfl⟩
      · cases hstep
    · cases hstep
  | raise p =>
    simp only [step] at hstep
    split at hstep
    case h_4 =>
      split at hstep
      · cases hstep
        exact .inr ⟨p, _, rfl, .of_budget_none rfl rfl nofun⟩
      · cases hstep
    all_goals
      cases hstep
      exact .inr ⟨p, _, rfl, .of_budget_none rfl rfl nofun⟩
  | kill p =>
    cases hstep
    refine .inr ⟨p, .idle, rfl, .of_budget_none ?_ rfl nofun⟩
    split <;> rfl
  | inherit name =>
    cases hstep
    exact .inl rfl
  | close name =>
    cases hstep
    exact .inl rfl
  | resize p =>
    simp only [step] at hstep
    split at hstep
    · cases hstep
      exact .inr ⟨p, _, rfl, .of_budget_none rfl rfl nofun⟩
    · cases hstep
  | replaceBudget p text =>
    simp only [step] at hstep
    split at hstep
    · cases hstep
      exact .inl rfl
    · cases hstep
  | unlock p =>
    simp only [step] at hstep
    split at hstep
    · cases hstep
      exact .inr ⟨p, _, rfl, .of_budget_none rfl rfl nofun⟩
    · cases hstep
  | tick =>
    cases hstep
    exact .inl rfl

/-- The lease files after a step that locks no lease: held leases stay, no charge is added, and none
becomes held. -/
structure Keeps (leases leases' : List Lease) : Prop where
  kept : ∀ l ∈ leases, l.Held → ∃ l' ∈ leases', l'.name = l.name ∧ l'.text = l.text
  charges : heldCharges leases' ≤ heldCharges leases
  unheld : (∀ l ∈ leases, ¬ l.Held) → ∀ l ∈ leases', ¬ l.Held

theorem Keeps.refl (leases : List Lease) : Keeps leases leases :=
  ⟨fun l hl _ ↦ ⟨l, hl, rfl, rfl⟩, le_rfl, id⟩

theorem Keeps.of_released {leases leases' : List Lease} (h : Evolve Lease.Released leases leases') :
    Keeps leases leases' where
  kept := by
    intro l hl _
    obtain ⟨l', hl', hll'⟩ := h.exists_after hl
    exact ⟨l', hl', hll'.name, hll'.text⟩
  charges := heldCharges_le_of_released h
  unheld := by
    intro hunheld l' hl' hheld
    obtain ⟨l, hl, hll'⟩ := h.exists_before hl'
    exact hunheld l hl (hll'.held hheld)

/-- Files that nobody holds are removed. -/
theorem Keeps.removeFile {name : Text} (h : ∀ l ∈ s.leases, l.name = name → ¬ l.Held) :
    Keeps s.leases (s.removeFile name).leases where
  kept := by
    intro l hl hheld
    refine ⟨l, List.mem_filter.mpr ⟨hl, decide_eq_true ?_⟩, rfl, rfl⟩
    exact fun hname ↦ h l hl hname hheld
  charges := heldCharges_filter_le _ _
  unheld := fun hunheld l hl ↦ hunheld l (List.mem_of_mem_filter hl)

/-- The file of a name that is not held. -/
theorem unheld_of_exists (h : Inv s) {name : Text} {l : Lease} (hl : l ∈ s.leases)
    (hname : l.name = name) (hheld : ¬ l.Held) :
    ∀ l' ∈ s.leases, l'.name = name → ¬ l'.Held := by
  intro l' hl' hname'
  have heq : l' = l := eq_of_key_eq h.names hl' hl (hname'.trans hname.symm)
  exact heq ▸ hheld

theorem begin_leases (s : State) (p : Pid) (settings : Settings) :
    (begin s p settings).leases = s.leases := by
  unfold begin
  split <;> rfl

/-- A process that does not have the lock, and a process outside `acquire`, only release leases. -/
theorem released_of_step {e : Event} (hstep : step s e = some s')
    (hlock : ∀ p, e.pid? = some p → (s.phase p).underLock = false) :
    Evolve Lease.Released s.leases s'.leases := by
  have hrefl := evolve_refl Lease.Released.refl s.leases
  have hbody : ∀ p phase, e.pid? = some p → s.phase p = phase → phase.underLock = true → False := by
    intro p phase hp hphase hunder
    have hfalse := hlock p hp
    rw [hphase, hunder] at hfalse
    exact Bool.noConfusion hfalse
  cases e with
  | configure p settings =>
    cases hstep
    exact hrefl
  | acquire p =>
    simp only [step] at hstep
    split at hstep
    · split at hstep
      · cases hstep
        rw [begin_leases]
        exact hrefl
      · cases hstep
    · cases hstep
  | retry p =>
    simp only [step] at hstep
    split at hstep
    · cases hstep
      rw [begin_leases]
      exact hrefl
    · cases hstep
  | tryLock p =>
    simp only [step] at hstep
    split at hstep
    · split at hstep
      all_goals
        cases hstep
        exact hrefl
    · cases hstep
  | giveUp p failure =>
    simp only [step] at hstep
    split at hstep
    · cases hstep
      exact hrefl
    · cases hstep
  | raise p =>
    simp only [step] at hstep
    split at hstep
    case h_1 =>
      cases hstep
      exact hrefl
    case h_2 hphase => exact (hbody p _ rfl hphase rfl).elim
    case h_3 hphase => exact (hbody p _ rfl hphase rfl).elim
    case h_4 =>
      rw [hlock p rfl] at hstep
      cases hstep
  | kill p =>
    cases hstep
    rw [hlock p rfl]
    exact hrefl
  | inherit name =>
    cases hstep
    apply evolve_map
    intro l _
    split
    · exact released_inherit l
    · exact .refl l
  | close name =>
    cases hstep
    apply evolve_map
    intro l _
    split
    · exact released_close l
    · exact .refl l
  | resize p =>
    simp only [step] at hstep
    split at hstep
    · cases hstep
      exact hrefl
    · cases hstep
  | tick =>
    cases hstep
    exact hrefl
  | _ p =>
    simp only [step] at hstep
    split at hstep
    case h_1 hphase => exact (hbody p _ rfl hphase rfl).elim
    · cases hstep

/-- Only the lock of a new lease adds to what is held, and held leases are never removed. -/
theorem keeps_of_step {e : Event} (h : Inv s) (hstep : step s e = some s') :
    Keeps s.leases s'.leases ∨ ∃ p, e = .lockLease p := by
  have hrefl := Keeps.refl s.leases
  have hsound := h.sound
  cases e with
  | lockLease p => exact .inr ⟨p, rfl⟩
  | inherit name => exact .inl (.of_released (released_of_step hstep nofun))
  | close name => exact .inl (.of_released (released_of_step hstep nofun))
  | acquire p =>
    simp only [step] at hstep
    split at hstep
    · split at hstep
      · cases hstep
        rw [begin_leases]
        exact .inl hrefl
      · cases hstep
    · cases hstep
  | retry p =>
    simp only [step] at hstep
    split at hstep
    · cases hstep
      rw [begin_leases]
      exact .inl hrefl
    · cases hstep
  | removeLease p permitted =>
    simp only [step] at hstep
    split at hstep
    case h_1 budget charge name scan hphase =>
      have hstale := hsound p
      rw [hphase] at hstale
      cases hstep
      cases permitted with
      | false => exact .inl hrefl
      | true => exact .inl (.removeFile hstale.2.2)
    · cases hstep
  | createLease p name =>
    simp only [step] at hstep
    split at hstep
    · split at hstep
      · cases hstep
      · cases hstep
        refine .inl ⟨fun l hl _ ↦ ⟨l, List.mem_cons_of_mem _ hl, rfl, rfl⟩, ?_, fun hunheld l hl ↦ ?_⟩
        · show heldCharges (_ :: s.leases) ≤ _
          simp [heldCharges, Lease.Held]
        · rcases List.mem_cons.mp hl with rfl | hrest
          · exact Nat.lt_irrefl 0
          · exact hunheld l hrest
    · cases hstep
  | writeLease p =>
    simp only [step] at hstep
    split at hstep
    case h_1 budget charge name hphase =>
      have hcreated := hsound p
      rw [hphase] at hcreated
      obtain ⟨_, l, hl, hname, hheld⟩ := hcreated
      have hunheld := unheld_of_exists h hl hname hheld
      cases hstep
      have hevolve : Evolve (fun l l' ↦ l'.name = l.name ∧ (l.Held → l'.text = l.text) ∧
          (l'.Held → l.Held ∧ l'.charge = l.charge)) s.leases
          (s.setLease name fun l ↦ { l with text := numberText charge.1 }).leases := by
        apply evolve_map
        intro l' hl'
        by_cases hname' : l'.name = name
        · rw [if_pos hname']
          have hnot := hunheld l' hl' hname'
          exact ⟨rfl, fun hheld' ↦ absurd hheld' hnot, fun hheld' ↦ absurd hheld' hnot⟩
        · rw [if_neg hname']
          exact ⟨rfl, fun _ ↦ rfl, fun hheld' ↦ ⟨hheld', rfl⟩⟩
      refine .inl ⟨fun l hl hheld ↦ ?_, ?_, fun hnone l' hl' hheld' ↦ ?_⟩
      · obtain ⟨l', hl', hll'⟩ := hevolve.exists_after hl
        exact ⟨l', hl', hll'.1, hll'.2.1 hheld⟩
      · exact heldCharges_le_of_evolve (hevolve.imp fun _ _ hll' ↦ hll'.2.2)
      · obtain ⟨l, hl, hll'⟩ := hevolve.exists_before hl'
        exact hnone l hl (hll'.2.2 hheld').1
    · cases hstep
  | raise p =>
    simp only [step] at hstep
    split at hstep
    case h_2 hphase =>
      have hcreated := hsound p
      rw [hphase] at hcreated
      obtain ⟨_, l, hl, hname, hheld⟩ := hcreated
      cases hstep
      exact .inl (.removeFile (unheld_of_exists h hl hname hheld))
    case h_3 hphase =>
      have hwritten := hsound p
      rw [hphase] at hwritten
      obtain ⟨_, l, hl, hname, _, hheld⟩ := hwritten
      cases hstep
      exact .inl (.removeFile (unheld_of_exists h hl hname hheld))
    case h_4 =>
      split at hstep
      · cases hstep
        exact .inl hrefl
      · cases hstep
    · cases hstep
      exact .inl hrefl
  | kill p =>
    cases hstep
    split
    all_goals exact .inl hrefl
  | _ =>
    -- the other steps leave the lease files alone
    simp only [step] at hstep
    repeat' split at hstep
    all_goals
      cases hstep
      try exact .inl hrefl

/-- The lock of a new lease leaves every other file and every text as it was. -/
theorem kept_of_lockLease (h : Inv s) (hstep : step s (.lockLease p) = some s') :
    ∀ l ∈ s.leases, ∃ l' ∈ s'.leases, l'.name = l.name ∧ l'.text = l.text := by
  intro l hl
  simp only [step] at hstep
  split at hstep
  case h_2 => cases hstep
  case h_1 budget charge name hphase =>
    have hwritten := h.sound p
    rw [hphase] at hwritten
    obtain ⟨_, new, hnew, hname, _, hheld⟩ := hwritten
    split at hstep
    case h_2 => cases hstep
    case h_1 l' hl' =>
      obtain ⟨hmem, hlname⟩ := mem_of_lease? hl'
      rw [if_neg (unheld_of_exists h hnew hname hheld l' hmem hlname)] at hstep
      cases hstep
      refine ⟨_, List.mem_map_of_mem hl, ?_⟩
      split
      · exact ⟨rfl, rfl⟩
      · exact ⟨rfl, rfl⟩

/-! ### An unchanged budget -/

/-- A step that reads the budget finds this one. -/
def BudgetIs (budget : Bytes) (s : State) (e : Event) : Prop :=
  readBudget? s e = none ∨ readBudget? s e = some budget

instance (budget : Bytes) : DecidableRel (BudgetIs budget) := fun _ _ ↦ instDecidableOr

/-- Assumes: every read of the budget finds the same one. The charges held never exceed it. -/
theorem heldCharges_le_budget {budget : Bytes} (h : (processes.guard (BudgetIs budget)).Reachable s) :
    heldCharges s.leases ≤ budget.1 := by
  have hinv : heldCharges s.leases ≤ budget.1 ∧
      ∀ p budget', (s.phase p).budget? = some budget' → budget' = budget := by
    refine h.invariant (P := fun s ↦ heldCharges s.leases ≤ budget.1 ∧
      ∀ p budget', (s.phase p).budget? = some budget' → budget' = budget) ?_ ?_
    · exact ⟨Nat.zero_le _, nofun⟩
    · intro s e s' hreach ⟨hcharges, hbudgets⟩ hguard
      obtain ⟨hsame, hstep⟩ := Machine.guard_step.mp hguard
      have hs := inv_reachable hreach.of_guard
      refine ⟨?_, fun q budget' hq ↦ ?_⟩
      · rcases keeps_of_step hs hstep with hkeeps | ⟨p, rfl⟩
        · exact hkeeps.charges.trans hcharges
        · obtain ⟨budget', charge, name, hphase, _, hsum, hroom, _⟩ := lockLease_effect hs hstep
          have hbudget' : budget' = budget := hbudgets p budget' (by rw [hphase]; rfl)
          rw [hsum, ← hbudget']
          exact hroom
      · rcases moves_of_step hstep with hphase | ⟨p, phase, _, hmoves⟩
        · exact hbudgets q budget' (hphase ▸ hq)
        · rw [hmoves.update] at hq
          by_cases hqp : q = p
          · subst hqp
            rw [Function.update_self] at hq
            rcases hmoves.budget budget' hq with hbefore | hreads
            · exact hbudgets q budget' hbefore
            · rcases hsame with hnone | hsome
              · exact absurd (hnone.symm.trans hreads) (by simp)
              · exact Option.some.inj (hreads.symm.trans hsome)
          · rw [Function.update_of_ne hqp] at hq
            exact hbudgets q budget' hq
  exact hinv.1

/-! ### An attempt that finds no lease held -/

/-- The steps of the body of an attempt of a process. -/
def Event.bodyOf (p : Pid) (e : Event) : Bool :=
  match e with
  | .readBudget q _ | .list q _ | .openLease q | .tryLease q | .removeLease q _ | .readLease q
  | .decide q _ | .createLease q _ | .writeLease q | .lockLease q => q = p
  | _ => false

/-- The process is in the body of an attempt that has found no lease held. -/
def Phase.OnCourse : Phase → Prop
  | .listing budget charge | .creating budget charge | .created budget charge _
  | .written budget charge _ => charge ≤ budget
  | .scanning budget charge scan | .opened budget charge _ scan | .stale budget charge _ scan =>
    charge ≤ budget ∧ scan.sums.reserved = 0
  | _ => False

/-- How many steps the body of an attempt may still take when no lease is held. -/
def Phase.work (files : ℕ) : Phase → ℕ
  | .listing _ _ => 3 * files + 5
  | .scanning _ _ scan => 3 * scan.names.length + 4
  | .opened _ _ _ scan => 3 * scan.names.length + 6
  | .stale _ _ _ scan => 3 * scan.names.length + 5
  | .creating _ _ => 3
  | .created _ _ _ => 2
  | .written _ _ _ => 1
  | _ => 0

/-- No lease is held and the process is about to be admitted. -/
structure OnCourse (s : State) (p : Pid) : Prop where
  unheld : ∀ l ∈ s.leases, ¬ l.Held
  phase : (s.phase p).OnCourse

theorem OnCourse.underLock (h : OnCourse s p) : (s.phase p).underLock := by
  have hphase := h.phase
  revert hphase
  cases s.phase p <;> simp [Phase.OnCourse, Phase.underLock]

/-- Without reservations the decision is to admit, whatever `MemAvailable` says. -/
theorem decision_of_reserved_zero {budget charge : Bytes} {r : Reserved} (hr : r.reserved = 0)
    (hcharge : charge ≤ budget) (info : Meminfo) : decision budget charge r info = .ok none := by
  have hsum : r.reserved + charge.1 ≤ maxInt := by
    rw [hr, Nat.zero_add]
    exact charge.2
  have hbudget : ¬ budget.1 < r.reserved + charge.1 := by
    rw [hr, Nat.zero_add]
    exact not_lt.mpr hcharge
  unfold decision checked
  rw [dif_pos hsum]
  change (if budget.1 < r.reserved + charge.1 then _ else _) = _
  rw [if_neg hbudget, if_pos hr]

/-- What other processes do meanwhile. -/
theorem OnCourse.step_other {e : Event} (h : Inv s) (hp : OnCourse s p) (hstep : step s e = some s')
    (he : e.pid? ≠ some p) :
    OnCourse s' p ∧ s'.phase p = s.phase p ∧ s'.leases.length = s.leases.length := by
  have hlock : ∀ q, e.pid? = some q → (s.phase q).underLock = false := by
    intro q hq
    exact h.others hp.underLock fun hqp ↦ he (hqp ▸ hq)
  have hreleased := released_of_step hstep hlock
  have hphase : s'.phase p = s.phase p := by
    rcases moves_of_step hstep with hsame | ⟨q, phase, hq, hmoves⟩
    · rw [hsame]
    · rw [hmoves.update, Function.update_of_ne]
      exact fun hqp ↦ he (hqp ▸ hq)
  exact ⟨⟨(Keeps.of_released hreleased).unheld hp.unheld, hphase ▸ hp.phase⟩, hphase,
    hreleased.length_eq.symm⟩

/-- Every step of the attempt itself brings it closer, until it locks its lease. -/
theorem OnCourse.step_body {e : Event} (h : Inv s) (hp : OnCourse s p) (hstep : step s e = some s')
    (he : e.bodyOf p) : e = .lockLease p ∨ OnCourse s' p ∧
      (s'.phase p).work s'.leases.length < (s.phase p).work s.leases.length := by
  have hunheld := hp.unheld
  have hcourse := hp.phase
  by_cases hlast : e = .lockLease p
  · exact .inl hlast
  refine .inr ?_
  have hafter : ∀ l ∈ s'.leases, ¬ l.Held := by
    rcases keeps_of_step h hstep with hkeeps | ⟨q, rfl⟩
    · exact hkeeps.unheld hunheld
    · exact absurd (by simpa [Event.bodyOf] using he) hlast
  cases e with
  | readBudget q info =>
    obtain rfl : q = p := by simpa [Event.bodyOf] using he
    rw [step] at hstep
    split at hstep
    case h_1 hphase =>
      rw [hphase] at hcourse
      exact hcourse.elim
    · cases hstep
  | list q names =>
    obtain rfl : q = p := by simpa [Event.bodyOf] using he
    simp only [step] at hstep
    split at hstep
    case h_1 budget charge hphase =>
      rw [hphase] at hcourse ⊢
      split at hstep
      case isTrue hperm =>
        cases hstep
        have hlength : names.length = s.leases.length := by
          rw [hperm.length_eq, List.length_map]
        refine ⟨⟨hafter, ?_⟩, ?_⟩
        · simpa [State.goto, Phase.OnCourse] using hcourse
        · simp only [State.goto, Function.update_self, Phase.work, hlength]
          omega
      · cases hstep
    · cases hstep
  | openLease q =>
    obtain rfl : q = p := by simpa [Event.bodyOf] using he
    simp only [step] at hstep
    split at hstep
    case h_1 budget charge name rest sums counted hphase =>
      rw [hphase] at hcourse ⊢
      split at hstep
      all_goals
        cases hstep
        refine ⟨⟨hafter, ?_⟩, ?_⟩
        · simpa [State.goto, Phase.OnCourse] using hcourse
        · simp only [State.goto, Function.update_self, Phase.work, List.length_cons]
          omega
    · cases hstep
  | tryLease q =>
    obtain rfl : q = p := by simpa [Event.bodyOf] using he
    simp only [step] at hstep
    split at hstep
    case h_1 budget charge name scan hphase =>
      rw [hphase] at hcourse ⊢
      have hstale : s' = s.goto q (.stale budget charge name scan) := by
        split at hstep
        case h_1 l hl =>
          rw [if_neg (hunheld l (mem_of_lease? hl).1)] at hstep
          exact (Option.some.inj hstep).symm
        case h_2 => exact (Option.some.inj hstep).symm
      subst hstale
      refine ⟨⟨hafter, ?_⟩, ?_⟩
      · simpa [State.goto, Phase.OnCourse] using hcourse
      · simp only [State.goto, Function.update_self, Phase.work]
        omega
    · cases hstep
  | removeLease q permitted =>
    obtain rfl : q = p := by simpa [Event.bodyOf] using he
    simp only [step] at hstep
    split at hstep
    case h_1 budget charge name scan hphase =>
      rw [hphase] at hcourse ⊢
      cases hstep
      have hphase' : ∀ s₀ : State, (s₀.goto q (.scanning budget charge scan)).phase q =
          .scanning budget charge scan := fun s₀ ↦ Function.update_self ..
      refine ⟨⟨hafter, ?_⟩, ?_⟩
      · rw [hphase']
        exact hcourse
      · rw [hphase']
        simp only [Phase.work]
        omega
    · cases hstep
  | readLease q =>
    obtain rfl : q = p := by simpa [Event.bodyOf] using he
    simp only [step] at hstep
    split at hstep
    case h_1 hphase =>
      rw [hphase] at hcourse
      exact hcourse.elim
    · cases hstep
  | decide q info =>
    obtain rfl : q = p := by simpa [Event.bodyOf] using he
    simp only [step] at hstep
    split at hstep
    case h_1 budget charge sums counted hphase =>
      rw [hphase] at hcourse ⊢
      rw [decision_of_reserved_zero hcourse.2 hcourse.1] at hstep
      cases hstep
      refine ⟨⟨hafter, ?_⟩, ?_⟩
      · simpa [State.goto, Phase.OnCourse] using hcourse.1
      · simp [State.goto, Phase.work]
    · cases hstep
  | createLease q name =>
    obtain rfl : q = p := by simpa [Event.bodyOf] using he
    simp only [step] at hstep
    split at hstep
    case h_1 budget charge hphase =>
      rw [hphase] at hcourse ⊢
      split at hstep
      · cases hstep
      · cases hstep
        refine ⟨⟨hafter, ?_⟩, ?_⟩
        · simpa [State.goto, Phase.OnCourse] using hcourse
        · simp [State.goto, Phase.work]
    · cases hstep
  | writeLease q =>
    obtain rfl : q = p := by simpa [Event.bodyOf] using he
    simp only [step] at hstep
    split at hstep
    case h_1 budget charge name hphase =>
      rw [hphase] at hcourse ⊢
      cases hstep
      refine ⟨⟨hafter, ?_⟩, ?_⟩
      · simpa [State.goto, Phase.OnCourse] using hcourse
      · simp [State.goto, Phase.work]
    · cases hstep
  | lockLease q => exact absurd (by simpa [Event.bodyOf] using he) hlast
  | _ => exact absurd he (by simp [Event.bodyOf])

/-- An event that neither kills the process nor makes one of its system calls fail. -/
def Event.Spares (p : Pid) (e : Event) : Prop := e ≠ .raise p ∧ e ≠ .kill p

/-- Between its steps a process on course can only be configured anew. -/
theorem OnCourse.step_outside {e : Event} (hp : OnCourse s p) (hstep : step s e = some s')
    (he : e.pid? = some p) (hbody : e.bodyOf p = false) (hspares : e.Spares p) :
    OnCourse s' p ∧ s'.phase p = s.phase p ∧ s'.leases.length = s.leases.length := by
  have hcourse := hp.phase
  have hoff : ∀ phase, s.phase p = phase → ¬ phase.OnCourse → False := by
    intro phase hphase hnot
    exact hnot (hphase ▸ hcourse)
  have hresting : ¬ (s.phase p).resting := by
    revert hcourse
    cases s.phase p <;> simp [Phase.OnCourse, Phase.resting]
  cases e with
  | configure q settings =>
    cases hstep
    exact ⟨⟨hp.unheld, hp.phase⟩, rfl, rfl⟩
  | acquire q =>
    obtain rfl : q = p := by simpa [Event.pid?] using he
    simp only [step, if_neg hresting] at hstep
    split at hstep <;> cases hstep
  | retry q =>
    obtain rfl : q = p := by simpa [Event.pid?] using he
    simp only [step] at hstep
    split at hstep
    case h_1 hphase _ => exact (hoff _ hphase id).elim
    · cases hstep
  | raise q =>
    obtain rfl : q = p := by simpa [Event.pid?] using he
    exact absurd rfl hspares.1
  | kill q =>
    obtain rfl : q = p := by simpa [Event.pid?] using he
    exact absurd rfl hspares.2
  | resize q =>
    obtain rfl : q = p := by simpa [Event.pid?] using he
    rw [step, if_neg fun hfree ↦ hresting hfree.1] at hstep
    cases hstep
  | inherit name => cases he
  | close name => cases he
  | tick => cases he
  | tryLock q =>
    obtain rfl : q = p := by simpa [Event.pid?] using he
    simp only [step] at hstep
    split at hstep
    case h_1 hphase => exact (hoff _ hphase id).elim
    · cases hstep
  | giveUp q failure =>
    obtain rfl : q = p := by simpa [Event.pid?] using he
    simp only [step] at hstep
    split at hstep
    case h_1 hphase => exact (hoff _ hphase id).elim
    · cases hstep
  | replaceBudget q text =>
    obtain rfl : q = p := by simpa [Event.pid?] using he
    simp only [step] at hstep
    split at hstep
    case h_1 hphase => exact (hoff _ hphase id).elim
    · cases hstep
  | unlock q =>
    obtain rfl : q = p := by simpa [Event.pid?] using he
    simp only [step] at hstep
    split at hstep
    case h_1 hphase => exact (hoff _ hphase id).elim
    · cases hstep
  | _ q =>
    obtain rfl : q = p := by simpa [Event.pid?] using he
    exact absurd hbody (by simp [Event.bodyOf])

/-- The process can always take its next step. -/
theorem OnCourse.enabled (h : Inv s) (hp : OnCourse s p) :
    ∃ e, Event.bodyOf p e ∧ (step s e).isSome := by
  have hcourse := hp.phase
  have hsound := h.sound p
  cases hphase : s.phase p with
  | listing budget charge =>
    refine ⟨.list p (s.leases.map Lease.name), by simp [Event.bodyOf], ?_⟩
    simp [step, hphase]
  | scanning budget charge scan =>
    obtain ⟨names, sums, counted⟩ := scan
    cases names with
    | nil =>
      rw [hphase] at hcourse
      refine ⟨.decide p ⟨none, none⟩, by simp [Event.bodyOf], ?_⟩
      simp [step, hphase, decision_of_reserved_zero hcourse.2 hcourse.1]
    | cons name rest =>
      refine ⟨.openLease p, by simp [Event.bodyOf], ?_⟩
      simp only [step, hphase]
      split <;> rfl
  | opened budget charge name scan =>
    refine ⟨.tryLease p, by simp [Event.bodyOf], ?_⟩
    simp only [step, hphase]
    split
    · split <;> rfl
    · rfl
  | stale budget charge name scan =>
    refine ⟨.removeLease p true, by simp [Event.bodyOf], ?_⟩
    simp [step, hphase]
  | creating budget charge =>
    obtain ⟨name, hname⟩ := Infinite.exists_notMem_finset (s.leases.map Lease.name).toFinset
    refine ⟨.createLease p name, by simp [Event.bodyOf], ?_⟩
    simp only [step, hphase, if_neg (fun hmem ↦ hname (List.mem_toFinset.mpr hmem)), Option.isSome]
  | created budget charge name =>
    refine ⟨.writeLease p, by simp [Event.bodyOf], ?_⟩
    simp [step, hphase]
  | written budget charge name =>
    rw [hphase] at hsound
    obtain ⟨_, l, hl, hname, _, _⟩ := hsound
    refine ⟨.lockLease p, by simp [Event.bodyOf], ?_⟩
    simp only [step, hphase]
    split
    · split <;> rfl
    · rename_i hnone
      exact absurd hname (ne_of_lease?_eq_none hnone hl)
  | _ =>
    rw [hphase] at hcourse
    exact hcourse.elim

/-- The process locks its lease somewhere along the run, and is admitted. -/
def AdmittedAlong (s : State) (p : Pid) (events : List Event) : Prop :=
  ∃ before after u u' name, events = before ++ .lockLease p :: after ∧
    processes.run s before = some u ∧ step u (.lockLease p) = some u' ∧
      u'.phase p = .admitted name

/-- Along every run the process is admitted, or still on course after at most as many steps of its
own as it had ahead. -/
theorem OnCourse.run {events : List Event} : ∀ {s t : State}, Inv s → OnCourse s p →
    (∀ e ∈ events, e.Spares p) → processes.run s events = some t →
      AdmittedAlong s p events ∨ Inv t ∧ OnCourse t p ∧
        (t.phase p).work t.leases.length + events.countP (Event.bodyOf p) ≤
          (s.phase p).work s.leases.length := by
  induction events with
  | nil =>
    intro s t h hp _ hrun
    cases hrun
    exact .inr ⟨h, hp, le_rfl⟩
  | cons e rest ih =>
    intro s t h hp hspares hrun
    obtain ⟨s', hstep, hrest⟩ := Option.bind_eq_some_iff.mp hrun
    have hcases : e = .lockLease p ∨ OnCourse s' p ∧
        (s'.phase p).work s'.leases.length + (if e.bodyOf p then 1 else 0) ≤
          (s.phase p).work s.leases.length := by
      by_cases hbody : e.bodyOf p
      · refine (hp.step_body h hstep hbody).imp_right fun ⟨hp', hlt⟩ ↦ ⟨hp', ?_⟩
        rw [if_pos hbody]
        omega
      · have hsame : OnCourse s' p ∧ s'.phase p = s.phase p ∧
            s'.leases.length = s.leases.length := by
          by_cases he : e.pid? = some p
          · exact hp.step_outside hstep he (by simpa using hbody) (hspares e List.mem_cons_self)
          · exact hp.step_other h hstep he
        rw [if_neg hbody, hsame.2.1, hsame.2.2]
        exact .inr ⟨hsame.1, le_rfl⟩
    rcases hcases with rfl | ⟨hp', hwork⟩
    · obtain ⟨_, _, name, _, hphase, _⟩ := lockLease_effect h hstep
      refine .inl ⟨[], rest, s, s', name, rfl, rfl, hstep, ?_⟩
      rw [hphase, Function.update_self]
    · rcases ih (inv_step h hstep) hp' (fun e he ↦ hspares e (List.mem_cons_of_mem _ he)) hrest with
        ⟨before, after, u, u', name, hevents, hbefore, hlock, hphase⟩ | ⟨ht, hpt, hcount⟩
      · refine .inl ⟨e :: before, after, u, u', name, by rw [hevents]; rfl, ?_, hlock, hphase⟩
        exact Option.bind_eq_some_iff.mpr ⟨s', hstep, hbefore⟩
      · refine .inr ⟨ht, hpt, ?_⟩
        rw [List.countP_cons]
        omega

/-! ### Admission is safe -/

/-- A process is admitted only by the lock of a lease whose charge fits the budget it read. -/
theorem admission_fits {e : Event} {name : Text} (h : Inv s) (hstep : step s e = some s')
    (hbefore : s.phase p ≠ .admitted name) (hafter : s'.phase p = .admitted name) :
    ∃ budget charge, s.phase p = .written budget charge name ∧
      heldCharges s'.leases = heldCharges s.leases + charge.1 ∧ heldCharges s'.leases ≤ budget.1 := by
  rcases moves_of_step hstep with hsame | ⟨q, phase, _, hmoves⟩
  · exact absurd (hsame ▸ hafter) hbefore
  · rw [hmoves.update] at hafter
    by_cases hpq : p = q
    · subst hpq
      rw [Function.update_self] at hafter
      obtain rfl := hmoves.admitted name hafter
      obtain ⟨budget, charge, name', hphase, hphase', hsum, hroom, _⟩ := lockLease_effect h hstep
      have hname : name' = name := by
        have heq := congrFun (hphase'.symm.trans hmoves.update) p
        rw [Function.update_self, Function.update_self, hafter] at heq
        exact Phase.admitted.inj heq
      exact ⟨budget, charge, hname ▸ hphase, hsum, hsum ▸ hroom⟩
    · rw [Function.update_of_ne hpq] at hafter
      exact absurd hafter hbefore

/-- An attempt that has the lock and finds no lease held, reading a budget that its charge fits. -/
theorem onCourse_readBudget (hunheld : ∀ l ∈ s.leases, ¬ l.Held) {settings : Settings}
    {budget charge : Bytes} {file : Option Text} {info : Meminfo}
    (hphase : s.phase p = .locked settings charge)
    (hbudget : currentBudget s.budgetFile info.total settings.budgetMb = .ok (budget, file))
    (hcharge : charge ≤ budget) : ∃ s', step s (.readBudget p info) = some s' ∧
      OnCourse s' p ∧ s'.phase p = .listing budget charge ∧ s'.leases = s.leases := by
  let s₀ := { s with
    budgetFile := file
    settings := Function.update s.settings p (some { settings with budgetMb := none }) }
  have hstep : step s (.readBudget p info) = some (s₀.goto p (.listing budget charge)) := by
    simp only [step, hphase, hbudget, if_neg (not_lt.mpr hcharge), s₀]
  refine ⟨_, hstep, ⟨hunheld, ?_⟩, Function.update_self .., rfl⟩
  simpa [State.goto, Phase.OnCourse] using hcharge

/-- Whenever a process is admitted, the charges of all leases then held, its own included, are at
most the budget it read; while every budget read is the same, the charges held never exceed it; a
held lease is never removed, and a finished scan has counted every lease still held; and an attempt
that has the lock, finds no lease held and reads a budget its charge fits is admitted, whatever
`MemAvailable` says, after at most as many steps as there are files to look at. -/
theorem admission_safe :
    (∀ s s' e p name, processes.Reachable s → step s e = some s' → s.phase p ≠ .admitted name →
      s'.phase p = .admitted name → ∃ budget charge, s.phase p = .written budget charge name ∧
        heldCharges s'.leases = heldCharges s.leases + charge.1 ∧
        heldCharges s'.leases ≤ budget.1) ∧
    (∀ s budget, (processes.guard (BudgetIs budget)).Reachable s →
      heldCharges s.leases ≤ budget.1) ∧
    (∀ s s' e, processes.Reachable s → step s e = some s' → ∀ l ∈ s.leases, l.Held →
      ∃ l' ∈ s'.leases, l'.name = l.name ∧ l'.text = l.text) ∧
    (∀ s p budget charge sums counted, processes.Reachable s →
      s.phase p = .scanning budget charge ⟨[], sums, counted⟩ →
        sums.reserved = (counted.map Prod.snd).sum ∧
        ∀ l ∈ s.leases, l.Held → (l.name, l.charge) ∈ counted) ∧
    (∀ s p settings budget charge file info, processes.Reachable s →
      s.phase p = .locked settings charge →
      currentBudget s.budgetFile info.total settings.budgetMb = .ok (budget, file) →
      charge ≤ budget → (∀ l ∈ s.leases, ¬ l.Held) →
        ∃ s', step s (.readBudget p info) = some s' ∧ ∀ events t, (∀ e ∈ events, e.Spares p) →
          processes.run s' events = some t → AdmittedAlong s' p events ∨
            (∃ e, Event.bodyOf p e ∧ (step t e).isSome) ∧
            events.countP (Event.bodyOf p) ≤ 3 * s.leases.length + 5) := by
  refine ⟨fun s s' e p name hs hstep hbefore hafter ↦
      admission_fits (inv_reachable hs) hstep hbefore hafter,
    fun s budget hs ↦ heldCharges_le_budget hs, fun s s' e hs hstep l hl hheld ↦ ?_,
    fun s p budget charge sums counted hs hphase ↦ ?_,
    fun s p settings budget charge file info hs hphase hbudget hcharge hunheld ↦ ?_⟩
  · rcases keeps_of_step (inv_reachable hs) hstep with hkeeps | ⟨p, rfl⟩
    · exact hkeeps.kept l hl hheld
    · exact kept_of_lockLease (inv_reachable hs) hstep l hl
  · have hsound := (inv_reachable hs).sound p
    rw [hphase] at hsound
    exact ⟨hsound.2.sum, fun l hl hheld ↦ (hsound.2.held l hl hheld).resolve_left List.not_mem_nil⟩
  · obtain ⟨s', hstep, hcourse, hphase', hleases⟩ :=
      onCourse_readBudget hunheld hphase hbudget hcharge
    refine ⟨s', hstep, fun events t hspares hrun ↦ ?_⟩
    rcases hcourse.run (inv_step (inv_reachable hs) hstep) hspares hrun with
      hadmitted | ⟨ht, hpt, hcount⟩
    · exact .inl hadmitted
    · refine .inr ⟨hpt.enabled ht, ?_⟩
      rw [hphase', hleases, Phase.work] at hcount
      omega

/-- A process with a budget of 4 GiB has the lock of the empty directory. -/
def sampleStart : List Event := [.configure 0 ⟨some 4096, 3072⟩, .acquire 0, .tryLock 0]

/-- It has written its lease of 3 GiB. -/
def sampleWritten : List Event :=
  sampleStart ++ [.readBudget 0 ⟨none, none⟩, .list 0 [], .decide 0 ⟨none, none⟩,
    .createLease 0 ['a'], .writeLease 0]

/-- It is admitted, and a second process has scanned its lease. -/
def sampleScanned : List Event :=
  sampleWritten ++ [.lockLease 0, .configure 1 ⟨none, 2048⟩, .acquire 1, .tryLock 1,
    .readBudget 1 ⟨none, none⟩, .list 1 [['a']], .openLease 1, .tryLease 1, .readLease 1]

/-- The budget of the sample. -/
def sampleBudget : Bytes := ⟨4096 * mib, by decide⟩

/-- The charge of the first process of the sample. -/
def sampleCharge : Bytes := ⟨3072 * mib, by decide⟩

theorem isSome_samples : (processes.run processes.initial sampleStart).isSome ∧
    (processes.run processes.initial sampleWritten).isSome ∧
    (processes.run processes.initial sampleScanned).isSome ∧
    ((processes.guard (BudgetIs sampleBudget)).run processes.initial
      (sampleWritten ++ [.lockLease 0])).isSome := by
  decide +kernel

/-- The states these runs end in. -/
def sampleStart' : State := (processes.run processes.initial sampleStart).get isSome_samples.1
def sampleWritten' : State := (processes.run processes.initial sampleWritten).get isSome_samples.2.1
def sampleScanned' : State := (processes.run processes.initial sampleScanned).get isSome_samples.2.2.1
def sampleGuarded' : State := ((processes.guard (BudgetIs sampleBudget)).run processes.initial
  (sampleWritten ++ [.lockLease 0])).get isSome_samples.2.2.2

theorem isSome_sampleLock : (step sampleWritten' (.lockLease 0)).isSome := by decide +kernel

theorem admission_safe_sample :
    heldCharges ((step sampleWritten' (.lockLease 0)).get isSome_sampleLock).leases ≤ 4096 * mib ∧
      heldCharges sampleGuarded'.leases ≤ sampleBudget.1 ∧
      (∃ l ∈ sampleScanned'.leases, (l.name, l.charge) = (['a'], 3072 * mib)) ∧
      ∃ s', step sampleStart' (.readBudget 0 ⟨none, none⟩) = some s' ∧
        ∀ events t, (∀ e ∈ events, e.Spares 0) → processes.run s' events = some t →
          AdmittedAlong s' 0 events ∨ (∃ e, Event.bodyOf 0 e ∧ (step t e).isSome) ∧
            events.countP (Event.bodyOf 0) ≤ 3 * sampleStart'.leases.length + 5 := by
  have hstart : processes.Reachable sampleStart' := Machine.reachable_of_run isSome_samples.1
  have hwritten : processes.Reachable sampleWritten' := Machine.reachable_of_run isSome_samples.2.1
  have hscanned : processes.Reachable sampleScanned' := Machine.reachable_of_run isSome_samples.2.2.1
  have hguarded : (processes.guard (BudgetIs sampleBudget)).Reachable sampleGuarded' :=
    Machine.reachable_of_run (M := processes.guard (BudgetIs sampleBudget)) isSome_samples.2.2.2
  obtain ⟨hfits, hbound, _, hcounted, hadmitted⟩ := admission_safe
  refine ⟨?_, hbound _ _ hguarded, ?_, ?_⟩
  · obtain ⟨budget, charge, hphase, _, hle⟩ := hfits _ _ _ 0 ['a'] hwritten
      (Option.some_get isSome_sampleLock).symm (by decide +kernel) (by decide +kernel)
    have hbudget : Phase.written budget charge ['a'] = .written sampleBudget sampleCharge ['a'] :=
      hphase.symm.trans (by decide +kernel)
    rwa [(Phase.written.inj hbudget).1] at hle
  · have hphase : sampleScanned'.phase 1 = .scanning sampleBudget ⟨2048 * mib, by decide⟩
        ⟨[], ⟨3072 * mib, 3072 * mib⟩, [(['a'], 3072 * mib)]⟩ := by decide +kernel
    have hall := (hcounted _ _ _ _ _ _ hscanned hphase).2
    have hlease : ∃ l ∈ sampleScanned'.leases, l.Held := by decide +kernel
    obtain ⟨l, hl, hheld⟩ := hlease
    exact ⟨l, hl, List.mem_singleton.mp (hall l hl hheld)⟩
  · exact hadmitted _ 0 ⟨some 4096, 3072⟩ sampleBudget sampleCharge
      (some (numberText sampleBudget.1)) ⟨none, none⟩ hstart (by decide +kernel)
      (by decide +kernel) (by decide +kernel) (by decide +kernel)

end Holbuild.MachineMemory
