import Holbuild.ProofRuntime.Plans

/-!
# The paths of a plan

`proof_runtime.sml`. Where a traversal of a plan is, the search for a path goes on as it does from the
start (`runList_of_remaining`), and so does the way to the step at a path (`findSteps_of_remaining`). The
step at a path is therefore printed at the number that the search finds (`pathDisplayIndex_eq`,
`planEntries_getElem?`).

A label may have several lines of source text. Its entry then has several lines, with the number on the
first of them; otherwise the lines of the printed text are the entries (`oneLine_planEntries`).
-/

set_option autoImplicit false
set_option relaxedAutoImplicit false

namespace Holbuild.ProofRuntime

open Library

section

variable {plan steps rest body : List Step} {bodies before after : List (List Step)}
  {path target : ProofPath} {i j n d depth : ℕ} {step : Step} {component : PathComponent}
  {components : ℕ → PathComponent} {name : Text}

/-! ### The search for a path -/

theorem component_injective (h : BranchesOf step components bodies) :
    Function.Injective components := by
  cases h with
  | cases => exact fun _ _ heq ↦ PathComponent.pathCase.inj heq
  | choice => exact fun _ _ heq ↦ PathComponent.pathAlternative.inj heq

/-- Paths with different components at the same place are not on the way to each other. -/
theorem not_prefix_of_ne {component other : PathComponent} {rest : ProofPath} (h : component ≠ other) :
    ¬path ++ [component] <+: path ++ other :: rest := by
  intro hway
  rw [List.prefix_append_right_inj, List.cons_prefix_cons] at hway
  exact h hway.1

theorem iterationPath_of_apart {iteration : PathComponent → Bool} (h : ¬path <+: target) :
    iterationPath iteration path target = none := by
  rw [iterationPath, if_neg]
  rw [pathHasPrefix, List.isPrefixOf_iff_prefix]
  exact h

theorem iterationPath_append {iteration : PathComponent → Bool} {rest : ProofPath}
    (h : iteration component = true) :
    iterationPath iteration path (path ++ component :: rest) = some (path ++ [component]) := by
  have hway : pathHasPrefix path (path ++ component :: rest) = true :=
    List.isPrefixOf_iff_prefix.mpr (List.prefix_append _ _)
  rw [iterationPath, if_pos hway, List.drop_left]
  exact if_pos h

theorem not_prefix_append (h : ¬path <+: target) : ¬path ++ [component] <+: target :=
  fun hway ↦ h ((List.prefix_append path [component]).trans hway)

theorem ne_of_apart (h : ¬path <+: target) : path ≠ target := fun heq ↦ h (heq ▸ List.prefix_rfl)

mutual

/-- Where the target does not go, the search counts entries only. -/
theorem runList_of_apart (d : ℕ) (path : ProofPath) (i : ℕ) (steps : List Step)
    (h : ¬path <+: target) :
    pathDisplayIndex.runList target d path i steps = .ok (d + displayLineCountList steps) := by
  cases steps with
  | nil => rw [pathDisplayIndex.runList, displayLineCountList, Nat.add_zero]
  | cons step rest =>
    rw [pathDisplayIndex.runList, runOne_of_apart d (path ++ [.pathStep i]) step
      (not_prefix_append h), displayLineCountList, ← Nat.add_assoc]
    exact runList_of_apart (d + displayLineCount step) path (i + 1) rest h

theorem runOne_of_apart (d : ℕ) (path : ProofPath) (step : Step) (h : ¬path <+: target) :
    pathDisplayIndex.runOne target d path step = .ok (d + displayLineCount step) := by
  cases step with
  | stepTactic span label program => rw [pathDisplayIndex.runOne, if_neg (ne_of_apart h)]
  | stepList span label program => rw [pathDisplayIndex.runOne, if_neg (ne_of_apart h)]
  | stepEach span body =>
    rw [pathDisplayIndex.runOne, if_neg (ne_of_apart h), iterationPath_of_apart h]
  | stepSelect span selector mode body =>
    rw [pathDisplayIndex.runOne, if_neg (ne_of_apart h),
      runList_of_apart (d + 1) (path ++ [.pathSelect]) 0 body (not_prefix_append h)]
    rfl
  | stepCases span cases =>
    rw [pathDisplayIndex.runOne, if_neg (ne_of_apart h),
      runBodies_of_apart .pathCase path 1 (d + 1) cases h]
    rfl
  | stepChoice span label alternatives =>
    rw [pathDisplayIndex.runOne, if_neg (ne_of_apart h),
      runBodies_of_apart .pathAlternative path 1 (d + 1) alternatives h]
    rfl
  | stepRepeat span body =>
    rw [pathDisplayIndex.runOne, if_neg (ne_of_apart h), iterationPath_of_apart h]
  | stepTry span body =>
    rw [pathDisplayIndex.runOne, if_neg (ne_of_apart h),
      runList_of_apart (d + 1) (path ++ [.pathTry]) 0 body (not_prefix_append h)]
    rfl

theorem runBodies_of_apart (components : ℕ → PathComponent) (path : ProofPath) (n j : ℕ)
    (bodies : List (List Step)) (h : ¬path <+: target) :
    pathDisplayIndex.runBodies target components path n j bodies = .ok () := by
  cases bodies with
  | nil => rw [pathDisplayIndex.runBodies]
  | cons body bodies =>
    rw [pathDisplayIndex.runBodies,
      runList_of_apart (j + 1) (path ++ [components n]) 0 body (not_prefix_append h)]
    exact runBodies_of_apart components path (n + 1) _ bodies h

end

/-- The search finds in a body what it finds from the body on. -/
theorem runOne_of_bodyOf {rest : ProofPath} {r : ℕ} (h : BodyOf step component body)
    (hfound : pathDisplayIndex.runList (path ++ component :: rest) (d + 1) (path ++ [component]) 0
      body = .error r) :
    pathDisplayIndex.runOne (path ++ component :: rest) d path step = .error r := by
  have hne : path ≠ path ++ component :: rest := fun heq ↦
    List.cons_ne_nil component rest (List.self_eq_append_right.mp heq)
  have hway : pathHasPrefix (path ++ [component]) (path ++ component :: rest) = true :=
    List.isPrefixOf_iff_prefix.mpr ⟨rest, by rw [List.append_assoc]; rfl⟩
  cases h with
  | each span body n =>
    have hiteration := @iterationPath_append path (.pathEach n) isPathEach rest rfl
    rw [pathDisplayIndex.runOne, if_neg hne, hiteration]
    show (if _ then _ else _ : Except ℕ ℕ) = _
    rw [if_pos hway, hfound]
    rfl
  | select =>
    rw [pathDisplayIndex.runOne, if_neg hne, hfound]
    rfl
  | repeats span body n =>
    have hiteration := @iterationPath_append path (.pathRepeat n) isPathRepeat rest rfl
    rw [pathDisplayIndex.runOne, if_neg hne, hiteration]
    show (if _ then _ else _ : Except ℕ ℕ) = _
    rw [if_pos hway, hfound]
    rfl
  | tries =>
    rw [pathDisplayIndex.runOne, if_neg hne, hfound]
    rfl

/-- The search goes past the branches before the one that the target goes through. -/
theorem runBodies_append {inner : List Step} {rest : ProofPath} {r : ℕ}
    (hinjective : Function.Injective components)
    (hfound : pathDisplayIndex.runList (path ++ components (before.length + n) :: rest)
      (j + branchesLineCount before + 1) (path ++ [components (before.length + n)]) 0 inner =
        .error r) :
    pathDisplayIndex.runBodies (path ++ components (before.length + n) :: rest) components path n j
      (before ++ inner :: after) = .error r := by
  induction before generalizing n j with
  | nil =>
    rw [List.length_nil, Nat.zero_add] at hfound ⊢
    rw [branchesLineCount_nil, Nat.add_zero] at hfound
    rw [List.nil_append, pathDisplayIndex.runBodies, hfound]
    rfl
  | cons body before ih =>
    have hnumber : (body :: before).length + n = before.length + (n + 1) := by
      rw [List.length_cons]
      omega
    have hne : components n ≠ components (before.length + (n + 1)) := fun heq ↦ by
      have := hinjective heq
      omega
    have hstart : j + 1 + displayLineCountList body + branchesLineCount before + 1 =
        j + branchesLineCount (body :: before) + 1 := by
      rw [branchesLineCount_cons]
      omega
    rw [hnumber] at hfound ⊢
    rw [List.cons_append, pathDisplayIndex.runBodies,
      runList_of_apart (j + 1) (path ++ [components n]) 0 body (not_prefix_of_ne hne)]
    apply ih
    rw [hstart]
    exact hfound

theorem runOne_of_branchesOf {inner : List Step} {rest : ProofPath} {r : ℕ}
    (h : BranchesOf step components (before ++ inner :: after))
    (hfound : pathDisplayIndex.runList (path ++ components (before.length + 1) :: rest)
      (d + 1 + branchesLineCount before + 1) (path ++ [components (before.length + 1)]) 0 inner =
        .error r) :
    pathDisplayIndex.runOne (path ++ components (before.length + 1) :: rest) d path step =
      .error r := by
  have hne : path ≠ path ++ components (before.length + 1) :: rest := fun heq ↦
    List.cons_ne_nil _ rest (List.self_eq_append_right.mp heq)
  have hbodies : pathDisplayIndex.runBodies (path ++ components (before.length + 1) :: rest) components
      path 1 (d + 1) (before ++ inner :: after) = .error r :=
    runBodies_append (component_injective h) hfound
  cases h with
  | cases =>
    rw [pathDisplayIndex.runOne, if_neg hne, hbodies]
    rfl
  | choice =>
    rw [pathDisplayIndex.runOne, if_neg hne, hbodies]
    rfl

/-- What the search finds from where a traversal is, it finds from the start. -/
theorem runList_of_remaining (h : Remaining plan path i d depth steps) {k r : ℕ} {rest : ProofPath}
    (hfound : pathDisplayIndex.runList (path ++ .pathStep (i + k) :: rest) d path i steps = .error r) :
    pathDisplayIndex.runList (path ++ .pathStep (i + k) :: rest) 0 [] 0 plan = .error r := by
  induction h generalizing k rest with
  | start => exact hfound
  | @next path i d depth step others h ih =>
    have hnumber : i + 1 + k = i + (k + 1) := by omega
    have hne : PathComponent.pathStep i ≠ .pathStep (i + (k + 1)) := fun heq ↦ by
      have := PathComponent.pathStep.inj heq
      omega
    rw [hnumber] at hfound ⊢
    apply ih
    rw [pathDisplayIndex.runList, runOne_of_apart d (path ++ [.pathStep i]) step
      (not_prefix_of_ne hne)]
    exact hfound
  | @body path i d depth step others body component h hbody ih =>
    rw [List.append_assoc _ [component], List.append_assoc path] at hfound ⊢
    apply @ih 0
    rw [← List.append_assoc path] at hfound
    have hone := runOne_of_bodyOf hbody hfound
    rw [List.append_assoc path] at hone
    rw [pathDisplayIndex.runList, Nat.add_zero]
    exact congrArg (· >>= _) hone
  | @branch path i d depth step others inner components before after h hbranches ih =>
    rw [List.append_assoc _ [components _], List.append_assoc path] at hfound ⊢
    apply @ih 0
    rw [← List.append_assoc path] at hfound
    have hone := runOne_of_branchesOf hbranches hfound
    rw [List.append_assoc path] at hone
    rw [pathDisplayIndex.runList, Nat.add_zero]
    exact congrArg (· >>= _) hone

/-- The number of a step's entry is the one that the search finds. -/
theorem pathDisplayIndex_eq (h : Node plan path d depth step) :
    pathDisplayIndex plan path = some d := by
  obtain ⟨above, i, rest, rfl, hremaining⟩ := h
  have hhere : pathDisplayIndex.runOne (above ++ [.pathStep i]) d (above ++ [.pathStep i]) step =
      .error d := by
    cases step <;> rw [pathDisplayIndex.runOne, if_pos rfl]
  have hfound : pathDisplayIndex.runList (above ++ .pathStep (i + 0) :: []) d above i (step :: rest) =
      .error d := by
    rw [Nat.add_zero, pathDisplayIndex.runList, hhere]
    rfl
  have hstart := runList_of_remaining hremaining hfound
  rw [Nat.add_zero] at hstart
  rw [pathDisplayIndex, hstart]

/-! ### The steps of a plan -/

theorem findSteps_cons (k : ℕ) (rest : ProofPath) :
    findSteps (.pathStep (k + 1) :: rest) (step :: steps) = findSteps (.pathStep k :: rest) steps := by
  cases rest with
  | nil => rw [findSteps, findSteps, List.getElem?_cons_succ]
  | cons component rest => rw [findSteps, findSteps, List.getElem?_cons_succ]

theorem findInStep_of_bodyOf (h : BodyOf step component body) (rest : ProofPath) :
    findInStep (component :: rest) step = findSteps rest body := by
  cases h <;> rw [findInStep]

theorem findInStep_of_branchesOf {inner : List Step}
    (h : BranchesOf step components (before ++ inner :: after)) (rest : ProofPath) :
    findInStep (components (before.length + 1) :: rest) step = findSteps rest inner := by
  have hnth : nthFromOne (before.length + 1) (before ++ inner :: after) = some inner := by
    rw [nthFromOne, if_neg (Nat.succ_ne_zero _), Nat.add_sub_cancel,
      List.getElem?_append_right (le_refl _), Nat.sub_self]
    rfl
  cases h <;> rw [findInStep, hnth]

/-- The steps along a path are found from where a traversal is. -/
theorem findSteps_of_remaining (h : Remaining plan path i d depth steps) (k : ℕ) (rest : ProofPath) :
    findSteps (path ++ .pathStep (i + k) :: rest) plan = findSteps (.pathStep k :: rest) steps := by
  induction h generalizing k rest with
  | start => rw [List.nil_append, Nat.zero_add]
  | @next path i d depth step others h ih =>
    rw [show i + 1 + k = i + (k + 1) by omega, ih, findSteps_cons]
  | @body path i d depth step others body component h hbody ih =>
    rw [List.append_assoc, List.append_assoc]
    show findSteps (path ++ .pathStep (i + 0) :: component :: _) plan = _
    rw [ih, findSteps, Nat.zero_add]
    exact findInStep_of_bodyOf hbody _
  | @branch path i d depth step others inner components before after h hbranches ih =>
    rw [List.append_assoc, List.append_assoc]
    show findSteps (path ++ .pathStep (i + 0) :: components _ :: _) plan = _
    rw [ih, findSteps, Nat.zero_add]
    exact findInStep_of_branchesOf hbranches _

/-- A step is the one at its path. -/
theorem stepAtPath_eq (h : Node plan path d depth step) : stepAtPath plan path = some step := by
  obtain ⟨above, i, rest, rfl, hremaining⟩ := h
  show findSteps (above ++ .pathStep (i + 0) :: []) plan = _
  rw [findSteps_of_remaining hremaining, findSteps]
  rfl

theorem remaining_getElem? (h : Remaining plan path i d depth steps) {k : ℕ}
    (hstep : steps[k]? = some step) :
    ∃ d' rest, Remaining plan path (i + k) d' depth (step :: rest) := by
  induction k generalizing i d steps with
  | zero =>
    obtain ⟨rest, rfl⟩ := List.head?_eq_some_iff.mp (List.head?_eq_getElem? ▸ hstep)
    exact ⟨d, rest, h⟩
  | succ k ih =>
    cases steps with
    | nil => exact absurd hstep (by rw [List.getElem?_nil]; exact Option.some_ne_none _ ∘ Eq.symm)
    | cons first rest =>
      rw [List.getElem?_cons_succ] at hstep
      obtain ⟨d', others, hremaining⟩ := ih h.next hstep
      exact ⟨d', others, by rwa [show i + (k + 1) = i + 1 + k by omega]⟩

theorem exists_append_of_nthFromOne {inner : List Step} (h : nthFromOne n bodies = some inner) :
    ∃ before after, bodies = before ++ inner :: after ∧ n = before.length + 1 := by
  unfold nthFromOne at h
  split at h
  · exact absurd h.symm (Option.some_ne_none _)
  case isFalse hzero =>
    obtain ⟨hlt, hget⟩ := List.getElem?_eq_some_iff.mp h
    refine ⟨bodies.take (n - 1), bodies.drop (n - 1 + 1), ?_, ?_⟩
    · rw [← hget, List.getElem_cons_drop, List.take_append_drop]
    · rw [List.length_take_of_le hlt.le]
      omega

/-- What is found below a step is found in its body or in one of its branches. -/
theorem findInStep_cases {rest : ProofPath} {found : Step}
    (h : findInStep (component :: rest) step = some found) :
    (∃ body, BodyOf step component body ∧ findSteps rest body = some found) ∨
      ∃ components before inner after, BranchesOf step components (before ++ inner :: after) ∧
        component = components (before.length + 1) ∧ findSteps rest inner = some found := by
  cases step with
  | stepEach span body =>
    cases component with
    | pathEach n =>
      rw [findInStep] at h
      exact Or.inl ⟨body, .each span body n, h⟩
    | _ => exact absurd h.symm (Option.some_ne_none found)
  | stepSelect span selector mode body =>
    cases component with
    | pathSelect =>
      rw [findInStep] at h
      exact Or.inl ⟨body, .select span selector mode body, h⟩
    | _ => exact absurd h.symm (Option.some_ne_none found)
  | stepRepeat span body =>
    cases component with
    | pathRepeat n =>
      rw [findInStep] at h
      exact Or.inl ⟨body, .repeats span body n, h⟩
    | _ => exact absurd h.symm (Option.some_ne_none found)
  | stepTry span body =>
    cases component with
    | pathTry =>
      rw [findInStep] at h
      exact Or.inl ⟨body, .tries span body, h⟩
    | _ => exact absurd h.symm (Option.some_ne_none found)
  | stepCases span cases =>
    cases component with
    | pathCase n =>
      rw [findInStep] at h
      cases hnth : nthFromOne n cases with
      | none =>
        rw [hnth] at h
        exact absurd h.symm (Option.some_ne_none found)
      | some inner =>
        rw [hnth] at h
        obtain ⟨before, after, rfl, rfl⟩ := exists_append_of_nthFromOne hnth
        exact Or.inr ⟨_, before, inner, after, .cases span _, rfl, h⟩
    | _ => exact absurd h.symm (Option.some_ne_none found)
  | stepChoice span label alternatives =>
    cases component with
    | pathAlternative n =>
      rw [findInStep] at h
      cases hnth : nthFromOne n alternatives with
      | none =>
        rw [hnth] at h
        exact absurd h.symm (Option.some_ne_none found)
      | some inner =>
        rw [hnth] at h
        obtain ⟨before, after, rfl, rfl⟩ := exists_append_of_nthFromOne hnth
        exact Or.inr ⟨_, before, inner, after, .choice span label _, rfl, h⟩
    | _ => exact absurd h.symm (Option.some_ne_none found)
  | _ => cases component <;> exact absurd h.symm (Option.some_ne_none found)

/-- A path of a plan leads to a numbered step. -/
theorem node_of_findSteps {found : Step} (h : Remaining plan path 0 d depth steps)
    (hfound : findSteps target steps = some found) :
    ∃ d' depth', Node plan (path ++ target) d' depth' found := by
  induction hlength : target.length using Nat.strong_induction_on
    generalizing path d depth steps target with
  | h length ih =>
    match target, hfound with
    | [.pathStep i], hfound =>
      rw [findSteps] at hfound
      obtain ⟨d', rest, hstep⟩ := remaining_getElem? h hfound
      rw [Nat.zero_add] at hstep
      exact ⟨d', depth, path, i, rest, rfl, hstep⟩
    | .pathStep i :: component :: rest, hfound =>
      rw [findSteps] at hfound
      cases hget : steps[i]? with
      | none =>
        rw [hget] at hfound
        exact absurd hfound.symm (Option.some_ne_none found)
      | some step =>
        rw [hget] at hfound
        obtain ⟨d', others, hstep⟩ := remaining_getElem? h hget
        rw [Nat.zero_add] at hstep
        have hlt : rest.length < length := by
          rw [← hlength, List.length_cons, List.length_cons]
          omega
        have hpath : path ++ .pathStep i :: component :: rest =
            path ++ [.pathStep i] ++ [component] ++ rest := by
          simp only [List.append_assoc, List.cons_append, List.nil_append]
        rw [hpath]
        rcases findInStep_cases hfound with ⟨body, hbody, hbelow⟩ |
          ⟨components, before, inner, after, hbranches, rfl, hbelow⟩
        · exact ih rest.length hlt (hstep.body hbody) hbelow rfl
        · exact ih rest.length hlt (hstep.branch hbranches) hbelow rfl

theorem node_of_stepAtPath (h : stepAtPath plan path = some step) :
    ∃ d depth, Node plan path d depth step :=
  node_of_findSteps .start h

/-! ### The lines of the printed text -/

/-- An entry that is one line of text. -/
def OneLine (entry : Text) : Prop := ∃ text, entry = text ++ ['\n'] ∧ '\n' ∉ text

theorem newline_notMem_decimal (n : ℕ) : '\n' ∉ decimal n := fun hmem ↦
  absurd (isDigit_of_mem_decimal hmem) (by decide)

theorem oneLine_line {text : Text} (h : '\n' ∉ text) : OneLine (line i depth text) := by
  refine ⟨_, rfl, ?_⟩
  have hindex : '\n' ∉ formatIndex i := by
    rw [formatIndex]
    split
    · rw [List.mem_cons, not_or]
      exact ⟨by decide, newline_notMem_decimal i⟩
    · exact newline_notMem_decimal i
  have hindent : '\n' ∉ indent depth := by
    intro hmem
    obtain ⟨spaces, hspaces, hin⟩ := List.mem_flatten.mp hmem
    rw [List.eq_of_mem_replicate hspaces] at hin
    exact absurd hin (by decide)
  rw [List.mem_append, List.mem_append, List.mem_append, List.mem_append]
  rintro ((((hstart | hnumber) | hspace) | hdeeper) | htext)
  · exact absurd hstart (by decide)
  · exact hindex hnumber
  · exact absurd hspace (by decide)
  · exact hindent hdeeper
  · exact h htext

theorem oneLine_blockLines {head : Text} {inner : ℕ × List Text} (hhead : '\n' ∉ head)
    (h : ∀ entry ∈ inner.2, OneLine entry) :
    ∀ entry ∈ (blockLines i depth head inner).2, OneLine entry := by
  intro entry hentry
  rcases List.mem_append.mp hentry with hentry | hentry
  · rcases List.mem_cons.mp hentry with rfl | hentry
    · exact oneLine_line hhead
    · exact h entry hentry
  · rw [List.mem_singleton.mp hentry]
    exact oneLine_line (by decide)

theorem branchesLineCount_concat :
    branchesLineCount (before ++ [body]) =
      branchesLineCount before + 1 + displayLineCountList body := by
  induction before with
  | nil =>
    rw [List.nil_append, branchesLineCount_cons, branchesLineCount_nil]
    omega
  | cons first before ih =>
    rw [List.cons_append, branchesLineCount_cons, branchesLineCount_cons, ih]
    omega

/-- No step of the plan says more than a line. -/
def OneLineHeads (plan : List Step) : Prop :=
  ∀ path d depth step, Node plan path d depth step → '\n' ∉ headText step

mutual

/-- Where no step says more than a line, each entry is a line. -/
theorem oneLine_stepsLines (hplain : OneLineHeads plan) (path : ProofPath) (i d depth : ℕ)
    (steps : List Step) (h : Remaining plan path i d depth steps) :
    ∀ entry ∈ (stepsLines d depth steps).2, OneLine entry := by
  cases steps with
  | nil =>
    intro entry hentry
    rw [stepsLines] at hentry
    exact absurd hentry List.not_mem_nil
  | cons step rest =>
    intro entry hentry
    rw [stepsLines] at hentry
    rcases List.mem_append.mp hentry with hentry | hentry
    · exact oneLine_stepLines hplain path i d depth step rest h entry hentry
    · have hnext := h.next
      rw [← (counted_stepLines d depth step).1] at hnext
      exact oneLine_stepsLines hplain path (i + 1) _ depth rest hnext entry hentry

theorem oneLine_stepLines (hplain : OneLineHeads plan) (path : ProofPath) (i d depth : ℕ)
    (step : Step) (rest : List Step)
    (h : Remaining plan path i d depth (step :: rest)) :
    ∀ entry ∈ (stepLines d depth step).2, OneLine entry := by
  have hhead := hplain (path ++ [.pathStep i]) d depth step ⟨path, i, rest, rfl, h⟩
  cases step with
  | stepTactic span label program =>
    rw [stepLines]
    exact List.forall_mem_singleton.mpr (oneLine_line hhead)
  | stepList span label program =>
    rw [stepLines]
    exact List.forall_mem_singleton.mpr (oneLine_line hhead)
  | stepEach span body =>
    rw [stepLines]
    exact oneLine_blockLines hhead
      (oneLine_stepsLines hplain _ 0 (d + 1) (depth + 1) body (h.body (.each span body 0)))
  | stepSelect span selector mode body =>
    rw [stepLines]
    exact oneLine_blockLines hhead
      (oneLine_stepsLines hplain _ 0 (d + 1) (depth + 1) body (h.body (.select span selector mode body)))
  | stepRepeat span body =>
    rw [stepLines]
    exact oneLine_blockLines hhead
      (oneLine_stepsLines hplain _ 0 (d + 1) (depth + 1) body (h.body (.repeats span body 0)))
  | stepTry span body =>
    rw [stepLines]
    exact oneLine_blockLines hhead
      (oneLine_stepsLines hplain _ 0 (d + 1) (depth + 1) body (h.body (.tries span body)))
  | stepCases span cases =>
    rw [stepLines]
    exact oneLine_blockLines hhead (oneLine_branchLines hplain path i d depth _ rest h .pathCase
      "case ".toList (by decide) [] 1 cases (.cases span cases))
  | stepChoice span label alternatives =>
    rw [stepLines]
    exact oneLine_blockLines hhead (oneLine_branchLines hplain path i d depth _ rest h .pathAlternative
      "alternative ".toList (by decide) [] 1 alternatives (.choice span label alternatives))

theorem oneLine_branchLines (hplain : OneLineHeads plan) (path : ProofPath) (i d depth : ℕ)
    (step : Step) (rest : List Step)
    (h : Remaining plan path i d depth (step :: rest)) (components : ℕ → PathComponent) (name : Text)
    (hname : '\n' ∉ name) (before : List (List Step)) (n : ℕ) (bodies : List (List Step))
    (hbranches : BranchesOf step components (before ++ bodies)) :
    ∀ entry ∈ (branchLines name depth n (d + 1 + branchesLineCount before) bodies).2,
      OneLine entry := by
  cases bodies with
  | nil =>
    intro entry hentry
    rw [branchLines] at hentry
    exact absurd hentry List.not_mem_nil
  | cons body bodies =>
    intro entry hentry
    rw [branchLines] at hentry
    rcases List.mem_append.mp hentry with hentry | hentry
    · rcases List.mem_cons.mp hentry with rfl | hentry
      · refine oneLine_line fun hmem ↦ ?_
        rcases List.mem_append.mp hmem with hmem | hmem
        · exact hname hmem
        · exact newline_notMem_decimal n hmem
      · exact oneLine_stepsLines hplain _ 0 _ (depth + 2) body (h.branch hbranches) entry hentry
    · have hstart : (stepsLines (d + 1 + branchesLineCount before + 1) (depth + 2) body).1 =
          d + 1 + branchesLineCount (before ++ [body]) := by
        rw [(counted_stepsLines _ (depth + 2) body).1, branchesLineCount_concat]
        omega
      rw [hstart] at hentry
      exact oneLine_branchLines hplain path i d depth step rest h components name hname
        (before ++ [body]) (n + 1) bodies (by rw [List.append_assoc]; exact hbranches) entry hentry

end

/-- Where no step says more than a line, the lines of the printed text are its entries. -/
theorem oneLine_planEntries
    (h : ∀ path step, stepAtPath plan path = some step → '\n' ∉ headText step) :
    ∀ entry ∈ planEntries plan, OneLine entry :=
  oneLine_stepsLines (fun path _ _ step hnode ↦ h path step (stepAtPath_eq hnode)) [] 0 0 0 plan .start

end

end Holbuild.ProofRuntime
