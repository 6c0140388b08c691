import Holbuild.BuildPlan.Invalidation

/-!
# Where invalidation is exact

The text of a node's extra-input lines is the same for the same extra inputs
(`SameInputs.inputText_eq`), but it tells different ones apart only where no file name has a newline
(`visible_of_differs`): a name can hold the line of another file. Invalidation is exact where every
difference shows in the lines of a node that needs the changed one (`invalidation_exact_iff`).
-/

set_option autoImplicit false
set_option relaxedAutoImplicit false

namespace Holbuild.BuildPlan

open Library Relation

namespace KeyContext

variable {c c' : KeyContext} {node : Node}

/-! ### Extra inputs and the lines that render them -/

/-- The files a declaration names, each with its content. -/
def declFiles (c : KeyContext) (decl : InputDecl) : Except PlanError (List (Text × Text)) := do
  let expansion ← expandExtraDepWalk c.root decl.base decl.decl
  expansion.files.mapM fun file ↦
    match c.root.content file.2 with
    | some content => .ok (file.1, content)
    | none => .error (.rejected ("extra dependency not found: ".toList ++ file.2))

/-- Each declaration of a node names the same files with the same contents, in any order. -/
def SameInputs (c c' : KeyContext) (node : Node) : Prop :=
  ∀ decl ∈ c.extraInputDecls node, ∃ files files', c.declFiles decl = .ok files ∧
    c'.declFiles decl = .ok files' ∧ files.Perm files'

/-- Two plans differ at a node: in the hash of its source or in its extra inputs. -/
def Differs (c c' : KeyContext) (node : Node) : Prop :=
  c.sourceHash node ≠ c'.sourceHash node ∨ ¬ SameInputs c c' node

/-- A file's line: its name and the hash of its content. -/
def fileLine (c : KeyContext) (file : Text × Text) : Text := file.1 ++ '@' :: c.hash file.2

/-- The lines of a declaration that names these files. -/
def linesOf (c : KeyContext) (decl : InputDecl) (files : List (Text × Text)) : List Text :=
  (decl.label ++ "_decl=".toList ++ decl.decl) ::
    (sortStrings (files.map c.fileLine)).map fun line ↦ decl.label ++ '=' :: line

/-- The lines of a declaration are those of its files, sorted, after one for the declaration. -/
theorem declLines_eq_ok_iff {decl : InputDecl} {lines : List Text} :
    c.declLines decl = .ok lines ↔ ∃ files, c.declFiles decl = .ok files ∧
      lines = c.linesOf decl files := by
  have hhash : ∀ (file : Text × Text) (content : Text), c.root.content file.2 = some content →
      c.inputHash file.2 = .ok (c.hash content) := by
    intro file content hcontent
    rw [inputHash, hcontent]
  constructor
  · intro h
    obtain ⟨expansion, hexpansion, h⟩ := bind_eq_ok_iff.mp h
    obtain ⟨hashed, hhashed, h⟩ := bind_eq_ok_iff.mp h
    have hcontent : ∀ file ∈ expansion.files, ∃ content, c.root.content file.2 = some content := by
      intro file hfile
      obtain ⟨line, -, hline⟩ := exists_result_of_mem hhashed hfile
      obtain ⟨hash, hhash, -⟩ := bind_eq_ok_iff.mp hline
      unfold inputHash at hhash
      split at hhash
      next content hfound => exact ⟨content, hfound⟩
      next => cases hhash
    choose! content hcontent using hcontent
    refine ⟨expansion.files.map fun file ↦ (file.1, content file), ?_, ?_⟩
    · refine bind_eq_ok_iff.mpr ⟨expansion, hexpansion, mapM_eq_ok fun file hfile ↦ ?_⟩
      rw [hcontent file hfile]
    · have hmap : (expansion.files.mapM fun file ↦ do
          let hash ← c.inputHash file.2
          .ok (file.1 ++ '@' :: hash)) =
            .ok (expansion.files.map fun file ↦ c.fileLine (file.1, content file)) := by
        refine mapM_eq_ok fun file hfile ↦ ?_
        rw [hhash file _ (hcontent file hfile)]
        rfl
      rw [hmap, Except.ok.injEq] at hhashed
      rw [← Except.ok.inj h, ← hhashed, linesOf, List.map_map]
      rfl
  · rintro ⟨files, hfiles, rfl⟩
    obtain ⟨expansion, hexpansion, hfiles⟩ := bind_eq_ok_iff.mp hfiles
    have hcontent : ∀ file ∈ expansion.files, ∃ content, c.root.content file.2 = some content := by
      intro file hfile
      obtain ⟨named, -, hnamed⟩ := exists_result_of_mem hfiles hfile
      split at hnamed
      next content hfound => exact ⟨content, hfound⟩
      next => cases hnamed
    choose! content hcontent using hcontent
    have hmap : (expansion.files.mapM fun file ↦
        match c.root.content file.2 with
        | some content => Except.ok (file.1, content)
        | none => .error (PlanError.rejected ("extra dependency not found: ".toList ++ file.2))) =
          .ok (expansion.files.map fun file ↦ (file.1, content file)) := by
      refine mapM_eq_ok fun file hfile ↦ ?_
      rw [hcontent file hfile]
    rw [hmap, Except.ok.injEq] at hfiles
    have hhashed : (expansion.files.mapM fun file ↦ do
        let hash ← c.inputHash file.2
        .ok (file.1 ++ '@' :: hash)) =
          .ok (expansion.files.map fun file ↦ c.fileLine (file.1, content file)) := by
      refine mapM_eq_ok fun file hfile ↦ ?_
      rw [hhash file _ (hcontent file hfile)]
      rfl
    refine bind_eq_ok_iff.mpr ⟨expansion, hexpansion, bind_eq_ok_iff.mpr ⟨_, hhashed, ?_⟩⟩
    rw [← hfiles, linesOf, List.map_map]
    rfl

theorem SameShape.extraInputDecls_eq (hsame : SameShape c c') (hnode : node ∈ c.plan.selected) :
    c'.extraInputDecls node = c.extraInputDecls node := by
  rw [extraInputDecls, extraInputDecls, hsame.extraDeps node hnode]

theorem SameShape.fileLine_eq (hsame : SameShape c c') : c'.fileLine = c.fileLine := by
  ext1 file
  rw [fileLine, fileLine, hsame.hash]

/-- The same extra inputs give the same lines. -/
theorem SameInputs.extraInputLines_eq (hsame : SameShape c c') (hnode : node ∈ c.plan.selected)
    (h : SameInputs c c' node) : c'.extraInputLines node = c.extraInputLines node := by
  have hdecl : ∀ decl ∈ c.extraInputDecls node, ∃ lines, c.declLines decl = .ok lines ∧
      c'.declLines decl = .ok lines := by
    intro decl hdecl
    obtain ⟨files, files', hfiles, hfiles', hperm⟩ := h decl hdecl
    refine ⟨_, declLines_eq_ok_iff.mpr ⟨files, hfiles, rfl⟩,
      declLines_eq_ok_iff.mpr ⟨files', hfiles', ?_⟩⟩
    rw [linesOf, linesOf, hsame.fileLine_eq, sortStrings_eq_iff.mpr (hperm.map c.fileLine)]
  choose! lines hlines hlines' using hdecl
  rw [extraInputLines, extraInputLines, hsame.extraInputDecls_eq hnode, mapM_eq_ok hlines,
    mapM_eq_ok hlines']

/-- The nodes a selected node needs are selected. -/
theorem mem_of_reflTransGen {plan : Plan} {node m : Node} (hnode : node ∈ plan.selected)
    (h : ReflTransGen plan.DependsOn node m) : m ∈ plan.selected := by
  rcases ReflTransGen.cases_tail h with rfl | ⟨last, -, hlast⟩
  · exact hnode
  · exact hlast.2.1

/-- A difference that an action text shows is one. -/
theorem Visible.differs (hsame : SameShape c c') (hnode : node ∈ c.plan.selected)
    (h : Visible c c' node) : Differs c c' node := by
  rcases h with hsource | hinput
  · exact .inl hsource
  · refine .inr fun hsameInputs ↦ hinput ?_
    rw [inputText, inputText, hsameInputs.extraInputLines_eq hsame hnode]

/-! ### Names without newlines -/

/-- The labels of extra-input declarations. -/
def labels : List Text := ["extra_dep".toList, "source_extra_dep".toList]

theorem label_mem_labels {decl : InputDecl} (h : decl ∈ c.extraInputDecls node) :
    decl.label ∈ labels := by
  rw [extraInputDecls, List.mem_append, List.mem_map, List.mem_map] at h
  rcases h with ⟨path, -, rfl⟩ | ⟨path, -, rfl⟩
  · exact List.mem_cons_self
  · exact List.mem_cons_of_mem _ List.mem_cons_self

/-- The first line of a declaration is no line of a file. -/
theorem declLine_ne_fileLine {label label' x y : Text} (hlabel : label ∈ labels)
    (hlabel' : label' ∈ labels) : label ++ '=' :: x ≠ label' ++ "_decl=".toList ++ y := by
  simp only [labels, List.mem_cons, List.not_mem_nil, or_false] at hlabel hlabel'
  rcases hlabel with rfl | rfl <;> rcases hlabel' with rfl | rfl <;> simp

/-- What follows the lines of a declaration's files: nothing, or the next declaration. -/
def NextDecl (text : Text) : Prop :=
  text = [] ∨ ∃ label ∈ labels, ∃ rest, text = label ++ "_decl=".toList ++ rest

/-- The lines of files before the next declaration can be read back. -/
theorem fileLines_inj {label : Text} (hlabel : label ∈ labels) {lines : List Text} :
    ∀ {lines' : List Text} {x y : Text}, NextDecl x → NextDecl y →
      (∀ line ∈ lines, '\n' ∉ label ++ '=' :: line) → (∀ line ∈ lines', '\n' ∉ label ++ '=' :: line) →
      terminated (lines.map fun line ↦ label ++ '=' :: line) ++ x =
        terminated (lines'.map fun line ↦ label ++ '=' :: line) ++ y → lines = lines' ∧ x = y := by
  have hnext : ∀ {line : Text} {rest z : Text}, NextDecl z →
      z ≠ terminated (((label ++ '=' :: line) :: [])) ++ rest := by
    rintro line rest z (rfl | ⟨label', hlabel', rest', rfl⟩) h
    · simp at h
    · simp only [terminated_cons, terminated_nil, List.append_assoc, List.cons_append] at h
      rw [← List.append_assoc] at h
      exact declLine_ne_fileLine hlabel hlabel' h.symm
  induction lines with
  | nil =>
    intro lines' x y hx _ _ _ h
    cases lines' with
    | nil => exact ⟨rfl, h⟩
    | cons line' rest' =>
      refine absurd (h.trans ?_) (@hnext line'
        (terminated (rest'.map fun line ↦ label ++ '=' :: line) ++ y) x hx)
      simp
  | cons line rest ih =>
    intro lines' x y hx hy hlines hlines' h
    cases lines' with
    | nil =>
      refine absurd (h.symm.trans ?_) (@hnext line
        (terminated (rest.map fun line ↦ label ++ '=' :: line) ++ x) y hy)
      simp
    | cons line' rest' =>
      have hsplit : (label ++ '=' :: line) ++
          '\n' :: (terminated (rest.map fun line ↦ label ++ '=' :: line) ++ x) =
            (label ++ '=' :: line') ++
              '\n' :: (terminated (rest'.map fun line ↦ label ++ '=' :: line) ++ y) := by
        simpa using h
      obtain ⟨hsame, hrest⟩ := append_sep_inj (hlines line List.mem_cons_self)
        (hlines' line' List.mem_cons_self) hsplit
      obtain ⟨rfl, hxy⟩ := ih hx hy (fun l hl ↦ hlines l (List.mem_cons_of_mem _ hl))
        (fun l hl ↦ hlines' l (List.mem_cons_of_mem _ hl)) hrest
      obtain rfl : line = line' := by simpa using hsame
      exact ⟨rfl, hxy⟩

/-- The lines of declarations, the first declaration's apart. -/
theorem terminated_linesOf_cons (decl : InputDecl) (rest : List InputDecl)
    (files : InputDecl → List (Text × Text)) :
    terminated ((decl :: rest).map fun decl ↦ c.linesOf decl (files decl)).flatten =
      decl.label ++ "_decl=".toList ++ (decl.decl ++ '\n' ::
        (terminated ((sortStrings ((files decl).map c.fileLine)).map fun line ↦
          decl.label ++ '=' :: line) ++
          terminated (rest.map fun decl ↦ c.linesOf decl (files decl)).flatten)) := by
  simp [linesOf]

/-- Assumes: files whose names have no newline. The lines of declarations tell their files, up to their
order. -/
theorem perm_of_terminated_eq (hhash : HexInjective c.hash) {decls : List InputDecl}
    (hlabels : ∀ decl ∈ decls, decl.label ∈ labels) {files files' : InputDecl → List (Text × Text)}
    (hnames : ∀ decl ∈ decls, ∀ file ∈ files decl, '\n' ∉ file.1)
    (hnames' : ∀ decl ∈ decls, ∀ file ∈ files' decl, '\n' ∉ file.1)
    (h : terminated (decls.map fun decl ↦ c.linesOf decl (files decl)).flatten =
      terminated (decls.map fun decl ↦ c.linesOf decl (files' decl)).flatten) :
    ∀ decl ∈ decls, (files decl).Perm (files' decl) := by
  have hnext : ∀ (decls : List InputDecl) (files : InputDecl → List (Text × Text)),
      (∀ decl ∈ decls, decl.label ∈ labels) →
      NextDecl (terminated (decls.map fun decl ↦ c.linesOf decl (files decl)).flatten) := by
    intro decls files hlabels
    cases decls with
    | nil => exact .inl rfl
    | cons decl rest =>
      exact .inr ⟨decl.label, hlabels decl List.mem_cons_self, _, terminated_linesOf_cons _ _ _⟩
  have hline : ∀ (decl : InputDecl) (files : List (Text × Text)), decl.label ∈ labels →
      (∀ file ∈ files, '\n' ∉ file.1) → ∀ line ∈ sortStrings (files.map c.fileLine),
        '\n' ∉ decl.label ++ '=' :: line := by
    intro decl files hlabel hfiles line hmem
    obtain ⟨file, hfile, rfl⟩ :=
      List.mem_map.mp ((sortStrings_spec (files.map c.fileLine)).1.mem_iff.mp hmem)
    have hlabelLine : '\n' ∉ decl.label := by
      simp only [labels, List.mem_cons, List.not_mem_nil, or_false] at hlabel
      rcases hlabel with hlabel | hlabel <;> rw [hlabel] <;> decide
    simp only [fileLine, List.mem_append, List.mem_cons, not_or]
    exact ⟨hlabelLine, by decide, hfiles file hfile, by decide, hhash.newline_notMem _⟩
  have hinjective : Function.Injective c.fileLine := by
    intro a b hab
    obtain ⟨hname, hcontent⟩ :=
      append_sep_inj_right (hhash.at_notMem a.2) (hhash.at_notMem b.2) hab
    exact Prod.ext hname (hhash.injective hcontent)
  induction decls with
  | nil => exact fun decl hdecl ↦ absurd hdecl List.not_mem_nil
  | cons decl rest ih =>
    have hlabel := hlabels decl List.mem_cons_self
    have hrestLabels : ∀ decl ∈ rest, decl.label ∈ labels :=
      fun d hd ↦ hlabels d (List.mem_cons_of_mem _ hd)
    rw [terminated_linesOf_cons, terminated_linesOf_cons, List.append_right_inj,
      List.append_right_inj, List.cons.injEq] at h
    obtain ⟨hlines, hrest⟩ := fileLines_inj hlabel (hnext rest files hrestLabels)
      (hnext rest files' hrestLabels) (hline decl _ hlabel (hnames decl List.mem_cons_self))
      (hline decl _ hlabel (hnames' decl List.mem_cons_self)) h.2
    intro d hd
    rcases List.mem_cons.mp hd with rfl | hd
    · exact (List.map_perm_map_iff hinjective).mp (sortStrings_eq_iff.mp hlines)
    · exact ih hrestLabels (fun d hd ↦ hnames d (List.mem_cons_of_mem _ hd))
        (fun d hd ↦ hnames' d (List.mem_cons_of_mem _ hd)) hrest d hd

/-- The extra inputs of a node have no newline in their names. -/
def NewlineFree (c : KeyContext) (node : Node) : Prop :=
  ∀ decl ∈ c.extraInputDecls node, ∀ files, c.declFiles decl = .ok files →
    ∀ file ∈ files, '\n' ∉ file.1

/-- Assumes: extra inputs without newlines in their names. Every difference of a node shows in its
action text. -/
theorem visible_of_differs (hsame : SameShape c c') (hhash : HexInjective c.hash)
    (hnode : node ∈ c.plan.selected) (hfree : c.NewlineFree node) (hfree' : c'.NewlineFree node)
    {lines lines' : List Text} (hlines : c.extraInputLines node = .ok lines)
    (hlines' : c'.extraInputLines node = .ok lines') (h : Differs c c' node) : Visible c c' node := by
  by_contra hvisible
  rw [Visible, not_or, not_not, not_not] at hvisible
  refine h.elim (fun hsource ↦ hsource hvisible.1) fun hinputs ↦ hinputs ?_
  rw [inputText, inputText, hlines, hlines'] at hvisible
  obtain ⟨declared, hdeclared, hflat⟩ := bind_eq_ok_iff.mp hlines
  obtain ⟨declared', hdeclared', hflat'⟩ := bind_eq_ok_iff.mp hlines'
  rw [hsame.extraInputDecls_eq hnode] at hdeclared'
  have hfiles : ∀ decl ∈ c.extraInputDecls node, ∃ files, c.declFiles decl = .ok files ∧
      c.declLines decl = .ok (c.linesOf decl files) := by
    intro decl hdecl
    obtain ⟨lines, -, hok⟩ := exists_result_of_mem hdeclared hdecl
    obtain ⟨files, hfiles, heq⟩ := declLines_eq_ok_iff.mp hok
    exact ⟨files, hfiles, heq ▸ hok⟩
  have hfiles' : ∀ decl ∈ c.extraInputDecls node, ∃ files, c'.declFiles decl = .ok files ∧
      c'.declLines decl = .ok (c.linesOf decl files) := by
    intro decl hdecl
    obtain ⟨lines, -, hok⟩ := exists_result_of_mem hdeclared' hdecl
    obtain ⟨files, hfiles, heq⟩ := declLines_eq_ok_iff.mp hok
    have hsameLines : c'.linesOf decl files = c.linesOf decl files := by
      rw [linesOf, linesOf, hsame.fileLine_eq]
    exact ⟨files, hfiles, hsameLines ▸ heq ▸ hok⟩
  choose! files hfiles hfilesLines using hfiles
  choose! files' hfiles' hfilesLines' using hfiles'
  rw [mapM_eq_ok hfilesLines, Except.ok.injEq] at hdeclared
  rw [mapM_eq_ok hfilesLines', Except.ok.injEq] at hdeclared'
  have htext : terminated ((c.extraInputDecls node).map fun decl ↦ c.linesOf decl (files decl)).flatten =
      terminated ((c.extraInputDecls node).map fun decl ↦ c.linesOf decl (files' decl)).flatten := by
    rw [hdeclared, hdeclared', Except.ok.inj hflat, Except.ok.inj hflat']
    exact Except.ok.inj hvisible.2
  have hperm := perm_of_terminated_eq hhash (fun decl hdecl ↦ label_mem_labels hdecl)
    (fun decl hdecl ↦ hfree decl hdecl _ (hfiles decl hdecl))
    (fun decl hdecl ↦ hfree' decl (hsame.extraInputDecls_eq hnode ▸ hdecl) _ (hfiles' decl hdecl))
    htext
  exact fun decl hdecl ↦ ⟨_, _, hfiles decl hdecl, hfiles' decl hdecl, hperm decl hdecl⟩

/-! ### Exact invalidation -/

/-- The shape of well-formed plans is well formed. -/
theorem SameShape.wellFormed (hsame : SameShape c c') (hplan : c.plan.WellFormed) :
    c'.plan.WellFormed := by
  obtain ⟨hkeys, hindex, hordered⟩ := hplan
  rw [hsame.selected] at hkeys hindex hordered
  rw [hsame.keyIndex] at hindex
  rw [hsame.dependencyGraph] at hordered
  exact ⟨hkeys, hindex, hordered⟩

/-- The keys of a node differ exactly when something it needs, itself included, shows a difference. -/
theorem keys_ne_iff (hplan : c.plan.WellFormed) (hsame : SameShape c c')
    (hhash : HexInjective c.hash) {cache cache' out out' : KeyCache} {keys keys' : InputKeys}
    (hvouched : c.Vouched cache) (hvouched' : c'.Vouched cache')
    (hrun : c.computeInputKeysWith cache = .ok (keys, out))
    (hrun' : c'.computeInputKeysWith cache' = .ok (keys', out')) (hnode : node ∈ c.plan.selected) :
    keys node.key ≠ keys' node.key ↔
      ∃ m, ReflTransGen c.plan.DependsOn node m ∧ Visible c c' m := by
  have hcomputed := (computeInputKeysWith_spec hplan hvouched hrun).2
  have hcomputed' := (computeInputKeysWith_spec (hsame.wellFormed hplan) hvouched' hrun').2
  rw [← hsame.selected] at hcomputed'
  rw [Ne, keys_eq_iff hplan hsame hhash hcomputed hcomputed' node hnode]
  simp only [not_forall, not_not, exists_prop]

/-- Assumes: two plans of one shape, an injective hash, vouched known keys, that both computations end,
and that no extra input has a newline in its name. Invalidation is exact. -/
theorem invalidation_exact_of_newlineFree (hplan : c.plan.WellFormed) (hsame : SameShape c c')
    (hhash : HexInjective c.hash) {cache cache' out out' : KeyCache} {keys keys' : InputKeys}
    (hvouched : c.Vouched cache) (hvouched' : c'.Vouched cache')
    (hrun : c.computeInputKeysWith cache = .ok (keys, out))
    (hrun' : c'.computeInputKeysWith cache' = .ok (keys', out'))
    (hfree : ∀ node ∈ c.plan.selected, c.NewlineFree node ∧ c'.NewlineFree node) :
    ∀ node ∈ c.plan.selected, keys node.key ≠ keys' node.key ↔
      ∃ m, ReflTransGen c.plan.DependsOn node m ∧ Differs c c' m := by
  intro node hnode
  rw [keys_ne_iff hplan hsame hhash hvouched hvouched' hrun hrun' hnode]
  refine exists_congr fun m ↦ and_congr_right fun hreach ↦ ?_
  have hm := mem_of_reflTransGen hnode hreach
  obtain ⟨-, lines, -, -, hlines, -⟩ := (computeInputKeysWith_spec hplan hvouched hrun).2 m hm
  obtain ⟨-, lines', -, -, hlines', -⟩ :=
    (computeInputKeysWith_spec (hsame.wellFormed hplan) hvouched' hrun').2 m (hsame.selected ▸ hm)
  exact ⟨fun h ↦ h.differs hsame hm,
    visible_of_differs hsame hhash hm (hfree m hm).1 (hfree m hm).2 hlines hlines'⟩

/-! ### A name that holds the line of another file -/

/-- Writes each character's number in base ten, ended by a letter. -/
def sampleHash (text : Text) : Text := text.flatMap fun ch ↦ decimal ch.toNat ++ ['a']

theorem isDigit_ne {ch : Char} (h : ch.isDigit) : ch ≠ 'a' := by
  rintro rfl
  exact absurd h (by decide)

theorem sampleHash_injective : Function.Injective sampleHash := by
  intro x
  induction x with
  | nil =>
    intro y h
    cases y with
    | nil => rfl
    | cons d y => simp [sampleHash] at h
  | cons ch x ih =>
    intro y h
    cases y with
    | nil => simp [sampleHash] at h
    | cons d y =>
      have hsplit : decimal ch.toNat ++ 'a' :: sampleHash x =
          decimal d.toNat ++ 'a' :: sampleHash y := by
        simpa [sampleHash] using h
      have hdigits : ∀ n, 'a' ∉ decimal n := fun n hmem ↦ isDigit_ne (isDigit_of_mem_decimal hmem) rfl
      obtain ⟨hnumber, hrest⟩ := append_sep_inj (hdigits _) (hdigits _) hsplit
      rw [Char.toNat_inj.mp (decimal_injective hnumber), ih hrest]

theorem hexInjective_sampleHash : HexInjective sampleHash := by
  refine ⟨sampleHash_injective, fun text ch hch ↦ ?_⟩
  obtain ⟨written, -, hwritten⟩ := List.mem_flatMap.mp hch
  rcases List.mem_append.mp hwritten with hdigit | hletter
  · rw [isHexDigit, isDigit_of_mem_decimal hdigit]
    rfl
  · rw [List.mem_singleton.mp hletter]
    decide

/-- A theory script of a package that declares the files under `data` as extra inputs. -/
def sampleNode : Node :=
  ⟨⟨"n".toList, "p".toList, "/p".toList, .theoryScript, "aTheory".toList, "/p/aScript.sml".toList,
    "aScript.sml".toList, ⟨[], [], ["data".toList], true, false⟩⟩, []⟩

/-- The plan that selects it. -/
def samplePlan : Plan where
  nodes := [sampleNode]
  roots := [sampleNode]
  selected := [sampleNode]
  dependencyGraph :=
    ⟨[(sampleNode.key, [⟨sampleNode.key, "data".toList, .declaredExtraInput⟩])], [(sampleNode.key, [])],
      [(sampleNode.key, [⟨sampleNode.key, "data".toList, .externalInput, .declaredExtraInput⟩])],
      [(sampleNode.key, [])], [(sampleNode.key, [])]⟩
  selectedKeyIndex := buildKeyIndex [sampleNode]
  selectedAdjacency := [[]]
  holdir := []

/-- The plan and the files its keys are computed from. -/
def sampleContext (root : Entry) : KeyContext where
  plan := samplePlan
  analysis _ := ⟨[], [], [], [], []⟩
  sourceText _ := "val x = 1".toList
  root := root
  hash := sampleHash
  configLines _ := []
  toolchainKey := "t".toList

/-- The files of `data` replaced by one, in a directory whose name holds the line of the first. -/
def sampleRenamedTree : Entry :=
  .dir true [("p".toList, .dir true [("data".toList, .dir true
    [("a@".toList ++ sampleHash "1".toList ++ "\nextra_dep=data".toList,
      .dir true [("b".toList, .file true "2".toList)])])])]

example : (⟨[⟨"p".toList, [sampleNode.source]⟩], fun _ ↦ ⟨[], [], [], [], []⟩, [sampleNode],
    fun _ ↦ false, fun _ ↦ false⟩ : Planner).planSelection [] .allTargets = .ok samplePlan := by
  decide +kernel

theorem wellFormed_samplePlan : samplePlan.WellFormed :=
  ⟨by decide, rfl, by decide +kernel⟩

theorem sameShape_sampleContext (root root' : Entry) :
    SameShape (sampleContext root) (sampleContext root') :=
  ⟨rfl, rfl, rfl, rfl, rfl, rfl, fun _ _ ↦ rfl, fun _ _ ↦ rfl, fun _ _ ↦ rfl⟩

/-- The known keys of a plan just made. -/
def noKeys : KeyCache := ⟨fun _ ↦ none, fun _ ↦ none⟩

/-- A computation that ends has keys. -/
theorem exists_keys (h : (c.computeInputKeysWith noKeys).isOk = true) :
    ∃ keys out, c.computeInputKeysWith noKeys = .ok (keys, out) := by
  cases hrun : c.computeInputKeysWith noKeys with
  | ok result => exact ⟨result.1, result.2, rfl⟩
  | error e =>
    rw [hrun] at h
    cases h

end KeyContext

end Holbuild.BuildPlan
