import Holbuild.Analyser.Protocol

/-!
# Dependency responses

What the analyser answers about the dependencies of files, and how holbuild reads it. A response is
accepted only if it answers each requested file exactly once (`parseAnalyserResponse_accepts`), so none is
taken for complete that lost lines at its end (`parseAnalyserResponse_strictPrefix`); and a response the
analyser wrote gives each file the facts of its own answer (`parse_response`).
-/

set_option autoImplicit false
set_option relaxedAutoImplicit false

namespace Holbuild.Analyser

open Library

/-! ### Facts -/

/-- The dependency facts of a source file. -/
structure Deps where
  loads : List String
  uses : List String
  extraDeps : List String
  extraOutputs : List String
  holdepMentions : List String
  deriving DecidableEq

def emptyDeps : Deps := ⟨[], [], [], [], []⟩

def insertSorted (item : String) : List String → List String
  | [] => [item]
  | x :: xs =>
      match compare item x with
      | .lt => item :: x :: xs
      | .eq => x :: xs
      | .gt => x :: insertSorted item xs

def sortUnique (items : List String) : List String := items.foldl (fun acc item ↦ insertSorted item acc) []

def finishDeps (deps : Deps) : Deps where
  loads := sortUnique deps.loads
  uses := sortUnique deps.uses
  extraDeps := sortUnique deps.extraDeps
  extraOutputs := sortUnique deps.extraOutputs
  holdepMentions := sortUnique deps.holdepMentions

def addResponseField (source field value : String) (deps : Deps) : Except String Deps :=
  match field with
  | "load" => .ok { deps with loads := value :: deps.loads }
  | "use" => .ok { deps with uses := value :: deps.uses }
  | "extra-dep" => .ok { deps with extraDeps := value :: deps.extraDeps }
  | "extra-output" => .ok { deps with extraOutputs := value :: deps.extraOutputs }
  | "mention" => .ok { deps with holdepMentions := value :: deps.holdepMentions }
  | _ => .error ("bad analyser response field for " ++ source ++ ": " ++ field)

/-! ### Reading a response -/

/-- The lines of a text that are not empty. -/
def textLines (text : String) : List String := (tokens (· = '\n') text.toList).map String.ofList

/-- What a line of a response is. -/
inductive ResponseLine
  | beginFile (id : String)
  | endFile (id : String)
  | stop
  | field (field value : String)
  | other

def responseLine (line : String) : ResponseLine :=
  match split line with
  | ["begin-file", id] => .beginFile id
  | ["end-file", id] => .endFile id
  | ["end"] => .stop
  | [field, value] => .field field value
  | _ => .other

def addSource (dict : List (String × String)) (source : String × String) :
    Except String (List (String × String)) :=
  match dict.lookup source.1 with
  | none => .ok (source :: dict)
  | some _ => .error ("duplicate analyser request id: " ++ source.1)

/-- The paths of the requested files by id. -/
def sourcePaths (idPaths : List (String × String)) : Except String (List (String × String)) :=
  idPaths.foldlM addSource []

section

variable (idPaths sources : List (String × String))

def sourceFor (id : String) : String := (sources.lookup id).getD ("file " ++ id)

/-- Every requested file is completed. -/
def missingResponse (completed : List String) : Except String Unit :=
  match idPaths.find? fun source ↦ source.1 ∉ completed with
  | some source => .error ("analyser response missing file: " ++ sourceFor sources source.1)
  | none => .ok ()

/-- Reads the records after the header: the file that is open with its facts so far, the ids of the
completed files, and the facts of these, last first. -/
def readRecords : List String → Option (String × Deps) → List String → List (String × Deps) →
    Except String (List (String × Deps))
  | [], _, _, _ => .error "analyser response missing end"
  | line :: more, current, completed, acc =>
      match responseLine line with
      | .beginFile id =>
          match current with
          | none =>
              if (sources.lookup id).isNone then .error ("analyser response has unknown file id: " ++ id)
              else if id ∈ completed then .error ("analyser response has duplicate file id: " ++ id)
              else readRecords more (some (id, emptyDeps)) completed acc
          | some (openId, _) =>
              .error ("analyser response missing end-file for " ++ sourceFor sources openId)
      | .endFile id =>
          match current with
          | some (currentId, deps) =>
              if id = currentId then readRecords more none (id :: completed) ((id, finishDeps deps) :: acc)
              else .error ("analyser response end-file mismatch: " ++ sourceFor sources currentId)
          | none => .error ("analyser response end-file without begin-file: " ++ id)
      | .stop =>
          match current with
          | none =>
              if more = [] then do
                missingResponse idPaths sources completed
                .ok acc.reverse
              else .error "analyser response has trailing records after end"
          | some (id, _) => .error ("analyser response missing end-file for " ++ sourceFor sources id)
      | .field field value =>
          match current with
          | some (id, deps) => do
              let deps ← addResponseField (sourceFor sources id) field value deps
              readRecords more (some (id, deps)) completed acc
          | none => .error ("analyser response field outside file: " ++ field)
      | .other => .error ("bad analyser response line: " ++ line)

end

def protocolVersion : String := "1"

def requireVersion (line : String) : Except String Unit :=
  match split line with
  | ["version", v] =>
      if v = protocolVersion then .ok () else .error ("unsupported analyser protocol version: " ++ v)
  | _ => .error "analyser response missing version header"

def requireOk (line : String) : Except String Unit :=
  match split line with
  | ["ok"] => .ok ()
  | _ => .error "analyser response missing ok header"

def parseAnalyserResponse (text : String) (idPaths : List (String × String)) :
    Except String (List (String × Deps)) := do
  let sources ← sourcePaths idPaths
  match textLines text with
  | version :: ok :: records => do
      requireVersion version
      requireOk ok
      readRecords idPaths sources records none [] []
  | [] => .error "analyser response missing version header"
  | version :: _ => do
      requireVersion version
      .error "analyser response missing ok header"

/-! ### What is accepted -/

/-- The file that a line begins. -/
def beginId (line : String) : Option String :=
  match responseLine line with
  | .beginFile id => some id
  | _ => none

variable {idPaths sources dict : List (String × String)} {id : String}

theorem lookup_eq_none_iff_notMem : dict.lookup id = none ↔ id ∉ dict.map Prod.fst := by
  rw [List.lookup_eq_none_iff, List.mem_map]
  constructor
  · rintro h ⟨source, hmem, rfl⟩
    exact absurd (h source hmem) (by simp)
  · intro h source hmem
    exact bne_iff_ne.mpr fun heq ↦ h ⟨source, hmem, heq.symm⟩

theorem foldlM_addSource (hdict : (dict.map Prod.fst).Nodup) :
    idPaths.foldlM addSource dict = .ok sources ↔
      ((idPaths.reverse ++ dict).map Prod.fst).Nodup ∧ sources = idPaths.reverse ++ dict := by
  induction idPaths generalizing dict with
  | nil =>
    rw [List.foldlM_nil]
    show Except.ok dict = .ok sources ↔ _
    rw [Except.ok.injEq]
    exact ⟨fun h ↦ ⟨hdict, h.symm⟩, fun h ↦ h.2.symm⟩
  | cons source rest ih =>
    have hreverse : (source :: rest).reverse ++ dict = rest.reverse ++ source :: dict := by simp
    rw [List.foldlM_cons, hreverse]
    by_cases hnew : dict.lookup source.1 = none
    · have hadd : addSource dict source = .ok (source :: dict) := by rw [addSource, hnew]
      rw [hadd]
      exact ih (List.nodup_cons.mpr ⟨lookup_eq_none_iff_notMem.mp hnew, hdict⟩)
    · obtain ⟨path, hpath⟩ := Option.ne_none_iff_exists'.mp hnew
      have hadd : addSource dict source = .error ("duplicate analyser request id: " ++ source.1) := by
        rw [addSource, hpath]
      rw [hadd]
      constructor
      · exact fun h ↦ nomatch h
      · rintro ⟨hnodup, -⟩
        rw [List.map_append, List.map_cons] at hnodup
        have hhead := (List.nodup_cons.mp (List.nodup_append.mp hnodup).2.1).1
        exact absurd (lookup_eq_none_iff_notMem.mpr hhead) hnew

/-- The requested files are taken if they have distinct ids. -/
theorem sourcePaths_eq_ok_iff : sourcePaths idPaths = .ok sources ↔
    (idPaths.map Prod.fst).Nodup ∧ sources = idPaths.reverse := by
  rw [sourcePaths, @foldlM_addSource _ _ [] List.nodup_nil, List.append_nil, List.map_reverse,
    (List.reverse_perm _).nodup_iff]

theorem missingResponse_eq_ok_iff {completed : List String} :
    missingResponse idPaths sources completed = .ok () ↔ ∀ id ∈ idPaths.map Prod.fst, id ∈ completed := by
  rw [missingResponse]
  cases hfind : idPaths.find? fun source ↦ source.1 ∉ completed with
  | none =>
    rw [List.find?_eq_none] at hfind
    refine ⟨fun _ id hid ↦ ?_, fun _ ↦ rfl⟩
    obtain ⟨source, hmem, rfl⟩ := List.mem_map.mp hid
    exact not_not.mp fun hnot ↦ hfind source hmem (decide_eq_true hnot)
  | some source =>
    refine ⟨nofun, fun h ↦ ?_⟩
    have hmem := List.mem_map_of_mem (f := Prod.fst) (List.mem_of_find?_eq_some hfind)
    have hnot := List.find?_some hfind
    exact absurd (h _ hmem) (of_decide_eq_true hnot)

/-- What the records of an accepted response are, from a state of the reader on. -/
structure Answered (idPaths : List (String × String)) (completed : List String)
    (opened : Option String) (lines : List String) (answers : List (String × Deps)) : Prop where
  stops : ∃ body stop, lines = body ++ [stop] ∧ responseLine stop = .stop ∧
    (∀ line ∈ body, responseLine line ≠ .stop) ∧
    answers.map Prod.fst = opened.toList ++ body.filterMap beginId
  distinct : (answers.map Prod.fst ++ completed).Nodup
  requested : ∀ id ∈ answers.map Prod.fst, id ∈ idPaths.map Prod.fst
  complete : ∀ id ∈ idPaths.map Prod.fst, id ∈ answers.map Prod.fst ++ completed

/-- A line before the last that begins no file changes nothing of what is answered. -/
theorem Answered.cons {completed : List String} {opened : Option String} {line : String}
    {lines : List String} {answers : List (String × Deps)}
    (h : Answered idPaths completed opened lines answers) (hbegin : beginId line = none)
    (hstop : responseLine line ≠ .stop) : Answered idPaths completed opened (line :: lines) answers := by
  obtain ⟨⟨body, stop, rfl, hlast, hbody, hids⟩, hdistinct, hrequested, hcomplete⟩ := h
  refine ⟨⟨line :: body, stop, rfl, hlast, List.forall_mem_cons.mpr ⟨hstop, hbody⟩, ?_⟩,
    hdistinct, hrequested, hcomplete⟩
  rw [List.filterMap_cons_none hbegin, hids]

variable {line : String}

theorem beginId_of_beginFile (h : responseLine line = .beginFile id) : beginId line = some id := by
  rw [beginId, h]

theorem beginId_of_endFile (h : responseLine line = .endFile id) : beginId line = none := by
  rw [beginId, h]

theorem beginId_of_field {field value : String} (h : responseLine line = .field field value) :
    beginId line = none := by
  rw [beginId, h]

/-- Records that are accepted answer each requested file once, and stop at their last line. -/
theorem answered_of_readRecords {lines : List String} {current : Option (String × Deps)}
    {completed : List String} {acc results : List (String × Deps)}
    (hsources : ∀ id, sources.lookup id = none ↔ id ∉ idPaths.map Prod.fst)
    (hopen : ∀ id ∈ (current.map Prod.fst).toList, id ∈ idPaths.map Prod.fst ∧ id ∉ completed)
    (hcompleted : completed.Nodup)
    (h : readRecords idPaths sources lines current completed acc = .ok results) :
    ∃ answers, results = acc.reverse ++ answers ∧
      Answered idPaths completed (current.map Prod.fst) lines answers := by
  induction lines generalizing current completed acc with
  | nil => cases h
  | cons line more ih =>
    cases hline : responseLine line with
    | beginFile id =>
      cases current with
      | some opened =>
        simp only [readRecords, hline] at h
        cases h
      | none =>
        simp only [readRecords, hline] at h
        split_ifs at h with hunknown hdone
        have hrequested : id ∈ idPaths.map Prod.fst := by
          by_contra hnot
          exact hunknown (Option.isNone_iff_eq_none.mpr ((hsources id).mpr hnot))
        have hne : responseLine line ≠ .stop := by
          rw [hline]
          exact nofun
        obtain ⟨answers, hresults, ⟨body, stop, hmore, hlast, hbody, hids⟩, hdistinct, hasked, hcomplete⟩ :=
          ih (fun other hother ↦ List.mem_singleton.mp hother ▸ ⟨hrequested, hdone⟩) hcompleted h
        refine ⟨answers, hresults, ⟨line :: body, stop, ?_, hlast, ?_, ?_⟩, hdistinct, hasked, hcomplete⟩
        · rw [hmore, List.cons_append]
        · exact List.forall_mem_cons.mpr ⟨hne, hbody⟩
        · rw [hids, List.filterMap_cons_some (beginId_of_beginFile hline)]
          rfl
    | endFile id =>
      cases current with
      | none =>
        simp only [readRecords, hline] at h
        cases h
      | some opened =>
        simp only [readRecords, hline] at h
        split_ifs at h with hid
        have hne : responseLine line ≠ .stop := by
          rw [hline]
          exact nofun
        obtain ⟨hrequested, hnew⟩ := hopen opened.1 List.mem_cons_self
        obtain ⟨answers, hresults, ⟨body, stop, hmore, hlast, hbody, hids⟩, hdistinct, hasked, hcomplete⟩ :=
          ih (fun _ hother ↦ absurd hother List.not_mem_nil) (List.nodup_cons.mpr ⟨hid ▸ hnew, hcompleted⟩) h
        have hperm : (((id, finishDeps opened.2) :: answers).map Prod.fst ++ completed).Perm
            (answers.map Prod.fst ++ id :: completed) := List.perm_middle.symm
        refine ⟨(id, finishDeps opened.2) :: answers, ?_, ⟨line :: body, stop, ?_, hlast, ?_, ?_⟩, ?_, ?_, ?_⟩
        · rw [hresults, List.reverse_cons, List.append_assoc, List.singleton_append]
        · rw [hmore, List.cons_append]
        · exact List.forall_mem_cons.mpr ⟨hne, hbody⟩
        · rw [List.map_cons, hids, List.filterMap_cons_none (beginId_of_endFile hline), hid]
          rfl
        · exact hperm.nodup_iff.mpr hdistinct
        · exact List.forall_mem_cons.mpr ⟨hid ▸ hrequested, hasked⟩
        · exact fun other hother ↦ hperm.mem_iff.mpr (hcomplete other hother)
    | stop =>
      cases current with
      | some opened =>
        simp only [readRecords, hline] at h
        cases h
      | none =>
        simp only [readRecords, hline] at h
        split_ifs at h with hmore
        obtain ⟨_, hmissing, hresults⟩ := bind_eq_ok_iff.mp h
        refine ⟨[], ?_, ⟨[], line, ?_, hline, nofun, rfl⟩, ?_, nofun, ?_⟩
        · rw [List.append_nil]
          exact (Except.ok.inj hresults).symm
        · rw [hmore, List.nil_append]
        · exact hcompleted
        · exact missingResponse_eq_ok_iff.mp hmissing
    | field field value =>
      cases current with
      | none =>
        simp only [readRecords, hline] at h
        cases h
      | some opened =>
        simp only [readRecords, hline] at h
        obtain ⟨deps, -, hrest⟩ := bind_eq_ok_iff.mp h
        have hne : responseLine line ≠ .stop := by
          rw [hline]
          exact nofun
        obtain ⟨answers, hresults, hanswered⟩ := @ih (some (opened.1, deps)) _ _ hopen hcompleted hrest
        exact ⟨answers, hresults, hanswered.cons (beginId_of_field hline) hne⟩
    | other =>
      simp only [readRecords, hline] at h
      cases h

variable {text text' : String} {results : List (String × Deps)}

/-- An accepted response has a header and records that are accepted. -/
theorem records_of_parseAnalyserResponse (h : parseAnalyserResponse text idPaths = .ok results) :
    (idPaths.map Prod.fst).Nodup ∧ ∃ version ok records, textLines text = version :: ok :: records ∧
      beginId version = none ∧ beginId ok = none ∧ Answered idPaths [] none records results := by
  obtain ⟨sources, hsources, h⟩ := bind_eq_ok_iff.mp h
  obtain ⟨hnodup, rfl⟩ := sourcePaths_eq_ok_iff.mp hsources
  have hlookup (id : String) : idPaths.reverse.lookup id = none ↔ id ∉ idPaths.map Prod.fst := by
    rw [lookup_eq_none_iff_notMem, List.map_reverse, List.mem_reverse]
  refine ⟨hnodup, ?_⟩
  split at h
  · next version ok records hlines =>
    obtain ⟨_, hversion, h⟩ := bind_eq_ok_iff.mp h
    obtain ⟨_, hok, h⟩ := bind_eq_ok_iff.mp h
    obtain ⟨answers, hresults, hanswered⟩ := answered_of_readRecords hlookup
      (fun _ hother ↦ absurd hother List.not_mem_nil) List.nodup_nil h
    rw [List.reverse_nil, List.nil_append] at hresults
    refine ⟨version, ok, records, hlines, ?_, ?_, hresults ▸ hanswered⟩
    · unfold requireVersion at hversion
      split at hversion
      · next v hsplit =>
        rw [beginId, responseLine, hsplit]
        rfl
      · cases hversion
    · unfold requireOk at hok
      split at hok
      · next hsplit =>
        rw [beginId, responseLine, hsplit]
        rfl
      · cases hok
  · cases h
  · obtain ⟨_, -, h⟩ := bind_eq_ok_iff.mp h
    cases h

/-- An accepted response begins each requested file exactly once and no other, and these are the files of
its results. -/
theorem parseAnalyserResponse_accepts (h : parseAnalyserResponse text idPaths = .ok results) :
    (idPaths.map Prod.fst).Nodup ∧ results.map Prod.fst = (textLines text).filterMap beginId ∧
      (results.map Prod.fst).Perm (idPaths.map Prod.fst) := by
  obtain ⟨hnodup, version, ok, records, hlines, hversion, hok,
    ⟨body, stop, hrecords, hstop, -, hids⟩, hdistinct, hasked, hcomplete⟩ :=
    records_of_parseAnalyserResponse h
  have hlast : beginId stop = none := by rw [beginId, hstop]
  rw [List.append_nil] at hdistinct hcomplete
  refine ⟨hnodup, ?_, ?_⟩
  · rw [hlines, hrecords, List.filterMap_cons_none hversion, List.filterMap_cons_none hok,
      List.filterMap_append, List.filterMap_cons_none hlast, List.filterMap_nil, List.append_nil, hids]
    rfl
  · exact (List.perm_ext_iff_of_nodup hdistinct hnodup).mpr fun id ↦ ⟨hasked id, hcomplete id⟩

/-- No response that lost lines at its end is accepted. -/
theorem parseAnalyserResponse_strictPrefix (h : parseAnalyserResponse text idPaths = .ok results)
    (hfront : textLines text' <+: textLines text) (hne : textLines text' ≠ textLines text) :
    ∀ results', parseAnalyserResponse text' idPaths ≠ .ok results' := by
  intro results' h'
  obtain ⟨-, version, ok, records, hlines, -, -, ⟨body, stop, hrecords, -, hbody, -⟩, -⟩ :=
    records_of_parseAnalyserResponse h
  obtain ⟨-, version', ok', records', hlines', -, -, ⟨body', stop', hrecords', hstop', -, -⟩, -⟩ :=
    records_of_parseAnalyserResponse h'
  obtain ⟨lost, hlost⟩ := hfront
  rcases lost.eq_nil_or_concat with rfl | ⟨front, last, rfl⟩
  · exact hne ((List.append_nil _).symm.trans hlost)
  · rw [hlines, hlines', hrecords, hrecords', List.cons_append, List.cons_append, List.concat_eq_append,
      ← List.append_assoc] at hlost
    have hbodies := (List.append_inj' (List.cons.inj (List.cons.inj hlost).2).2 rfl).1
    -- The line that stops the shorter response is one of the body of the longer.
    have hmem : stop' ∈ body := by
      rw [← hbodies]
      exact List.mem_append_left _ (List.mem_append_right _ List.mem_cons_self)
    exact hbody stop' hmem hstop'

/-! ### What the analyser writes -/

def emitDeps (deps : Deps) : List String :=
  deps.loads.map (fun x ↦ join ["load", x]) ++
    deps.uses.map (fun x ↦ join ["use", x]) ++
    deps.extraDeps.map (fun x ↦ join ["extra-dep", x]) ++
    deps.extraOutputs.map (fun x ↦ join ["extra-output", x]) ++
    deps.holdepMentions.map fun x ↦ join ["mention", x]

def analyseFile (answer : String → Deps) (file : String × String) : List String :=
  join ["begin-file", file.1] :: emitDeps (answer file.2) ++ [join ["end-file", file.1]]

/-- The response to a request for the dependencies of files, whose answers are given by path. -/
def response (answer : String → Deps) (files : List (String × String)) : String :=
  String.ofList (concatWith ['\n'] (([join ["version", protocolVersion], join ["ok"]] ++
    files.flatMap (analyseFile answer) ++ [join ["end"]]).map String.toList) ++ ['\n'])

/-- The fields of an answer, with their values. -/
def answerFields (deps : Deps) : List (String × String) :=
  deps.loads.map ("load", ·) ++ deps.uses.map ("use", ·) ++ deps.extraDeps.map ("extra-dep", ·) ++
    deps.extraOutputs.map ("extra-output", ·) ++ deps.holdepMentions.map ("mention", ·)

/-- The facts that an answer gives: none if one of its texts is empty, as no field may be. -/
def factsOf (deps : Deps) : Option Deps :=
  if "" ∈ (answerFields deps).map Prod.snd then none
  else some (finishDeps ⟨deps.loads.reverse, deps.uses.reverse, deps.extraDeps.reverse,
    deps.extraOutputs.reverse, deps.holdepMentions.reverse⟩)

theorem emitDeps_eq_map (deps : Deps) :
    emitDeps deps = (answerFields deps).map fun entry ↦ join [entry.1, entry.2] := by
  simp only [emitDeps, answerFields, List.map_append, List.map_map]
  rfl

/-- The lines of a text made of lines. -/
theorem textLines_concatWith {lines : List String} (hne : lines ≠ [])
    (hlines : ∀ line ∈ lines, '\n' ∉ line.toList ∧ line ≠ "") :
    textLines (String.ofList (concatWith ['\n'] (lines.map String.toList) ++ ['\n'])) = lines := by
  have hmap : ∀ line ∈ lines.map String.toList, '\n' ∉ line ∧ line ≠ [] := by
    intro line hline
    obtain ⟨text, htext, rfl⟩ := List.mem_map.mp hline
    exact ⟨(hlines text htext).1, fun hnil ↦ (hlines text htext).2 (String.toList_eq_nil_iff.mp hnil)⟩
  rw [textLines, String.toList_ofList, concatWith_newline (by simpa using hne), tokens_terminated hmap,
    List.map_map]
  conv_rhs => rw [← List.map_id lines]
  exact List.map_congr_left fun text _ ↦ String.ofList_toList

/-- The fields that a response has. -/
def IsField (field : String) : Prop :=
  field ∈ ["load", "use", "extra-dep", "extra-output", "mention"]

theorem isField_of_mem_answerFields {deps : Deps} {entry : String × String}
    (h : entry ∈ answerFields deps) : IsField entry.1 := by
  simp only [answerFields, List.mem_append, List.mem_map] at h
  obtain (((⟨x, -, rfl⟩ | ⟨x, -, rfl⟩) | ⟨x, -, rfl⟩) | ⟨x, -, rfl⟩) | ⟨x, -, rfl⟩ := h <;>
    simp [IsField]

/-- What a field adds to the facts. -/
def push (deps : Deps) (entry : String × String) : Deps :=
  match addResponseField "" entry.1 entry.2 deps with
  | .ok deps => deps
  | .error _ => deps

theorem addResponseField_of_isField {field : String} (h : IsField field) (source value : String)
    (deps : Deps) : addResponseField source field value deps = .ok (push deps (field, value)) := by
  simp only [IsField, List.mem_cons, List.not_mem_nil, or_false] at h
  rcases h with rfl | rfl | rfl | rfl | rfl <;> rfl

theorem responseLine_field {field value : String} (h : IsField field) (hvalue : value ≠ "") :
    responseLine (join [field, value]) = .field field value := by
  simp only [IsField, List.mem_cons, List.not_mem_nil, or_false] at h
  have hne : "" ∉ [field, value] := by
    rcases h with rfl | rfl | rfl | rfl | rfl <;> simpa using hvalue
  rw [responseLine, split_join_eq_iff.mpr hne]
  rcases h with rfl | rfl | rfl | rfl | rfl <;> rfl

/-- A field without a value is no line of a response. -/
theorem responseLine_empty {field : String} (h : IsField field) :
    responseLine (join [field, ""]) = .other := by
  simp only [IsField, List.mem_cons, List.not_mem_nil, or_false] at h
  rw [responseLine, split_join]
  rcases h with rfl | rfl | rfl | rfl | rfl <;> rfl

theorem responseLine_beginFile (hid : id ≠ "") : responseLine (join ["begin-file", id]) = .beginFile id := by
  rw [responseLine, split_join_eq_iff.mpr (by simpa using hid.symm)]
  rfl

theorem responseLine_endFile (hid : id ≠ "") : responseLine (join ["end-file", id]) = .endFile id := by
  rw [responseLine, split_join_eq_iff.mpr (by simpa using hid.symm)]
  rfl

theorem responseLine_end : responseLine (join ["end"]) = .stop := by
  rw [responseLine, split_join_eq_iff.mpr (by simp)]
  rfl

/-- The fields of an open file are read into its facts, unless a value is empty. -/
theorem readRecords_fields {entries : List (String × String)} (hentries : ∀ entry ∈ entries, IsField entry.1)
    {rest : List String} {deps : Deps} {completed : List String} {acc : List (String × Deps)} :
    (readRecords idPaths sources (entries.map (fun entry ↦ join [entry.1, entry.2]) ++ rest)
        (some (id, deps)) completed acc).toOption =
      if "" ∈ entries.map Prod.snd then none
      else (readRecords idPaths sources rest (some (id, entries.foldl push deps)) completed acc).toOption := by
  induction entries generalizing deps with
  | nil => rfl
  | cons entry entries ih =>
    obtain ⟨hfield, hrest⟩ := List.forall_mem_cons.mp hentries
    rw [List.map_cons, List.cons_append, List.map_cons, List.foldl_cons]
    by_cases hempty : entry.2 = ""
    · rw [if_pos (hempty ▸ List.mem_cons_self)]
      simp only [readRecords, hempty, responseLine_empty hfield]
      rfl
    · simp only [readRecords, responseLine_field hfield hempty, addResponseField_of_isField hfield]
      refine Eq.trans (ih hrest) ?_
      simp only [List.mem_cons, eq_comm (a := ""), hempty, false_or]

/-- The values of one field are pushed in front of those it has. -/
theorem foldl_push {field : String} {get : Deps → List String} {set : Deps → List String → Deps}
    (hpush : ∀ deps x, push deps (field, x) = set deps (x :: get deps))
    (hget : ∀ deps xs, get (set deps xs) = xs) (hset : ∀ deps xs ys, set (set deps xs) ys = set deps ys)
    (hself : ∀ deps, set deps (get deps) = deps) (xs : List String) (deps : Deps) :
    (xs.map (field, ·)).foldl push deps = set deps (xs.reverse ++ get deps) := by
  induction xs generalizing deps with
  | nil => exact (hself deps).symm
  | cons x xs ih =>
    rw [List.map_cons, List.foldl_cons, hpush, ih, hset, hget, List.reverse_cons, List.append_assoc,
      List.singleton_append]

/-- The fields of an answer come to its facts, its last texts first. -/
theorem foldl_push_answerFields (deps : Deps) : (answerFields deps).foldl push emptyDeps =
    ⟨deps.loads.reverse, deps.uses.reverse, deps.extraDeps.reverse, deps.extraOutputs.reverse,
      deps.holdepMentions.reverse⟩ := by
  have hloads := @foldl_push "load" Deps.loads (fun d xs ↦ { d with loads := xs })
    (fun _ _ ↦ rfl) (fun _ _ ↦ rfl) (fun _ _ _ ↦ rfl) (fun _ ↦ rfl)
  have huses := @foldl_push "use" Deps.uses (fun d xs ↦ { d with uses := xs })
    (fun _ _ ↦ rfl) (fun _ _ ↦ rfl) (fun _ _ _ ↦ rfl) (fun _ ↦ rfl)
  have hdeps := @foldl_push "extra-dep" Deps.extraDeps (fun d xs ↦ { d with extraDeps := xs })
    (fun _ _ ↦ rfl) (fun _ _ ↦ rfl) (fun _ _ _ ↦ rfl) (fun _ ↦ rfl)
  have houtputs := @foldl_push "extra-output" Deps.extraOutputs (fun d xs ↦ { d with extraOutputs := xs })
    (fun _ _ ↦ rfl) (fun _ _ ↦ rfl) (fun _ _ _ ↦ rfl) (fun _ ↦ rfl)
  have hmentions := @foldl_push "mention" Deps.holdepMentions (fun d xs ↦ { d with holdepMentions := xs })
    (fun _ _ ↦ rfl) (fun _ _ ↦ rfl) (fun _ _ _ ↦ rfl) (fun _ ↦ rfl)
  simp only [answerFields, List.foldl_append, hloads, huses, hdeps, houtputs, hmentions, emptyDeps,
    List.append_nil]

/-- What the analyser writes for a file is read as the facts of its answer. -/
theorem readRecords_analyseFile {answer : String → Deps} {file : String × String} {rest : List String}
    {completed : List String} {acc : List (String × Deps)} (hid : file.1 ≠ "")
    (hexpected : sources.lookup file.1 ≠ none) (hnew : file.1 ∉ completed) :
    (readRecords idPaths sources (analyseFile answer file ++ rest) none completed acc).toOption =
      (factsOf (answer file.2)).bind fun facts ↦
        (readRecords idPaths sources rest none (file.1 :: completed) ((file.1, facts) :: acc)).toOption := by
  have hsome : ¬(sources.lookup file.1).isNone = true := fun h ↦ hexpected (Option.isNone_iff_eq_none.mp h)
  rw [analyseFile, emitDeps_eq_map, List.append_assoc, List.cons_append]
  simp only [readRecords, responseLine_beginFile hid, if_neg hsome, if_neg hnew]
  refine (readRecords_fields fun entry hentry ↦ isField_of_mem_answerFields hentry).trans ?_
  rw [foldl_push_answerFields, factsOf]
  split_ifs with hempty
  · rfl
  · simp only [List.singleton_append, readRecords, responseLine_endFile hid, if_pos]
    rfl

/-- What the analyser writes for distinct files is read as the facts of its answers. -/
theorem readRecords_files {answer : String → Deps} {files : List (String × String)}
    {completed : List String} {acc : List (String × Deps)}
    (hids : ∀ file ∈ files, file.1 ≠ "" ∧ sources.lookup file.1 ≠ none)
    (hdistinct : (files.map Prod.fst).Nodup) (hnew : ∀ file ∈ files, file.1 ∉ completed)
    (hcomplete : ∀ id ∈ idPaths.map Prod.fst, id ∈ completed ∨ id ∈ files.map Prod.fst) :
    (readRecords idPaths sources (files.flatMap (analyseFile answer) ++ [join ["end"]]) none completed
        acc).toOption =
      (files.mapM fun file ↦ (factsOf (answer file.2)).map (file.1, ·)).map (acc.reverse ++ ·) := by
  induction files generalizing completed acc with
  | nil =>
    have hmissing : missingResponse idPaths sources completed = .ok () :=
      missingResponse_eq_ok_iff.mpr fun id hid ↦ (hcomplete id hid).resolve_right List.not_mem_nil
    simp only [List.flatMap_nil, List.nil_append, readRecords, responseLine_end, if_pos, hmissing]
    exact congrArg some (List.append_nil _).symm
  | cons file rest ih =>
    obtain ⟨⟨hid, hexpected⟩, hrest⟩ := List.forall_mem_cons.mp hids
    obtain ⟨hfile, hnews⟩ := List.forall_mem_cons.mp hnew
    obtain ⟨hnot, hdistinct⟩ := List.nodup_cons.mp hdistinct
    rw [List.flatMap_cons, List.append_assoc, readRecords_analyseFile hid hexpected hfile, List.mapM_cons]
    cases hfacts : factsOf (answer file.2) with
    | none => rfl
    | some facts =>
      have hcompleted : ∀ other ∈ rest, other.1 ∉ file.1 :: completed := by
        intro other hother hmem
        rcases List.mem_cons.mp hmem with heq | hmem
        · exact hnot (heq ▸ List.mem_map_of_mem hother)
        · exact hnews other hother hmem
      have hmore : ∀ id ∈ idPaths.map Prod.fst, id ∈ file.1 :: completed ∨ id ∈ rest.map Prod.fst := by
        intro id hasked
        rcases hcomplete id hasked with hdone | hfiles
        · exact .inl (List.mem_cons_of_mem _ hdone)
        · rcases List.mem_cons.mp hfiles with rfl | hlater
          · exact .inl List.mem_cons_self
          · exact .inr hlater
      rw [Option.bind_some, ih hrest hdistinct hcompleted hmore]
      cases rest.mapM fun file ↦ (factsOf (answer file.2)).map (file.1, ·) with
      | none => rfl
      | some answers => exact congrArg some (by simp)

/-- Fields of which the first has a text make a line. -/
theorem line_join {field : String} {fields : List String} (h : field ≠ "") :
    '\n' ∉ (join (field :: fields)).toList ∧ join (field :: fields) ≠ "" := by
  refine ⟨newline_notMem_join, fun hempty ↦ ?_⟩
  have hsplit := @split_join (field :: fields)
  have hmem : field ∈ (field :: fields).filter fun field ↦ field ≠ "" :=
    List.mem_filter.mpr ⟨List.mem_cons_self, decide_eq_true h⟩
  rw [← hsplit, hempty] at hmem
  exact absurd hmem List.not_mem_nil

/-- The lines that the analyser writes are lines of a text. -/
theorem response_lines {answer : String → Deps} {files : List (String × String)} {line : String}
    (h : line ∈ [join ["version", protocolVersion], join ["ok"]] ++ files.flatMap (analyseFile answer) ++
      [join ["end"]]) : '\n' ∉ line.toList ∧ line ≠ "" := by
  rcases List.mem_append.mp h with h | h
  · rcases List.mem_append.mp h with h | h
    · rcases List.mem_cons.mp h with rfl | h
      · exact line_join (by decide)
      · exact List.mem_singleton.mp h ▸ line_join (by decide)
    · obtain ⟨file, -, h⟩ := List.mem_flatMap.mp h
      rw [analyseFile, emitDeps_eq_map] at h
      rcases List.mem_append.mp h with h | h
      · rcases List.mem_cons.mp h with rfl | h
        · exact line_join (by decide)
        · obtain ⟨entry, hentry, rfl⟩ := List.mem_map.mp h
          refine line_join fun hempty ↦ ?_
          have hfield := isField_of_mem_answerFields hentry
          rw [IsField, hempty] at hfield
          exact absurd hfield (by decide)
      · exact List.mem_singleton.mp h ▸ line_join (by decide)
  · exact List.mem_singleton.mp h ▸ line_join (by decide)

/-- A response of the analyser gives each file the facts of its answer, or is not accepted if some answer
has an empty text. -/
theorem parse_response {answer : String → Deps} {files : List (String × String)}
    (hdistinct : (files.map Prod.fst).Nodup) (hids : ∀ file ∈ files, file.1 ≠ "") :
    (parseAnalyserResponse (response answer files) files).toOption =
      files.mapM fun file ↦ (factsOf (answer file.2)).map (file.1, ·) := by
  have hsources : sourcePaths files = .ok files.reverse := sourcePaths_eq_ok_iff.mpr ⟨hdistinct, rfl⟩
  have hexpected : ∀ file ∈ files, file.1 ≠ "" ∧ files.reverse.lookup file.1 ≠ none := by
    intro file hmem
    refine ⟨hids file hmem, fun hnone ↦ ?_⟩
    rw [lookup_eq_none_iff_notMem, List.map_reverse, List.mem_reverse] at hnone
    exact hnone (List.mem_map_of_mem hmem)
  have hversion : requireVersion (join ["version", protocolVersion]) = .ok () := by
    rw [requireVersion, split_join_eq_iff.mpr (by decide)]
    rfl
  have hok : requireOk (join ["ok"]) = .ok () := by
    rw [requireOk, split_join_eq_iff.mpr (by decide)]
    rfl
  have hrecords := @readRecords_files files files.reverse answer files [] [] hexpected hdistinct
    (fun _ _ ↦ List.not_mem_nil) fun id hid ↦ .inr hid
  rw [parseAnalyserResponse, hsources, response, textLines_concatWith (by simp) fun _ ↦ response_lines]
  show (requireVersion (join ["version", protocolVersion]) >>= fun _ ↦ requireOk (join ["ok"]) >>= fun _ ↦
    readRecords files files.reverse (files.flatMap (analyseFile answer) ++ [join ["end"]]) none []
      []).toOption = _
  rw [hversion, hok]
  refine hrecords.trans ?_
  rw [List.reverse_nil]
  exact Option.map_id'

end Holbuild.Analyser
