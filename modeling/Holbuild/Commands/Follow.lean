import Holbuild.Commands.CoordinatorJson

/-!
# Following a batch

`follow` attaches to a batch's event stream until the batch ends, and attaches again when the stream breaks:
without limit after a stream that changed a state, and at most once for each retry delay in a row after
others. Statuses are repeated on every stream, lines may be cut off, and curl's errors and the HTTP status
come on the same stream.
-/

set_option autoImplicit false
set_option relaxedAutoImplicit false

namespace Holbuild.Commands

open Library Library.Json RemoteExec

/-! ### The output of curl -/

/-- The lines that are read from a text, the line being read held in reverse. A newline ends each. -/
def inputLinesFrom : Text → Text → List Text
  | [], [] => []
  | line, [] => [line.reverse ++ ['\n']]
  | line, '\n' :: rest => (line.reverse ++ ['\n']) :: inputLinesFrom [] rest
  | line, c :: rest => inputLinesFrom (c :: line) rest

def inputLines (text : Text) : List Text := inputLinesFrom [] text

/-- The lines before the HTTP status, and the status, 0 when no response came. -/
def splitStatus (output : Text) : List Text × ℤ :=
  match (tokens (· = '\n') output).reverse with
  | [] => ([], 0)
  | last :: earlier => (earlier.reverse, (intFromString last).getD 0)

/-! ### One line -/

/-- What is kept over all streams: the last state of each action, the proof that failed, and the keys passed
to `on_done`, in order. -/
structure Follower where
  states : List (String × String)
  proofFailure : Option ProofFailure
  doneKeys : List String

def Follower.start : Follower := ⟨[], none, []⟩

/-- What is kept over one stream; other lines are held in reverse. -/
structure Attached where
  outcome : Option Outcome
  changed : Bool
  others : List Text

def Attached.start : Attached := ⟨none, false, []⟩

/-- The line ends as an object does. -/
def complete (line : Text) : Bool := (line.reverse.dropWhile isSmlSpace).head? = some '}'

def field (name : String) (line : Text) : Option String := (jsonStringField name line).map String.ofList

/-- The proof that a failed action failed by, with its build log. -/
def failedProof (key state : String) (lastFailure logSha256 : Option String) : Option ProofFailure :=
  match lastFailure, logSha256 with
  | some kind, some log =>
    if state = "failed" ∧ (kind = "proof" ∨ kind = "tactic-timeout") then some ⟨key, kind, log⟩ else none
  | _, _ => none

local instance lawfulPair : LawfulBEq (String × String) := inferInstance

/-- The status of an action. -/
def onAction (key state : String) (lastFailure logSha256 : Option String) (s : Follower) (a : Attached) :
    Follower × Attached :=
  let s := { s with proofFailure := (failedProof key state lastFailure logSha256).or s.proofFailure }
  if (key, state) ∈ s.states then (s, a)
  else
    ({ s with
        states := (key, state) :: s.states.filter fun entry ↦ entry.1 ≠ key
        doneKeys := if state = "done" then s.doneKeys ++ [key] else s.doneKeys },
      { a with changed := true })

def onLine (s : Follower × Attached) (line : Text) : Follower × Attached :=
  match if complete line then field "type" line else none with
  | some "action" =>
    onAction ((field "input_key" line).getD "") ((field "state" line).getD "") (field "last_failure" line)
      (field "log_sha256" line) s.1 s.2
  | some "batch" => (s.1, { s.2 with outcome := some (batchOutcome line s.1.proofFailure) })
  | _ => (s.1, { s.2 with others := line :: s.2.others })

/-! ### Attaching -/

def broken (status : ℤ) : Bool := status = 0 || (200 ≤ status && status < 300) || 500 ≤ status

/-- Why a stream without an end is given up. -/
def lostReason (batchId : String) (lines : List Text) (status : ℤ) : String :=
  (if 500 ≤ status then "the coordinator answered HTTP " ++ toString status ++ " to" else "lost") ++
    " the event stream for batch " ++ batchId ++
    if lines = [] then "" else ": " ++ String.ofList (List.intercalate ['\n'] lines)

def unfollowableReason (lines : List Text) (status : ℤ) : String :=
  "can't be followed (HTTP " ++ toString status ++ "): " ++ String.ofList (List.intercalate ['\n'] lines)

/-- A run of `follow`: what it kept, how it ended if it did, and how often it attached. -/
structure Followed where
  follower : Follower
  outcome : Option Outcome
  attaches : ℕ

def Followed.again (f : Followed) : Followed := { f with attaches := f.attaches + 1 }

/-- `attach` with the delays that are left, on the outputs of the streams to come. -/
def attach (batchId : String) (retries : List ℕ) : List ℕ → Follower → List Text → Followed
  | _, s, [] => ⟨s, none, 0⟩
  | delays, s, output :: rest =>
    let after := (inputLines output).foldl onLine (s, Attached.start)
    let answer := splitStatus after.2.others.reverse.flatten
    match after.2.outcome with
    | some outcome => ⟨after.1, some outcome, 1⟩
    | none =>
      if !broken answer.2 then ⟨after.1, some (.unfollowable (unfollowableReason answer.1 answer.2)), 1⟩
      else if after.2.changed then (attach batchId retries retries after.1 rest).again
      else
        match delays with
        | [] => ⟨after.1, some (.unreachable (lostReason batchId answer.1 answer.2)), 1⟩
        | _ :: delays => (attach batchId retries delays after.1 rest).again

def follow (batchId : String) (retries : List ℕ) (outputs : List Text) : Followed :=
  attach batchId retries retries Follower.start outputs

/-- The delays by default. -/
def retryDelaysSeconds : List ℕ := [1, 2, 4] ++ List.replicate 18 8

/-- The progress of a run. -/
def Follower.progress (s : Follower) : Progress :=
  ⟨(s.states.filter fun entry ↦ entry.2 = "done").length, s.states.length⟩

/-! ### The coordinator -/

/-- A batch over time: the statuses of its actions by their keys, and its state. A failed action and an ended
batch stay as they are. -/
structure Timeline where
  status : ℕ → String → Option ActionStatus
  batch : ℕ → BatchState
  inputKey_eq {t : ℕ} {key : String} {action : ActionStatus} :
    status t key = some action → action.inputKey = key
  failed_stays {t t' : ℕ} {key : String} {action : ActionStatus} : t ≤ t' → status t key = some action →
    action.state = .failed → status t' key = some action
  ended_stays {t t' : ℕ} : t ≤ t' → batch t ≠ .running → batch t' = batch t

deriving instance DecidableEq for Progress, ProofFailure, Outcome

open EventStream

/-- A batch of one action in which nothing happens. -/
def Timeline.still (action : ActionStatus) (state : BatchState) : Timeline where
  status _ key := if action.inputKey = key then some action else none
  batch _ := state
  inputKey_eq h := by
    obtain ⟨hkey, haction⟩ := Option.ite_none_right_eq_some.mp h
    exact Option.some.inj haction ▸ hkey
  failed_stays _ h _ := h
  ended_stays _ _ := rfl

theorem Timeline.still_status (action : ActionStatus) (state : BatchState) (t : ℕ) :
    (Timeline.still action state).status t action.inputKey = some action := if_pos rfl

/-- The lines that a stream sends from a time to another: statuses as they are, and at the end the batch's
final state. A stream of the coordinator starts with the statuses of all actions; nothing depends on it. -/
inductive Sent (T : Timeline) : ℕ → List Line → ℕ → Prop
  | nil (t : ℕ) : Sent T t [] t
  | later {t t' : ℕ} {lines : List Line} : Sent T (t + 1) lines t' → Sent T t lines t'
  | blank {t t' : ℕ} {lines : List Line} : Sent T t lines t' → Sent T t (.blank :: lines) t'
  | action {t t' : ℕ} {lines : List Line} {action : ActionStatus} :
    T.status t action.inputKey = some action → Sent T t lines t' → Sent T t (.action action :: lines) t'
  | batch {t : ℕ} {state : BatchState} {failure : Option String} : T.batch t = state → state ≠ .running →
    Sent T t [.batch state failure] t

def lineText : Line → Text
  | .action action => lineOfObject (actionObject action)
  | .batch state failure => lineOfObject (batchObject state failure)
  | .blank => ['\n']

/-- No line of the text is an event. -/
def Foreign (text : Text) : Prop :=
  ∀ line ∈ inputLines text, complete line = true → field "type" line ≠ some "action" ∧
    field "type" line ≠ some "batch"

/-- The client gets the key and the state of a status. -/
def Legible (action : ActionStatus) : Prop :=
  Reads "input_key" (actionObject action) ∧ Reads "state" (actionObject action)

instance (name : String) (object : Object) : Decidable (Reads name object) :=
  inferInstanceAs (Decidable (∀ text ∈ stringValue name object, _ ∧ _))

instance (action : ActionStatus) : Decidable (Legible action) := inferInstanceAs (Decidable (_ ∧ _))

instance (text : Text) : Decidable (Foreign text) := inferInstanceAs (Decidable (∀ _ ∈ _, _))

/-- What curl says of a broken stream: nothing, or a message without braces. -/
def Message (errors : Text) : Prop :=
  errors = [] ∨ '}' ∉ errors ∧ errors.head?.any isSmlSpace = false

instance (errors : Text) : Decidable (Message errors) := inferInstanceAs (Decidable (_ ∨ _))

/-- An attach: a stream of which some lines arrive whole, and of the next one at most the given number of
characters; or an answer or a failure without events. -/
inductive Connection
  | stream (whole : List Line) (cut : Option (Line × ℕ)) (errors : Text)
  | refused (output : Text)

namespace Connection

/-- What arrives of the line that is cut off. -/
def cutText : Option (Line × ℕ) → Text
  | some (line, n) => (lineText line).take n
  | none => []

/-- All that curl writes. -/
def output : Connection → Text
  | .stream whole cut errors =>
    whole.flatMap lineText ++ (cutText cut ++ (errors ++ '\n' :: "200".toList))
  | .refused output => output

/-- The lines that arrive: also one whose newline only is cut off, if no message stands in its place. -/
def arrived : Connection → List Line
  | .stream whole (some (line, n)) errors =>
    if errors = [] ∧ n + 1 = (lineText line).length then whole ++ [line] else whole
  | .stream whole none _ => whole
  | .refused _ => []

/-- The lines of the stream up to the one that is cut off. -/
def lines : Connection → List Line
  | .stream whole (some (line, _)) _ => whole ++ [line]
  | .stream whole none _ => whole
  | .refused _ => []

/-- What an attach is: a line is cut off before its end, and an answer is no answer or a server error. -/
def Regular : Connection → Prop
  | .stream _ cut errors => (∀ last ∈ cut, last.2 < (lineText last.1).length) ∧ Message errors
  | .refused output => Foreign output ∧ broken (splitStatus (inputLines output).flatten).2 = true

instance : (connection : Connection) → Decidable connection.Regular
  | .stream _ _ _ => inferInstanceAs (Decidable (_ ∧ _))
  | .refused _ => inferInstanceAs (Decidable (_ ∧ _))

/-- The client can read the keys and states of the statuses, and no line is cut off, without a message,
where a part of it ends as an object does. -/
def Unharmed : Connection → Prop
  | .stream whole cut errors =>
    (∀ action, .action action ∈ (stream whole cut errors).lines → Legible action) ∧
      ∀ last ∈ cut, errors = [] → last.2 + 1 < (lineText last.1).length →
        complete (cutText cut) = false
  | .refused _ => True

end Connection

/-! ### What was heard -/

/-- The statuses of lines, the last one first, before those heard earlier. -/
def hear (earlier : List ActionStatus) : List Line → List ActionStatus
  | [] => earlier
  | .action action :: lines => hear (action :: earlier) lines
  | _ :: lines => hear earlier lines

/-- The statuses that arrive on attaches, the last one first, before those heard earlier. -/
def hearAll (earlier : List ActionStatus) : List Connection → List ActionStatus
  | [] => earlier
  | connection :: connections => hearAll (hear earlier connection.arrived) connections

/-- All statuses that arrived, the last one first. -/
def heard (connections : List Connection) : List ActionStatus := hearAll [] connections

/-- The last status of an action. -/
def lastHeard (statuses : List ActionStatus) (key : String) : Option ActionStatus :=
  statuses.find? fun action ↦ action.inputKey = key

/-- How many statuses changed the state of an action, the first one of each included. -/
def stateChanges : List ActionStatus → ℕ
  | [] => 0
  | action :: earlier =>
    stateChanges earlier +
      if (lastHeard earlier action.inputKey).map (·.state) = some action.state then 0 else 1

/-- The actions that were heard of. -/
def heardKeys (statuses : List ActionStatus) : List String := (statuses.map (·.inputKey)).dedup

/-- How many actions were done at last, of how many. -/
def heardProgress (statuses : List ActionStatus) : Progress :=
  ⟨((heardKeys statuses).filter fun key ↦ (lastHeard statuses key).map (·.state) = some .done).length,
    (heardKeys statuses).length⟩

/-- The attaches to a batch from a time on, one after the other. -/
inductive Attaches (T : Timeline) : ℕ → List Connection → Prop
  | nil (t : ℕ) : Attaches T t []
  | later {t : ℕ} {connections : List Connection} : Attaches T (t + 1) connections →
    Attaches T t connections
  | attach {t t' : ℕ} {connection : Connection} {rest : List Line} {connections : List Connection} :
    connection.Regular → Sent T t (connection.lines ++ rest) t' → Attaches T t' connections →
    Attaches T t (connection :: connections)

/-- An action failed by its proof. -/
def ProofFailed (action : ActionStatus) : Prop :=
  action.state = .failed ∧
    (action.lastFailure = some .proof ∨ action.lastFailure = some .tacticTimeout)

/-! ### The lines of an output -/

/-- A character within a line is held. -/
theorem inputLinesFrom_cons {c : Char} (hc : '\n' ≠ c) (held rest : Text) :
    inputLinesFrom held (c :: rest) = inputLinesFrom (c :: held) rest := by
  rw [inputLinesFrom]
  exact hc.symm

theorem inputLinesFrom_newline (held rest : Text) :
    inputLinesFrom held ('\n' :: rest) = (held.reverse ++ ['\n']) :: inputLines rest := by
  rw [inputLinesFrom, inputLines]

theorem inputLinesFrom_append {line : Text} (hline : '\n' ∉ line) (held rest : Text) :
    inputLinesFrom held (line ++ rest) = inputLinesFrom (line.reverse ++ held) rest := by
  induction line generalizing held with
  | nil => rfl
  | cons c line ih =>
    rw [List.mem_cons, not_or] at hline
    rw [List.cons_append, inputLinesFrom_cons hline.1, ih hline.2, List.reverse_cons, List.append_assoc]
    rfl

theorem inputLines_append {line : Text} (hline : '\n' ∉ line) (rest : Text) :
    inputLines (line ++ '\n' :: rest) = (line ++ ['\n']) :: inputLines rest := by
  rw [inputLines, inputLinesFrom_append hline, inputLinesFrom_newline]
  simp

/-- The lines of a text that has a newline behind it: the first one goes on what is held, and the others
consist of the text's characters. -/
theorem inputLinesFrom_split (rest : Text) : ∀ text held : Text, ∃ others,
    inputLinesFrom held (text ++ '\n' :: rest) =
      (held.reverse ++ text.takeWhile (· ≠ '\n') ++ ['\n']) :: (others ++ inputLines rest) ∧
    ∀ other ∈ others, ∃ body, other = body ++ ['\n'] ∧ ∀ c ∈ body, c ∈ text
  | [], held => ⟨[], by simp [inputLinesFrom_newline], by simp⟩
  | c :: text, held => by
    by_cases hc : '\n' = c
    · subst hc
      obtain ⟨others, hlines, hothers⟩ := inputLinesFrom_split rest text []
      refine ⟨(text.takeWhile (· ≠ '\n') ++ ['\n']) :: others, ?_, fun other hmem ↦ ?_⟩
      · rw [List.cons_append, inputLinesFrom_newline, inputLines, hlines]
        simp
      · rcases List.mem_cons.mp hmem with rfl | hmem
        · exact ⟨_, rfl, fun d hd ↦ List.mem_cons_of_mem _ ((List.takeWhile_prefix _).subset hd)⟩
        · obtain ⟨body, hbody, hchars⟩ := hothers other hmem
          exact ⟨body, hbody, fun d hd ↦ List.mem_cons_of_mem _ (hchars d hd)⟩
    · obtain ⟨others, hlines, hothers⟩ := inputLinesFrom_split rest text (c :: held)
      refine ⟨others, ?_, fun other hmem ↦ ?_⟩
      · rw [List.cons_append, inputLinesFrom_cons hc, hlines,
          List.takeWhile_cons_of_pos (by simpa using Ne.symm hc)]
        simp
      · obtain ⟨body, hbody, hchars⟩ := hothers other hmem
        exact ⟨body, hbody, fun d hd ↦ List.mem_cons_of_mem _ (hchars d hd)⟩

theorem exists_lineText (line : Line) : ∃ body, lineText line = body ++ ['\n'] ∧ '\n' ∉ body := by
  cases line with
  | action action => exact ⟨_, rfl, newline_notMem_dumps false _⟩
  | batch state failure => exact ⟨_, rfl, newline_notMem_dumps false _⟩
  | blank => exact ⟨[], rfl, List.not_mem_nil⟩

theorem inputLines_lineText (line : Line) (rest : Text) :
    inputLines (lineText line ++ rest) = lineText line :: inputLines rest := by
  obtain ⟨body, hbody, hplain⟩ := exists_lineText line
  rw [hbody, List.append_assoc]
  exact inputLines_append hplain rest

theorem inputLines_whole (whole : List Line) (rest : Text) :
    inputLines (whole.flatMap lineText ++ rest) = whole.map lineText ++ inputLines rest := by
  induction whole with
  | nil => rfl
  | cons line whole ih =>
    rw [List.flatMap_cons, List.append_assoc, inputLines_lineText, ih]
    rfl

/-! ### Lines that are no events -/

theorem complete_concat_space {c : Char} (hc : isSmlSpace c = true) (line : Text) :
    complete (line ++ [c]) = complete line := by
  rw [complete, complete, List.reverse_append, List.reverse_singleton, List.singleton_append,
    List.dropWhile_cons_of_pos hc]

/-- A line without a brace is no event. -/
theorem complete_of_notMem {line : Text} (h : '}' ∉ line) : complete line = false := by
  rw [complete, decide_eq_false_iff_not]
  intro hhead
  have hmem := (List.dropWhile_suffix isSmlSpace).subset (List.mem_of_mem_head? hhead)
  exact h (List.mem_reverse.mp hmem)

/-- What follows the part of a line that arrived decides whether the line is complete. -/
theorem complete_append {line behind : Text} (hbrace : '}' ∉ behind) (hhead : behind.head?.any isSmlSpace = false)
    (hne : behind ≠ []) : complete (line ++ behind) = false := by
  rw [complete, decide_eq_false_iff_not, List.reverse_append]
  intro h
  obtain ⟨c, rest, rfl⟩ := List.exists_cons_of_ne_nil hne
  have hc : ¬ isSmlSpace c = true := by
    rw [Bool.not_eq_true]
    exact hhead
  have hdrop : (c :: rest).reverse.dropWhile isSmlSpace ≠ [] := by
    rw [Ne, List.dropWhile_eq_nil_iff]
    exact fun hall ↦ hc (hall c (by simp))
  rw [List.dropWhile_append, if_neg (by simpa using hdrop), List.head?_append_of_ne_nil _ hdrop] at h
  have hmem := (List.dropWhile_suffix isSmlSpace).subset (List.mem_of_mem_head? h)
  exact hbrace (List.mem_reverse.mp hmem)

/-- A line that is no event is kept for the end. -/
def Other (line : Text) : Prop :=
  complete line = true → field "type" line ≠ some "action" ∧ field "type" line ≠ some "batch"

theorem onLine_other {line : Text} (h : Other line) (s : Follower × Attached) :
    onLine s line = (s.1, { s.2 with others := line :: s.2.others }) := by
  rw [onLine]
  split
  · next haction =>
    split_ifs at haction with hcomplete
    exact absurd haction (h hcomplete).1
  · next hbatch =>
    split_ifs at hbatch with hcomplete
    exact absurd hbatch (h hcomplete).2
  · rfl

theorem foldl_onLine_others {lines : List Text} (h : ∀ line ∈ lines, Other line) (s : Follower × Attached) :
    lines.foldl onLine s = (s.1, { s.2 with others := lines.reverse ++ s.2.others }) := by
  induction lines generalizing s with
  | nil => rfl
  | cons line lines ih =>
    rw [List.foldl_cons, onLine_other (h line List.mem_cons_self),
      ih fun other hmem ↦ h other (List.mem_cons_of_mem _ hmem)]
    simp

/-! ### The HTTP status -/

theorem tokens_append_sep {p : Char → Bool} {sep : Char} (hsep : p sep = true) (first second : Text) :
    tokens p (first ++ sep :: second) = tokens p first ++ tokens p second := by
  have hsplit : (first ++ sep :: second).splitOnP p = first.splitOnP p ++ second.splitOnP p := by
    induction first with
    | nil => rw [List.nil_append, List.splitOnP_cons_eq_if_modifyHead, if_pos hsep]; rfl
    | cons c first ih =>
      rw [List.cons_append, List.splitOnP_cons_eq_if_modifyHead, List.splitOnP_cons_eq_if_modifyHead, ih]
      split_ifs
      · rfl
      · obtain ⟨piece, pieces, hpieces⟩ := List.exists_cons_of_ne_nil (List.splitOnP_ne_nil p first)
        rw [hpieces]
        rfl
  rw [tokens, hsplit, List.filter_append]
  rfl

/-- The status stands on the last line. -/
theorem splitStatus_last {lines : List Text} (hlines : ∀ line ∈ lines, ∃ body, line = body ++ ['\n']) :
    (splitStatus ((lines ++ ["200\n".toList]).flatten)).2 = 200 := by
  have htokens : ∃ earlier, tokens (· = '\n') ((lines ++ ["200\n".toList]).flatten) =
      earlier ++ ["200".toList] := by
    rcases List.eq_nil_or_concat lines with rfl | ⟨before, last, rfl⟩
    · exact ⟨[], by decide⟩
    · obtain ⟨body, rfl⟩ := hlines last (by simp)
      refine ⟨tokens (· = '\n') (before.flatten ++ body), ?_⟩
      have htext : (before ++ [body ++ ['\n']] ++ ["200\n".toList]).flatten =
          (before.flatten ++ body) ++ '\n' :: "200\n".toList := by simp
      have hstatus : tokens (· = '\n') "200\n".toList = ["200".toList] := by decide
      rw [List.concat_eq_append, htext, tokens_append_sep (by decide), hstatus]
  obtain ⟨earlier, hearlier⟩ := htokens
  rw [splitStatus, hearlier, List.reverse_append]
  rfl

/-! ### Lines of the coordinator -/

theorem complete_lineOfObject (object : Object) : complete (lineOfObject object) = true := by
  have hbody : dumps false object =
      '{' :: List.intercalate (',' :: spacing false) (object.map (memberText false)) ++ ['}'] := rfl
  rw [lineOfObject, complete_concat_space (by decide), hbody, complete, List.reverse_append,
    List.reverse_singleton, List.singleton_append, List.dropWhile_cons_of_neg (by decide)]
  rfl

theorem field_lineOfObject {name : String} (hname : name ∈ clientFields) {object : Object}
    (hobject : Named object) :
    field name (lineOfObject object) = (readMember name object).map String.ofList := by
  rw [field, lineOfObject, jsonStringField_dumps (fieldName_of_clientFields name hname) false hobject (by decide)]

/-- What the client gets of a member that it reads. -/
theorem field_of_reads {name : String} (hname : name ∈ clientFields) {object : Object} (hobject : Named object)
    (h : Reads name object) {text : String} (htext : stringValue name object = some text.toList) :
    field name (lineOfObject object) = some text := by
  rw [field_lineOfObject hname hobject, readMember_eq_iff.mpr h, htext, Option.map_some, String.ofList_toList]

/-- What the client gets of a string without escapes is the string, or nothing. -/
theorem field_of_plain {name : String} (hname : name ∈ clientFields) {object : Object} (hobject : Named object)
    {text : String} (h : field name (lineOfObject object) = some text)
    (hplain : ∀ value, stringValue name object = some value → ∀ c ∈ value, isPlain c = true) :
    stringValue name object = some text.toList := by
  rw [field_lineOfObject hname hobject, Option.map_eq_some_iff] at h
  obtain ⟨value, hvalue, rfl⟩ := h
  rw [String.toList_ofList]
  induction object with
  | nil => cases hvalue
  | cons member rest ih =>
    obtain ⟨other, content⟩ := member
    rw [readMember] at hvalue
    rw [stringValue_cons] at hplain ⊢
    by_cases hother : other = name
    · rw [if_pos hother] at hvalue hplain ⊢
      obtain ⟨original, horiginal, rfl⟩ := Option.map_eq_some_iff.mp hvalue
      rw [horiginal, decoded_eq_iff.mpr (hplain original horiginal)]
    · rw [if_neg hother] at hvalue hplain ⊢
      split_ifs at hvalue
      exact ih (fun member hmem ↦ hobject member (List.mem_cons_of_mem _ hmem)) hplain hvalue

theorem field_type_action (action : ActionStatus) :
    field "type" (lineText (.action action)) = some "action" :=
  (field_lineOfObject (by decide) (named_actionObject action)).trans (by rfl)

theorem field_type_batch (state : BatchState) (failure : Option String) :
    field "type" (lineText (.batch state failure)) = some "batch" :=
  (field_lineOfObject (by decide) (named_batchObject state failure)).trans (by rfl)

/-- The proof that the client takes a failed action to have failed by is what it failed by. -/
theorem field_last_failure {action : ActionStatus} {kind : String}
    (h : field "last_failure" (lineText (.action action)) = some kind) :
    ∃ failure, action.lastFailure = some failure ∧ failure.text = kind := by
  have hvalue : stringValue "last_failure" (actionObject action) =
      (action.lastFailure.map Failure.text).map String.toList := by
    cases action with
    | mk key theory state tier attempts lastFailure log => cases lastFailure <;> rfl
  have hread := field_of_plain (by decide) (named_actionObject action) h (by
    intro value hsome
    rw [hvalue] at hsome
    cases hfailure : action.lastFailure with
    | none => rw [hfailure] at hsome; cases hsome
    | some failure =>
      rw [hfailure] at hsome
      obtain rfl := Option.some.inj hsome
      cases failure <;> decide)
  rw [hvalue] at hread
  cases hfailure : action.lastFailure with
  | none => rw [hfailure] at hread; cases hread
  | some failure =>
    rw [hfailure] at hread
    exact ⟨failure, rfl, String.toList_injective (Option.some.inj hread)⟩

theorem onLine_action {action : ActionStatus} (h : Legible action) (s : Follower × Attached) :
    onLine s (lineText (.action action)) =
      onAction action.inputKey (stateText action.state) (field "last_failure" (lineText (.action action)))
        (field "log_sha256" (lineText (.action action))) s.1 s.2 := by
  have hnamed := named_actionObject action
  have hkey : field "input_key" (lineText (.action action)) = some action.inputKey :=
    field_of_reads (by decide) hnamed h.1 rfl
  have hstate : field "state" (lineText (.action action)) = some (stateText action.state) :=
    field_of_reads (by decide) hnamed h.2 rfl
  have hcomplete : complete (lineText (.action action)) = true := complete_lineOfObject _
  rw [onLine, if_pos hcomplete, field_type_action, hkey, hstate]
  rfl

theorem onLine_batch (state : BatchState) (failure : Option String) (s : Follower × Attached) :
    onLine s (lineText (.batch state failure)) =
      (s.1, { s.2 with outcome := some (batchOutcome (lineText (.batch state failure)) s.1.proofFailure) }) := by
  have hcomplete : complete (lineText (.batch state failure)) = true := complete_lineOfObject _
  rw [onLine, if_pos hcomplete, field_type_batch]
  rfl

/-! ### What is kept -/

theorem stateText_injective : Function.Injective stateText := by
  intro first second h
  cases first <;> cases second <;> first | rfl | exact absurd h (by decide)

/-- What the follower keeps is what it heard. -/
structure Keeps (s : Follower) (statuses : List ActionStatus) : Prop where
  nodup : (s.states.map Prod.fst).Nodup
  states (key state : String) : (key, state) ∈ s.states ↔
    ∃ action, lastHeard statuses key = some action ∧ stateText action.state = state
  doneKeys (key : String) : key ∈ s.doneKeys ↔
    ∃ action ∈ statuses, action.inputKey = key ∧ action.state = .done
  proof (failure : ProofFailure) : s.proofFailure = some failure →
    ∃ action ∈ statuses, action.inputKey = failure.inputKey ∧ ProofFailed action

theorem keeps_start : Keeps Follower.start [] where
  nodup := List.nodup_nil
  states key state := by simp [Follower.start, lastHeard]
  doneKeys key := by simp [Follower.start]
  proof failure h := nomatch h

theorem lastHeard_cons (action : ActionStatus) (statuses : List ActionStatus) (key : String) :
    lastHeard (action :: statuses) key =
      if action.inputKey = key then some action else lastHeard statuses key := by
  by_cases hkey : action.inputKey = key
  · rw [lastHeard, List.find?_cons_of_pos (by simpa using hkey), if_pos hkey]
  · rw [lastHeard, List.find?_cons_of_neg (by simpa using hkey), if_neg hkey]
    rfl

theorem mem_of_lastHeard {statuses : List ActionStatus} {key : String} {action : ActionStatus}
    (h : lastHeard statuses key = some action) : action ∈ statuses ∧ action.inputKey = key :=
  ⟨List.mem_of_find?_eq_some h, by simpa using List.find?_some h⟩

theorem failedProof_eq_some {key state : String} {lastFailure logSha256 : Option String} {failure : ProofFailure}
    (h : failedProof key state lastFailure logSha256 = some failure) :
    failure.inputKey = key ∧ state = "failed" ∧
      (lastFailure = some "proof" ∨ lastFailure = some "tactic-timeout") := by
  rcases lastFailure with _ | kind
  · cases h
  rcases logSha256 with _ | log
  · cases h
  · rw [failedProof] at h
    split_ifs at h with hfailed
    obtain rfl := Option.some.inj h
    exact ⟨rfl, hfailed.1, hfailed.2.imp (congrArg some) (congrArg some)⟩

/-- A proof that is kept failed an action that was heard of. -/
theorem Keeps.proof_cons {s : Follower} {statuses : List ActionStatus} (h : Keeps s statuses)
    {action : ActionStatus} {lastFailure : Option String} (logSha256 : Option String)
    (hfailure : ∀ kind, lastFailure = some kind →
      ∃ failure, action.lastFailure = some failure ∧ failure.text = kind) (failure : ProofFailure)
    (hkept : (failedProof action.inputKey (stateText action.state) lastFailure logSha256).or s.proofFailure =
      some failure) :
    ∃ other ∈ action :: statuses, other.inputKey = failure.inputKey ∧ ProofFailed other := by
  rcases hproof : failedProof action.inputKey (stateText action.state) lastFailure logSha256 with _ | found
  · rw [hproof, Option.none_or] at hkept
    obtain ⟨other, hmem, hother⟩ := h.proof failure hkept
    exact ⟨other, List.mem_cons_of_mem _ hmem, hother⟩
  · rw [hproof, Option.some_or] at hkept
    obtain rfl := Option.some.inj hkept
    obtain ⟨hkey, hstate, hkind⟩ := failedProof_eq_some hproof
    have htext : ∀ first second : RemoteExec.Failure, first.text = second.text → first = second := by
      intro first second h
      cases first <;> cases second <;> first | rfl | exact absurd h (by decide)
    refine ⟨action, List.mem_cons_self, hkey.symm, stateText_injective hstate, ?_⟩
    rcases hkind with hkind | hkind
    · obtain ⟨failure, hfound, hfailure⟩ := hfailure _ hkind
      exact .inl (hfound.trans (congrArg some (htext failure .proof hfailure)))
    · obtain ⟨failure, hfound, hfailure⟩ := hfailure _ hkind
      exact .inr (hfound.trans (congrArg some (htext failure .tacticTimeout hfailure)))

/-- The state that is kept is the one the action had at last. -/
theorem Keeps.mem_states_iff {s : Follower} {statuses : List ActionStatus} (h : Keeps s statuses)
    (key : String) (state : ActionState) :
    (key, stateText state) ∈ s.states ↔ (lastHeard statuses key).map (·.state) = some state := by
  rw [h.states, Option.map_eq_some_iff]
  exact exists_congr fun action ↦ and_congr_right fun _ ↦ stateText_injective.eq_iff

theorem changed_iff {action : ActionStatus} {statuses : List ActionStatus} :
    stateChanges statuses < stateChanges (action :: statuses) ↔
      (lastHeard statuses action.inputKey).map (·.state) ≠ some action.state := by
  rw [stateChanges]
  split_ifs with hsame
  · exact iff_of_false (lt_irrefl _) (fun h ↦ h hsame)
  · exact iff_of_true (Nat.lt_succ_self _) hsame

/-- A status that repeats the action's state. -/
theorem Keeps.repeated {s : Follower} {statuses : List ActionStatus} (h : Keeps s statuses)
    {action : ActionStatus} (hsame : (lastHeard statuses action.inputKey).map (·.state) = some action.state)
    {proof : Option ProofFailure}
    (hproof : ∀ failure, proof = some failure →
      ∃ other ∈ action :: statuses, other.inputKey = failure.inputKey ∧ ProofFailed other) :
    Keeps { s with proofFailure := proof } (action :: statuses) where
  nodup := h.nodup
  states key state := by
    rw [h.states, lastHeard_cons]
    by_cases hkey : action.inputKey = key
    · subst hkey
      obtain ⟨last, hlast, hstate⟩ := Option.map_eq_some_iff.mp hsame
      rw [if_pos rfl, hlast]
      simp [hstate]
    · rw [if_neg hkey]
  doneKeys key := by
    rw [h.doneKeys]
    constructor
    · rintro ⟨other, hmem, hother⟩
      exact ⟨other, List.mem_cons_of_mem _ hmem, hother⟩
    · rintro ⟨other, hmem, hkey, hdone⟩
      rcases List.mem_cons.mp hmem with rfl | hmem
      · obtain ⟨last, hlast, hstate⟩ := Option.map_eq_some_iff.mp hsame
        obtain ⟨hlastMem, hlastKey⟩ := mem_of_lastHeard hlast
        exact ⟨last, hlastMem, hlastKey.trans hkey, hstate.trans hdone⟩
      · exact ⟨other, hmem, hkey, hdone⟩
  proof failure hfailure := hproof failure hfailure

/-- A status that changes the action's state. -/
theorem Keeps.change {s : Follower} {statuses : List ActionStatus} (h : Keeps s statuses)
    (action : ActionStatus) {proof : Option ProofFailure}
    (hproof : ∀ failure, proof = some failure →
      ∃ other ∈ action :: statuses, other.inputKey = failure.inputKey ∧ ProofFailed other) :
    Keeps
      { states := (action.inputKey, stateText action.state) ::
          s.states.filter fun entry ↦ entry.1 ≠ action.inputKey
        proofFailure := proof
        doneKeys := if stateText action.state = "done" then s.doneKeys ++ [action.inputKey] else s.doneKeys }
      (action :: statuses) where
  nodup := by
    rw [List.map_cons, List.nodup_cons]
    constructor
    · simp
    · exact h.nodup.sublist (List.filter_sublist.map _)
  states key state := by
    rw [lastHeard_cons, List.mem_cons, List.mem_filter, h.states]
    by_cases hkey : action.inputKey = key
    · subst hkey
      simp [eq_comm]
    · simp [hkey, Ne.symm hkey]
  doneKeys key := by
    have hdone : stateText action.state = stateText .done ↔ action.state = .done :=
      stateText_injective.eq_iff
    have hmem : (key ∈ if stateText action.state = "done" then s.doneKeys ++ [action.inputKey] else s.doneKeys) ↔
        key ∈ s.doneKeys ∨ action.inputKey = key ∧ action.state = .done := by
      split_ifs with htext
      · simp [hdone.mp htext, eq_comm]
      · have hnot : action.state ≠ .done := fun h ↦ htext (hdone.mpr h)
        simp [hnot]
    rw [hmem, h.doneKeys, List.exists_mem_cons_iff]
    exact or_comm
  proof failure hfailure := hproof failure hfailure

/-- A status goes on what is kept, and is a change if the action's state was another. -/
theorem Keeps.onAction {s : Follower} {statuses : List ActionStatus} (h : Keeps s statuses)
    {action : ActionStatus} (a : Attached) {lastFailure : Option String} (logSha256 : Option String)
    (hfailure : ∀ kind, lastFailure = some kind →
      ∃ failure, action.lastFailure = some failure ∧ failure.text = kind) :
    Keeps (onAction action.inputKey (stateText action.state) lastFailure logSha256 s a).1
        (action :: statuses) ∧
      (onAction action.inputKey (stateText action.state) lastFailure logSha256 s a).2 =
        { a with changed := a.changed || decide (stateChanges statuses < stateChanges (action :: statuses)) } := by
  have hproof := h.proof_cons logSha256 hfailure
  rw [Commands.onAction]
  by_cases hsame : (lastHeard statuses action.inputKey).map (·.state) = some action.state
  · have hchanged : ¬ stateChanges statuses < stateChanges (action :: statuses) :=
      fun h ↦ changed_iff.mp h hsame
    rw [if_pos ((h.mem_states_iff _ _).mpr hsame), decide_eq_false hchanged, Bool.or_false]
    exact ⟨h.repeated hsame hproof, rfl⟩
  · rw [if_neg fun hmem ↦ hsame ((h.mem_states_iff _ _).mp hmem), decide_eq_true (changed_iff.mpr hsame),
      Bool.or_true]
    exact ⟨h.change action hproof, rfl⟩

theorem Keeps.onLine_action {s : Follower} {statuses : List ActionStatus} (h : Keeps s statuses)
    {action : ActionStatus} (hlegible : Legible action) (a : Attached) :
    ∃ s', onLine (s, a) (lineText (.action action)) = (s', { a with
      changed := a.changed || decide (stateChanges statuses < stateChanges (action :: statuses)) }) ∧
      Keeps s' (action :: statuses) := by
  obtain ⟨hkeeps, hattached⟩ := h.onAction a (field "log_sha256" (lineText (.action action)))
    (fun kind (hkind : field "last_failure" (lineText (.action action)) = some kind) ↦
      field_last_failure hkind)
  refine ⟨_, ?_, hkeeps⟩
  rw [Commands.onLine_action hlegible, ← hattached]

/-! ### One stream -/

/-- What a stream's end says, of the statuses that came before it. -/
def Ends (lines : List Line) (statuses : List ActionStatus) (outcome : Outcome) : Prop :=
  ∃ state failure proof, .batch state failure ∈ lines ∧
    outcome = batchOutcome (lineText (.batch state failure)) proof ∧
    ∀ failed, proof = some failed → ∃ action ∈ statuses, action.inputKey = failed.inputKey ∧ ProofFailed action

theorem mem_hear {action : ActionStatus} {earlier : List ActionStatus} (h : action ∈ earlier)
    (lines : List Line) : action ∈ hear earlier lines := by
  induction lines generalizing earlier with
  | nil => exact h
  | cons line lines ih =>
    cases line with
    | action other => exact ih (List.mem_cons_of_mem _ h)
    | batch state failure => exact ih h
    | blank => exact ih h

theorem stateChanges_le_hear (earlier : List ActionStatus) (lines : List Line) :
    stateChanges earlier ≤ stateChanges (hear earlier lines) := by
  induction lines generalizing earlier with
  | nil => exact le_rfl
  | cons line lines ih =>
    cases line with
    | action action => exact (Nat.le_add_right _ _).trans (ih (action :: earlier))
    | batch state failure => exact ih earlier
    | blank => exact ih earlier

/-- The client's state after lines that it could read, from a state that keeps what was heard before. -/
structure Streamed (lines : List Line) (statuses : List ActionStatus) (a : Attached)
    (after : Follower × Attached) : Prop where
  keeps : Keeps after.1 (hear statuses lines)
  changed : after.2.changed = (a.changed || decide (stateChanges statuses < stateChanges (hear statuses lines)))
  others : ∃ blanks : List Text, (∀ blank ∈ blanks, blank = ['\n']) ∧ after.2.others = blanks ++ a.others
  outcome : after.2.outcome = a.outcome ∨
    ∃ outcome, after.2.outcome = some outcome ∧ Ends lines (hear statuses lines) outcome

theorem Ends.cons {lines : List Line} {statuses : List ActionStatus} {outcome : Outcome} (line : Line)
    (h : Ends lines statuses outcome) : Ends (line :: lines) statuses outcome := by
  obtain ⟨state, failure, proof, hmem, heq⟩ := h
  exact ⟨state, failure, proof, List.mem_cons_of_mem _ hmem, heq⟩

/-- Whole lines that the client can read: it keeps what it hears, and notes the batch's end. -/
theorem streamed_foldl {lines : List Line} (hlegible : ∀ action, .action action ∈ lines → Legible action)
    {s : Follower} (a : Attached) {statuses : List ActionStatus} (h : Keeps s statuses) :
    Streamed lines statuses a ((lines.map lineText).foldl onLine (s, a)) := by
  induction lines generalizing s a statuses with
  | nil => exact ⟨h, by simp [hear], ⟨[], by simp, rfl⟩, .inl rfl⟩
  | cons line lines ih =>
    have hrest : ∀ action, .action action ∈ lines → Legible action :=
      fun action hmem ↦ hlegible action (List.mem_cons_of_mem _ hmem)
    rw [List.map_cons, List.foldl_cons]
    cases line with
    | action action =>
      obtain ⟨s', hline, hkeeps⟩ := h.onLine_action (hlegible action List.mem_cons_self) a
      rw [hline]
      have hafter := ih hrest { a with
        changed := a.changed || decide (stateChanges statuses < stateChanges (action :: statuses)) } hkeeps
      have hle := stateChanges_le_hear (action :: statuses) lines
      have hfirst : stateChanges statuses ≤ stateChanges (action :: statuses) := Nat.le_add_right _ _
      refine ⟨hafter.keeps, ?_, hafter.others, ?_⟩
      · rw [hafter.changed, Bool.or_assoc, ← Bool.decide_or]
        congr 2
        rw [hear]
        exact propext (by omega)
      · exact hafter.outcome.imp_right fun ⟨outcome, houtcome, hends⟩ ↦ ⟨outcome, houtcome, hends.cons _⟩
    | batch state failure =>
      rw [onLine_batch]
      have hafter := ih hrest { a with
        outcome := some (batchOutcome (lineText (.batch state failure)) s.proofFailure) } h
      refine ⟨hafter.keeps, hafter.changed, hafter.others, .inr ?_⟩
      rcases hafter.outcome with houtcome | ⟨outcome, houtcome, hends⟩
      · refine ⟨_, houtcome, state, failure, s.proofFailure, List.mem_cons_self, rfl, fun failed hfailed ↦ ?_⟩
        obtain ⟨action, hmem, hfailure⟩ := h.proof failed hfailed
        exact ⟨action, mem_hear hmem _, hfailure⟩
      · exact ⟨outcome, houtcome, hends.cons _⟩
    | blank =>
      have hother : Other ['\n'] := fun hcomplete ↦ absurd hcomplete (by decide)
      have hline : lineText .blank = ['\n'] := rfl
      rw [hline, onLine_other hother]
      have hafter := ih hrest { a with others := ['\n'] :: a.others } h
      refine ⟨hafter.keeps, hafter.changed, ?_, ?_⟩
      · obtain ⟨blanks, hblanks, hothers⟩ := hafter.others
        refine ⟨blanks ++ [['\n']], fun blank hmem ↦ ?_, by rw [hothers]; simp⟩
        rcases List.mem_append.mp hmem with hmem | hmem
        · exact hblanks blank hmem
        · exact List.mem_singleton.mp hmem
      · exact hafter.outcome.imp_right fun ⟨outcome, houtcome, hends⟩ ↦ ⟨outcome, houtcome, hends.cons _⟩

/-! ### One attach -/

theorem other_of_complete {line : Text} (h : complete line = false) : Other line :=
  fun hcomplete ↦ absurd (h.symm.trans hcomplete) (by decide)

theorem newline_notMem_cutText {line : Line} {n : ℕ} (hn : n < (lineText line).length) :
    '\n' ∉ (lineText line).take n := by
  obtain ⟨body, hbody, hplain⟩ := exists_lineText line
  rw [hbody, List.length_append, List.length_singleton] at hn
  rw [hbody, List.take_append_of_le_length (Nat.le_of_lt_succ hn)]
  exact fun h ↦ hplain ((List.take_prefix n body).subset h)

/-- The lines of what arrives of a line, of a message and of the HTTP status. -/
theorem inputLines_cut {cut errors : Text} (hcut : '\n' ∉ cut) (herrors : Message errors)
    (hcomplete : errors = [] → complete cut = false) :
    ∃ tail, inputLines (cut ++ (errors ++ '\n' :: "200".toList)) = tail ++ ["200\n".toList] ∧
      ∀ line ∈ tail, Other line ∧ ∃ body, line = body ++ ['\n'] := by
  obtain ⟨others, hlines, hothers⟩ := inputLinesFrom_split "200".toList errors (cut.reverse ++ [])
  have hstatus : inputLines "200".toList = ["200\n".toList] := by decide
  have hfirst : (cut.reverse ++ ([] : Text)).reverse = cut := by simp
  rw [hstatus, hfirst] at hlines
  refine ⟨(cut ++ errors.takeWhile (· ≠ '\n') ++ ['\n']) :: others, ?_, fun line hmem ↦ ?_⟩
  · rw [inputLines, inputLinesFrom_append hcut, hlines, List.cons_append]
  rcases List.mem_cons.mp hmem with rfl | hmem
  · refine ⟨other_of_complete ?_, _, rfl⟩
    rw [complete_concat_space (by decide)]
    rcases herrors with rfl | ⟨hbrace, hhead⟩
    · rw [List.takeWhile_nil, List.append_nil]
      exact hcomplete rfl
    · rcases errors with _ | ⟨c, errors⟩
      · rw [List.takeWhile_nil, List.append_nil]
        exact hcomplete rfl
      · have hc : c ≠ '\n' := by
          rintro rfl
          have hspace : isSmlSpace '\n' = false := hhead
          exact absurd hspace (by decide)
        rw [List.takeWhile_cons_of_pos (by simpa using hc)]
        refine complete_append (fun h ↦ hbrace ?_) hhead (List.cons_ne_nil _ _)
        rcases List.mem_cons.mp h with h | h
        · exact h ▸ List.mem_cons_self
        · exact List.mem_cons_of_mem _ ((List.takeWhile_prefix _).subset h)
  · obtain ⟨body, rfl, hchars⟩ := hothers line hmem
    have hbrace : '}' ∉ errors := by
      rcases herrors with rfl | ⟨hbrace, -⟩
      · exact List.not_mem_nil
      · exact hbrace
    refine ⟨other_of_complete (complete_of_notMem fun h ↦ ?_), body, rfl⟩
    rcases List.mem_append.mp h with h | h
    · exact hbrace (hchars _ h)
    · exact absurd h (by decide)

/-- The lines of a stream: those that arrive, and others up to the HTTP status. -/
theorem inputLines_stream {whole : List Line} {cut : Option (Line × ℕ)} {errors : Text}
    (hregular : (Connection.stream whole cut errors).Regular)
    (hunharmed : (Connection.stream whole cut errors).Unharmed) :
    ∃ tail, inputLines (Connection.stream whole cut errors).output =
        (Connection.stream whole cut errors).arrived.map lineText ++ (tail ++ ["200\n".toList]) ∧
      ∀ line ∈ tail, Other line ∧ ∃ body, line = body ++ ['\n'] := by
  rw [Connection.output, inputLines_whole]
  rcases cut with _ | ⟨line, n⟩
  · obtain ⟨tail, hlines, htail⟩ := inputLines_cut (List.not_mem_nil : '\n' ∉ ([] : Text)) hregular.2 fun _ ↦
      (by decide : complete [] = false)
    exact ⟨tail, congrArg _ hlines, htail⟩
  · have hn := hregular.1 (line, n) rfl
    rw [Connection.arrived]
    split_ifs with hend
    · obtain ⟨rfl, hlength⟩ := hend
      obtain ⟨body, hbody, hplain⟩ := exists_lineText line
      have htake : Connection.cutText (some (line, n)) = body := by
        rw [Connection.cutText, hbody, List.take_append_of_le_length, List.take_of_length_le]
        all_goals
          rw [hbody, List.length_append, List.length_singleton] at hlength
          omega
      have hstatus : inputLines "200".toList = ["200\n".toList] := by decide
      refine ⟨[], ?_, fun _ h ↦ nomatch h⟩
      rw [htake, List.nil_append, inputLines_append hplain, hstatus, List.map_append, List.append_assoc,
        ← hbody]
      rfl
    · obtain ⟨tail, hlines, htail⟩ := inputLines_cut (newline_notMem_cutText hn) hregular.2 fun herrors ↦
        hunharmed.2 (line, n) rfl herrors
          (lt_of_le_of_ne (Nat.succ_le_of_lt hn) fun h ↦ hend ⟨herrors, h⟩)
      exact ⟨tail, congrArg _ hlines, htail⟩

theorem Connection.arrived_subset {c : Connection} {line : Line} (h : line ∈ c.arrived) : line ∈ c.lines := by
  cases c with
  | refused output => exact h
  | stream whole cut errors =>
    rcases cut with _ | ⟨last, n⟩
    · exact h
    · rw [Connection.arrived] at h
      split_ifs at h
      · exact h
      · exact List.mem_append_left _ h

/-- What an attach makes of what is kept. -/
theorem Keeps.connect {s : Follower} {statuses : List ActionStatus} (h : Keeps s statuses) {c : Connection}
    (hregular : c.Regular) (hunharmed : c.Unharmed) :
    let after := (inputLines c.output).foldl onLine (s, Attached.start)
    Keeps after.1 (hear statuses c.arrived) ∧
      after.2.changed = decide (stateChanges statuses < stateChanges (hear statuses c.arrived)) ∧
      (after.2.outcome = none ∧ broken (splitStatus after.2.others.reverse.flatten).2 = true ∨
        ∃ outcome, after.2.outcome = some outcome ∧ Ends c.arrived (hear statuses c.arrived) outcome) := by
  cases c with
  | refused output =>
    have hlines : Connection.output (.refused output) = output := rfl
    simp only [hlines, foldl_onLine_others hregular.1]
    refine ⟨h, by simp [hear, Connection.arrived, Attached.start], .inl ⟨rfl, ?_⟩⟩
    have hothers : ((inputLines output).reverse ++ Attached.start.others).reverse = inputLines output := by
      rw [Attached.start, List.append_nil, List.reverse_reverse]
    rw [hothers]
    exact hregular.2
  | stream whole cut errors =>
    obtain ⟨tail, hlines, htail⟩ := inputLines_stream hregular hunharmed
    have hlegible : ∀ action, .action action ∈ (Connection.stream whole cut errors).arrived → Legible action := by
      intro action hmem
      exact hunharmed.1 action (Connection.arrived_subset hmem)
    have hstatus : Other "200\n".toList := other_of_complete (by decide)
    have hothers : ∀ line ∈ tail ++ ["200\n".toList], Other line := by
      intro line hmem
      rcases List.mem_append.mp hmem with hmem | hmem
      · exact (htail line hmem).1
      · exact List.mem_singleton.mp hmem ▸ hstatus
    have hstreamed := streamed_foldl hlegible Attached.start h
    simp only [hlines, List.foldl_append, foldl_onLine_others hothers]
    refine ⟨hstreamed.keeps, hstreamed.changed, ?_⟩
    rcases hstreamed.outcome with houtcome | houtcome
    · refine .inl ⟨houtcome, ?_⟩
      obtain ⟨blanks, hblanks, heq⟩ := hstreamed.others
      have hreverse : ((tail ++ ["200\n".toList]).reverse ++
          (((Connection.stream whole cut errors).arrived.map lineText).foldl onLine
            (s, Attached.start)).2.others).reverse = (blanks.reverse ++ tail) ++ ["200\n".toList] := by
        rw [heq]
        simp [Attached.start]
      rw [hreverse, splitStatus_last fun line hmem ↦ ?_]
      · decide
      · rcases List.mem_append.mp hmem with hmem | hmem
        · exact ⟨[], hblanks line (List.mem_reverse.mp hmem)⟩
        · exact (htail line hmem).2
    · exact .inr houtcome

/-! ### Statuses in the order of time -/

/-- The statuses, the last one first, are of times in their order, up to a time. -/
inductive Heard (T : Timeline) : ℕ → List ActionStatus → Prop
  | nil (t : ℕ) : Heard T t []
  | cons {t t' : ℕ} {action : ActionStatus} {earlier : List ActionStatus} : t ≤ t' →
    T.status t action.inputKey = some action → Heard T t earlier → Heard T t' (action :: earlier)

variable {T : Timeline}

theorem Heard.mono {t t' : ℕ} {statuses : List ActionStatus} (h : Heard T t statuses) (hle : t ≤ t') :
    Heard T t' statuses := by
  cases h with
  | nil => exact .nil t'
  | cons hbefore hstatus h => exact .cons (hbefore.trans hle) hstatus h

theorem Heard.status {t : ℕ} {statuses : List ActionStatus} (h : Heard T t statuses) {action : ActionStatus}
    (hmem : action ∈ statuses) : ∃ t' ≤ t, T.status t' action.inputKey = some action := by
  induction h with
  | nil => cases hmem
  | cons hbefore hstatus h ih =>
    rcases List.mem_cons.mp hmem with rfl | hmem
    · exact ⟨_, hbefore, hstatus⟩
    · obtain ⟨t', hle, hat⟩ := ih hmem
      exact ⟨t', hle.trans hbefore, hat⟩

/-- A failed action's last status is the one it failed with. -/
theorem Heard.lastHeard_of_failed {t : ℕ} {statuses : List ActionStatus} (h : Heard T t statuses)
    {action : ActionStatus} (hmem : action ∈ statuses) (hfailed : action.state = .failed) :
    lastHeard statuses action.inputKey = some action := by
  induction h with
  | nil => cases hmem
  | @cons t t' last earlier hbefore hstatus h ih =>
    rw [lastHeard_cons]
    rcases List.mem_cons.mp hmem with rfl | hmem
    · rw [if_pos rfl]
    · split_ifs with hkey
      · obtain ⟨t'', hle, hat⟩ := h.status hmem
        have hstays := T.failed_stays hle hat hfailed
        rw [← hkey, hstatus] at hstays
        exact hstays
      · exact ih hmem

theorem Sent.le {t t' : ℕ} {lines : List Line} (h : Sent T t lines t') : t ≤ t' := by
  induction h with
  | nil t => exact le_rfl
  | later h ih => exact (Nat.le_succ _).trans ih
  | blank h ih => exact ih
  | action hstatus h ih => exact ih
  | batch hstate hended => exact le_rfl

/-- The lines that arrive of those that are sent are heard in the order of time. -/
theorem Sent.heard {t t' : ℕ} {lines : List Line} (h : Sent T t lines t') {first : List Line}
    (hfirst : first <+: lines) {statuses : List ActionStatus} (hstatuses : Heard T t statuses) :
    Heard T t' (hear statuses first) := by
  induction h generalizing first statuses with
  | nil t =>
    rw [List.prefix_nil.mp hfirst]
    exact hstatuses
  | later h ih => exact ih hfirst (hstatuses.mono (Nat.le_succ _))
  | blank h ih =>
    rcases first with _ | ⟨line, first⟩
    · exact hstatuses.mono h.le
    · obtain ⟨rfl, hrest⟩ := List.cons_prefix_cons.mp hfirst
      exact ih hrest hstatuses
  | action hstatus h ih =>
    rcases first with _ | ⟨line, first⟩
    · exact hstatuses.mono h.le
    · obtain ⟨rfl, hrest⟩ := List.cons_prefix_cons.mp hfirst
      exact ih hrest (.cons le_rfl hstatus hstatuses)
  | batch hstate hended =>
    rcases first with _ | ⟨line, first⟩
    · exact hstatuses
    · obtain ⟨rfl, hrest⟩ := List.cons_prefix_cons.mp hfirst
      rw [List.prefix_nil.mp hrest]
      exact hstatuses

/-- A batch's end that is sent is true. -/
theorem Sent.batch_of_mem {t t' : ℕ} {lines : List Line} (h : Sent T t lines t') {state : BatchState}
    {failure : Option String} (hmem : .batch state failure ∈ lines) :
    state ≠ .running ∧ ∃ t'', T.batch t'' = state := by
  induction h with
  | nil t => cases hmem
  | later h ih => exact ih hmem
  | blank h ih => exact ih ((List.mem_cons.mp hmem).resolve_left (fun h ↦ nomatch h))
  | action hstatus h ih => exact ih ((List.mem_cons.mp hmem).resolve_left (fun h ↦ nomatch h))
  | @batch t sent failure' hstate hended =>
    obtain ⟨rfl, -⟩ := Line.batch.inj (List.mem_singleton.mp hmem)
    exact ⟨hended, t, hstate⟩

theorem Connection.arrived_prefix (c : Connection) (rest : List Line) : c.arrived <+: c.lines ++ rest := by
  cases c with
  | refused output => exact List.nil_prefix
  | stream whole cut errors =>
    rcases cut with _ | ⟨last, n⟩
    · exact List.prefix_append _ _
    · rw [Connection.arrived, Connection.lines]
      split_ifs
      · exact List.prefix_append _ _
      · rw [List.append_assoc]
        exact List.prefix_append _ _

/-! ### Runs -/

/-- The given number of attaches were the last ones, and no state changed on them. -/
def Idle (attaches : ℕ) (connections : List Connection) : Prop :=
  ∃ before last, connections = before ++ last ∧ last.length = attaches ∧
    stateChanges (heard connections) = stateChanges (heard before)

/-- The end of a batch that is reported is true. -/
def TrueEnd (T : Timeline) (statuses : List ActionStatus) : Outcome → Prop
  | .done => ∃ t, T.batch t = .done
  | .cancelled => ∃ t, T.batch t = .cancelled
  | .failed _ proof => (∃ t, T.batch t = .failed) ∧ ∀ failure, proof = some failure →
    ∃ action, lastHeard statuses failure.inputKey = some action ∧ ProofFailed action
  | _ => False

/-- What the outcome of a run says is true, of the attaches that were made. -/
def Truthful (T : Timeline) (retries : ℕ) (connections : List Connection) : Outcome → Prop
  | .unreachable _ => Idle (retries + 1) connections
  | outcome => TrueEnd T (heard connections) outcome

/-- As `Idle`, from an attach on: all attaches, if as many delays were left as there were attaches. -/
def IdleFrom (retries delays : ℕ) (earlier : List ActionStatus) (connections : List Connection) : Prop :=
  ∃ before last, connections = before ++ last ∧
    (last.length = retries + 1 ∨ before = [] ∧ last.length = delays + 1) ∧
    stateChanges (hearAll earlier connections) = stateChanges (hearAll earlier before)

/-- A batch's last line is true. -/
theorem Ends.trueEnd {t t' : ℕ} {lines arrived : List Line} (hsent : Sent T t lines t')
    (harrived : arrived <+: lines) {statuses : List ActionStatus} (hheard : Heard T t' statuses)
    {outcome : Outcome} (h : Ends arrived statuses outcome) : TrueEnd T statuses outcome := by
  obtain ⟨state, failure, proof, hmem, rfl, hproof⟩ := h
  obtain ⟨hended, hbatch⟩ := hsent.batch_of_mem (harrived.subset hmem)
  have hstate : jsonStringField "state" (lineText (.batch state failure)) =
      some (batchStateText state).toList := by
    refine (jsonStringField_dumps (fieldName_of_clientFields "state" (by decide)) false
      (named_batchObject state failure) (by decide)).trans ?_
    cases state <;> rfl
  rw [batchOutcome, hstate]
  cases state with
  | running => exact absurd rfl hended
  | done => exact hbatch
  | cancelled => exact hbatch
  | failed =>
    refine ⟨hbatch, fun failed hfailed ↦ ?_⟩
    obtain ⟨action, hmem, hkey, hfailure⟩ := hproof failed hfailed
    exact ⟨action, hkey ▸ hheard.lastHeard_of_failed hmem hfailure.1, hfailure⟩

/-- What a run is from an attach on. -/
structure RunsFrom (T : Timeline) (retries delays : ℕ) (earlier : List ActionStatus)
    (connections : List Connection) (r : Followed) : Prop where
  keeps : Keeps r.follower (hearAll earlier (connections.take r.attaches))
  heard : ∃ t, Heard T t (hearAll earlier (connections.take r.attaches))
  outcome (outcome : Outcome) : r.outcome = some outcome →
    TrueEnd T (hearAll earlier (connections.take r.attaches)) outcome ∨
      (∃ reason, outcome = .unreachable reason) ∧
        IdleFrom retries delays earlier (connections.take r.attaches)
  attaches : r.attaches + stateChanges earlier * (retries + 1) ≤
    stateChanges (hearAll earlier (connections.take r.attaches)) * (retries + 1) + delays + 1

theorem IdleFrom.cons_of_lt {retries : ℕ} (delays : ℕ) {earlier : List ActionStatus}
    {connection : Connection} {connections : List Connection}
    (h : IdleFrom retries retries (hear earlier connection.arrived) connections) :
    IdleFrom retries delays earlier (connection :: connections) := by
  obtain ⟨before, last, rfl, hlast, hchanges⟩ := h
  refine ⟨connection :: before, last, rfl, .inl ?_, hchanges⟩
  rcases hlast with hlast | ⟨-, hlast⟩
  · exact hlast
  · exact hlast

theorem IdleFrom.cons_of_eq {retries delays : ℕ} {earlier : List ActionStatus}
    {connection : Connection} {connections : List Connection}
    (hsame : stateChanges (hear earlier connection.arrived) = stateChanges earlier)
    (h : IdleFrom retries delays (hear earlier connection.arrived) connections) :
    IdleFrom retries (delays + 1) earlier (connection :: connections) := by
  obtain ⟨before, last, rfl, hlast | ⟨rfl, hlast⟩, hchanges⟩ := h
  · exact ⟨connection :: before, last, rfl, .inl hlast, hchanges⟩
  · exact ⟨[], connection :: last, rfl, .inr ⟨rfl, by rw [List.length_cons, hlast]⟩, hchanges.trans hsame⟩

/-- A stream that changed a state starts the retries again. -/
theorem RunsFrom.again_of_lt {retries delays : ℕ} {earlier : List ActionStatus} {connection : Connection}
    {connections : List Connection} {r : Followed}
    (hlt : stateChanges earlier < stateChanges (hear earlier connection.arrived))
    (h : RunsFrom T retries retries (hear earlier connection.arrived) connections r) :
    RunsFrom T retries delays earlier (connection :: connections) r.again where
  keeps := h.keeps
  heard := h.heard
  outcome outcome houtcome := (h.outcome outcome houtcome).imp_right (.imp_right (.cons_of_lt delays))
  attaches := by
    have hbound := h.attaches
    have hmul := Nat.mul_le_mul_right (retries + 1) (Nat.succ_le_of_lt hlt)
    rw [Nat.succ_mul] at hmul
    have hagain : hearAll earlier ((connection :: connections).take r.again.attaches) =
        hearAll (hear earlier connection.arrived) (connections.take r.attaches) := rfl
    have hattaches : r.again.attaches = r.attaches + 1 := rfl
    rw [hagain, hattaches]
    omega

/-- One that did not leaves one retry less. -/
theorem RunsFrom.again_of_eq {retries delays : ℕ} {earlier : List ActionStatus} {connection : Connection}
    {connections : List Connection} {r : Followed}
    (hsame : stateChanges (hear earlier connection.arrived) = stateChanges earlier)
    (h : RunsFrom T retries delays (hear earlier connection.arrived) connections r) :
    RunsFrom T retries (delays + 1) earlier (connection :: connections) r.again where
  keeps := h.keeps
  heard := h.heard
  outcome outcome houtcome := (h.outcome outcome houtcome).imp_right (.imp_right (.cons_of_eq hsame))
  attaches := by
    have hbound := h.attaches
    have hagain : hearAll earlier ((connection :: connections).take r.again.attaches) =
        hearAll (hear earlier connection.arrived) (connections.take r.attaches) := rfl
    have hattaches : r.again.attaches = r.attaches + 1 := rfl
    rw [hagain, hattaches]
    rw [hsame] at hbound
    omega

/-- A run's last attach. -/
theorem RunsFrom.last {retries delays : ℕ} {earlier : List ActionStatus} {connection : Connection}
    (connections : List Connection) {s : Follower} (hkeeps : Keeps s (hear earlier connection.arrived))
    {t : ℕ} (hheard : Heard T t (hear earlier connection.arrived)) {outcome : Outcome}
    (houtcome : TrueEnd T (hear earlier connection.arrived) outcome ∨
      (∃ reason, outcome = .unreachable reason) ∧ delays = 0 ∧
        stateChanges (hear earlier connection.arrived) = stateChanges earlier) :
    RunsFrom T retries delays earlier (connection :: connections) ⟨s, some outcome, 1⟩ where
  keeps := hkeeps
  heard := ⟨t, hheard⟩
  outcome other hother := by
    obtain rfl := Option.some.inj hother
    refine houtcome.imp_right (.imp_right ?_)
    rintro ⟨rfl, hsame⟩
    exact ⟨[], [connection], rfl, .inr ⟨rfl, rfl⟩, hsame⟩
  attaches := by
    have hle := Nat.mul_le_mul_right (retries + 1) (stateChanges_le_hear earlier connection.arrived)
    have hlast : hearAll earlier ((connection :: connections).take 1) = hear earlier connection.arrived := rfl
    simp only [hlast]
    omega

/-- The induction is on the attaches to come; what was kept and heard before changes with each. -/
theorem runsFrom_attach {t : ℕ} {connections : List Connection} (hattaches : Attaches T t connections)
    (hunharmed : ∀ connection ∈ connections, connection.Unharmed) (batchId : String) (retries : List ℕ)
    (delays : List ℕ) {s : Follower} {earlier : List ActionStatus} (hkeeps : Keeps s earlier)
    (hheard : Heard T t earlier) :
    RunsFrom T retries.length delays.length earlier connections
      (attach batchId retries delays s (connections.map Connection.output)) := by
  induction hattaches generalizing delays s earlier with
  | nil t =>
    have hnone : attach batchId retries delays s (List.map Connection.output []) = ⟨s, none, 0⟩ := by
      rw [List.map_nil, attach]
    rw [hnone]
    refine ⟨hkeeps, ⟨t, hheard⟩, fun outcome h ↦ (nomatch h), ?_⟩
    simp only [List.take_nil, hearAll]
    omega
  | later hattaches ih => exact ih hunharmed delays hkeeps (hheard.mono (Nat.le_succ _))
  | @attach t t' connection rest connections hregular hsent hattaches ih =>
    have hconnect := hkeeps.connect hregular (hunharmed connection List.mem_cons_self)
    have hprefix := connection.arrived_prefix rest
    have hlater := hsent.heard hprefix hheard
    have hrest := ih fun other hmem ↦ hunharmed other (List.mem_cons_of_mem _ hmem)
    simp only [List.map_cons, attach]
    generalize (inputLines connection.output).foldl onLine (s, Attached.start) = after at hconnect ⊢
    obtain ⟨hafter, hchanged, ⟨hnone, hbroken⟩ | ⟨outcome, houtcome, hends⟩⟩ := hconnect
    · have hle := stateChanges_le_hear earlier connection.arrived
      simp only [hnone, hbroken, hchanged, decide_eq_true_eq, Bool.not_true, Bool.false_eq_true, if_false]
      split_ifs with hlt
      · exact (hrest retries hafter hlater).again_of_lt hlt
      · have hsame : stateChanges (hear earlier connection.arrived) = stateChanges earlier :=
          le_antisymm (not_lt.mp hlt) hle
        rcases delays with _ | ⟨delay, delays⟩
        · exact .last connections hafter hlater (.inr ⟨⟨_, rfl⟩, rfl, hsame⟩)
        · exact (hrest delays hafter hlater).again_of_eq hsame
    · simp only [houtcome]
      exact .last connections hafter hlater (.inl (hends.trueEnd hsent hprefix hlater))

/-! ### Progress -/

theorem mem_heardKeys {statuses : List ActionStatus} {key : String} :
    key ∈ heardKeys statuses ↔ ∃ action, lastHeard statuses key = some action := by
  rw [heardKeys, List.mem_dedup, List.mem_map, ← Option.isSome_iff_exists, lastHeard, List.find?_isSome]
  simp

/-- The keys of the states are those that were heard. -/
theorem Keeps.keys_perm {s : Follower} {statuses : List ActionStatus} (h : Keeps s statuses) :
    (s.states.map Prod.fst).Perm (heardKeys statuses) := by
  have hnodup : (heardKeys statuses).Nodup := List.nodup_dedup _
  refine (List.perm_ext_iff_of_nodup h.nodup hnodup).mpr fun key ↦ ?_
  rw [mem_heardKeys, List.mem_map]
  constructor
  · rintro ⟨⟨_, state⟩, hmem, rfl⟩
    obtain ⟨action, haction, -⟩ := (h.states _ _).mp hmem
    exact ⟨action, haction⟩
  · rintro ⟨action, haction⟩
    exact ⟨(key, stateText action.state), (h.states _ _).mpr ⟨action, haction, rfl⟩, rfl⟩

theorem Keeps.done_perm {s : Follower} {statuses : List ActionStatus} (h : Keeps s statuses) :
    ((s.states.filter fun entry ↦ entry.2 = "done").map Prod.fst).Perm
      ((heardKeys statuses).filter fun key ↦ (lastHeard statuses key).map (·.state) = some .done) := by
  have hnodup : (heardKeys statuses).Nodup := List.nodup_dedup _
  refine (List.perm_ext_iff_of_nodup (h.nodup.sublist (List.filter_sublist.map _))
    (hnodup.filter _)).mpr fun key ↦ ?_
  have hdone : (key, "done") ∈ s.states ↔ (lastHeard statuses key).map (·.state) = some .done :=
    h.mem_states_iff key .done
  simp only [List.mem_map, List.mem_filter, decide_eq_true_eq]
  constructor
  · rintro ⟨⟨_, state⟩, ⟨hmem, rfl⟩, rfl⟩
    have hlast := hdone.mp hmem
    obtain ⟨action, haction, -⟩ := Option.map_eq_some_iff.mp hlast
    exact ⟨mem_heardKeys.mpr ⟨action, haction⟩, hlast⟩
  · rintro ⟨-, hlast⟩
    exact ⟨(key, "done"), ⟨hdone.mpr hlast, rfl⟩, rfl⟩

theorem Keeps.progress {s : Follower} {statuses : List ActionStatus} (h : Keeps s statuses) :
    s.progress = heardProgress statuses := by
  have hdone := h.done_perm.length_eq
  have hkeys := h.keys_perm.length_eq
  rw [List.length_map] at hdone hkeys
  rw [Follower.progress, heardProgress, hdone, hkeys]

/-! ### Following -/

/-- A run is exact, of the attaches that it made: its outcome is true, `on_done` was called for actions that
were reported done only, and for each one that was done at last, the progress is that of the last statuses,
and the attaches are bounded by the changes of states. -/
structure Exact (T : Timeline) (retries : ℕ) (made : List Connection) (r : Followed) : Prop where
  outcome (outcome : Outcome) : r.outcome = some outcome → Truthful T retries made outcome
  reported : ∀ key ∈ r.follower.doneKeys, ∃ action ∈ heard made, action.inputKey = key ∧
    action.state = .done ∧ ∃ t, T.status t key = some action
  called (key : String) (action : ActionStatus) : lastHeard (heard made) key = some action →
    action.state = .done → key ∈ r.follower.doneKeys
  progress : r.follower.progress = heardProgress (heard made)
  attaches : r.attaches ≤ (stateChanges (heard made) + 1) * (retries + 1)

/-- A run is exact over streams whose statuses can be read and that are cut where no part of a line looks like
an event. -/
theorem follow_exact {T : Timeline} {t : ℕ} {connections : List Connection}
    (hattaches : Attaches T t connections)
    (hunharmed : ∀ connection ∈ connections, connection.Unharmed) (batchId : String) (retries : List ℕ) :
    let r := follow batchId retries (connections.map Connection.output)
    Exact T retries.length (connections.take r.attaches) r := by
  intro r
  have hrun : RunsFrom T retries.length retries.length [] connections r :=
    runsFrom_attach hattaches hunharmed batchId retries retries keeps_start (.nil t)
  have hkeeps : Keeps r.follower (heard (connections.take r.attaches)) := hrun.keeps
  refine ⟨fun outcome houtcome ↦ ?_, fun key hmem ↦ ?_, fun key action hlast hdone ↦ ?_, hkeeps.progress, ?_⟩
  · rcases hrun.outcome outcome houtcome with hend | ⟨⟨reason, rfl⟩, before, last, hmade, hlast, hchanges⟩
    · cases outcome with
      | done => exact hend
      | cancelled => exact hend
      | failed reason proof => exact hend
      | unfollowable reason => exact hend.elim
      | unreachable reason => exact hend.elim
    · exact ⟨before, last, hmade, hlast.elim id And.right, hchanges⟩
  · obtain ⟨action, haction, rfl, hdone⟩ := (hkeeps.doneKeys key).mp hmem
    obtain ⟨last, hheard⟩ := hrun.heard
    obtain ⟨t', -, hstatus⟩ := hheard.status haction
    exact ⟨action, haction, rfl, hdone, t', hstatus⟩
  · obtain ⟨hmem, hkey⟩ := mem_of_lastHeard hlast
    exact (hkeeps.doneKeys key).mpr ⟨action, hmem, hkey, hdone⟩
  · have hbound := hrun.attaches
    have hnone : stateChanges [] = 0 := rfl
    rw [hnone, Nat.zero_mul, Nat.add_zero] at hbound
    rw [Nat.succ_mul]
    exact hbound

/-- A stream that is cut in its last line, an answer of the proxy's, and a whole stream. -/
theorem follow_exact_cut :
    let action : ActionStatus := ⟨"00ff", "a:b", .done, .standard, 1, none, none⟩
    let connections : List Connection :=
      [.stream [.action action] (some (.batch .done none, 20)) [], .refused "upstream\n502".toList,
        .stream [.action action, .batch .done none] none []]
    let r := follow "7" retryDelaysSeconds (connections.map Connection.output)
    r.attaches = 3 ∧ r.outcome = some .done ∧
      Exact (.still action .done) retryDelaysSeconds.length (connections.take r.attaches) r := by
  intro action connections r
  have hlegible : Legible action := by decide +kernel
  have hrefused : (Connection.refused "upstream\n502".toList).Regular := by decide +kernel
  have hwhole : (Connection.stream [.action action, .batch .done none] none []).Regular := by decide +kernel
  have hcut : (Connection.stream [.action action] (some (.batch .done none, 20)) []).Regular := by
    decide +kernel
  have hsent : Sent (.still action .done) 0 [.action action, .batch .done none] 0 :=
    .action (Timeline.still_status action .done 0) (.batch rfl (by decide))
  have hattaches : Attaches (.still action .done) 0 connections :=
    @Attaches.attach _ 0 0 _ [] _ hcut hsent <| @Attaches.attach _ 0 0 _ [] _ hrefused (.nil 0) <|
      @Attaches.attach _ 0 0 _ [] _ hwhole hsent (.nil 0)
  have hactions (other : ActionStatus) (hmem : .action other ∈ [Line.action action, .batch .done none]) :
      Legible other := by
    obtain rfl : other = action := by simpa using hmem
    exact hlegible
  have hnone : complete (Connection.cutText (some (.batch .done none, 20))) = false := by decide +kernel
  have hunharmed : ∀ connection ∈ connections, connection.Unharmed := by
    intro connection hmem
    obtain rfl | rfl | rfl : connection = _ ∨ connection = _ ∨ connection = _ := by simpa [connections] using hmem
    · exact ⟨hactions, fun _ _ _ _ ↦ hnone⟩
    · trivial
    · exact ⟨hactions, fun _ hmem ↦ nomatch hmem⟩
  have hmade : r.attaches = 3 := by decide +kernel
  have hdone : r.outcome = some .done := by decide +kernel
  exact ⟨hmade, hdone, follow_exact hattaches hunharmed "7" retryDelaysSeconds⟩

/-- A part of a line that ends in a brace of the theory's name is taken for a status without a state. -/
theorem cut_line_is_event :
    let action : ActionStatus := ⟨"00ff", "a:\x7db", .done, .standard, 1, none, none⟩
    let connections : List Connection :=
      .stream [.action action] none [] :: .stream [] (some (.action action, 54)) [] ::
        List.replicate 22 (.refused "curl: (7)\n000".toList)
    let r := follow "7" retryDelaysSeconds (connections.map Connection.output)
    Attaches (.still action .running) 0 connections ∧ r.attaches = 24 ∧ r.follower.progress = ⟨0, 1⟩ ∧
      heardProgress (heard connections) = ⟨1, 1⟩ := by
  intro action connections r
  have hwhole : (Connection.stream [.action action] none []).Regular := by decide +kernel
  have hcut : (Connection.stream [] (some (.action action, 54)) []).Regular := by decide +kernel
  have hrefused : (Connection.refused "curl: (7)\n000".toList).Regular := by decide +kernel
  have hsent : Sent (.still action .running) 0 [.action action] 0 :=
    .action (Timeline.still_status action .running 0) (.nil 0)
  have hrest (n : ℕ) : Attaches (.still action .running) 0
      (List.replicate n (.refused "curl: (7)\n000".toList)) := by
    induction n with
    | zero => exact .nil 0
    | succ n ih => exact @Attaches.attach _ 0 0 _ [] _ hrefused (.nil 0) ih
  have hattaches : Attaches (.still action .running) 0 connections :=
    @Attaches.attach _ 0 0 _ [] _ hwhole hsent <| @Attaches.attach _ 0 0 _ [] _ hcut hsent (hrest 22)
  have hmade : r.attaches = 24 := by decide +kernel
  have hprogress : r.follower.progress = ⟨0, 1⟩ := by decide +kernel
  have hheard : heardProgress (heard connections) = ⟨1, 1⟩ := by decide +kernel
  exact ⟨hattaches, hmade, hprogress, hheard⟩

end Holbuild.Commands
