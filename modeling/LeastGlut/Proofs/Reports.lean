/-
# Which answer a report vouches for

The lines of a report fall into entries: a line `Answer:` takes the line behind it as its
answer line, whatever that says, and every other line stands for itself
(`AnswerReport.entries`). Reading the lines takes the entries one by one
(`AnswerReport.scan_eq`), so what is read is known from the last answer and the entries in
front of it and behind it (`Answer.ofReport_of_split`).

The cost is that of the last `Optimization:` line behind the last answer, as a new answer
forgets the costs in front of it. It does not forget that an optimum was found, so a report
may vouch for its last answer in front of it (`AnswerReport.ofReport_eq_ok_iff`).

Key definitions: `AnswerReport.Line.Means`, `AnswerReport.Entry`, `AnswerReport.entries`,
`AnswerReport.ProvenBehind`, `AnswerReport.Transcript`.
-/
import LeastGlut.AnswerReport
import LeastGlut.Proofs.Lists
import LeastGlut.Proofs.Wcnf

namespace LeastGlut

namespace AnswerReport

variable {text rest keyword word : List Char} {ls xs ys : List (List Char)} {line : Line}

/-! ### What a line says -/

theorem after?_eq_some_iff : after? keyword text = some rest ↔ text = keyword ++ rest := by
  unfold after?
  split
  next h =>
    obtain ⟨behind, rfl⟩ := List.isPrefixOf_iff_prefix.mp h
    rw [List.drop_left, Option.some_inj, List.append_cancel_left_eq]
  next h =>
    refine iff_of_false (fun hc => by cases hc) fun hc => h ?_
    exact List.isPrefixOf_iff_prefix.mpr ⟨rest, hc.symm⟩

theorem isSome_after?_iff : (after? keyword text).isSome ↔ keyword <+: text := by
  unfold after?
  split
  next h => exact iff_of_true rfl (List.isPrefixOf_iff_prefix.mp h)
  next h => exact iff_of_false (by decide) fun hp => h (List.isPrefixOf_iff_prefix.mpr hp)

/-- A text that a reader of reports passes over. -/
def IsOther (text : List Char) : Prop :=
  ¬"Answer:".toList <+: text ∧ ¬"Optimization:".toList <+: text ∧
    text ≠ "OPTIMUM FOUND".toList ∧ text ≠ "UNSATISFIABLE".toList

instance (text : List Char) : Decidable (IsOther text) := inferInstanceAs (Decidable (_ ∧ _))

namespace Line

/-- The texts, without the blanks around them, that say what a line may say. -/
def Means : Line → List Char → Prop
  | answer, text => "Answer:".toList <+: text
  | cost word, text => ∃ rest, text = "Optimization:".toList ++ rest ∧ Text.firstWord? rest = word
  | optimum, text => text = "OPTIMUM FOUND".toList
  | unsatisfiable, text => text = "UNSATISFIABLE".toList
  | other, text => IsOther text

theorem means_ofText (text : List Char) : (ofText text).Means (Text.trim text) := by
  unfold ofText
  dsimp only
  split
  next h => exact isSome_after?_iff.mp h
  next hanswer =>
    split
    next rest hrest => exact ⟨rest, after?_eq_some_iff.mp hrest, rfl⟩
    next hcost =>
      split
      next h => exact h
      next hoptimum =>
        split
        next h => exact h
        next hunsat =>
          rw [isSome_after?_iff] at hanswer
          refine ⟨hanswer, fun hp => ?_, hoptimum, hunsat⟩
          rw [← isSome_after?_iff, hcost] at hp
          cases hp

theorem ofText_of_means (h : line.Means (Text.trim text)) : ofText text = line := by
  unfold ofText
  dsimp only
  cases line with
  | answer => exact if_pos (isSome_after?_iff.mpr h)
  | cost word =>
    obtain ⟨rest, hrest, rfl⟩ := h
    have hanswer : ¬(after? "Answer:".toList (Text.trim text)).isSome := by
      rw [isSome_after?_iff, hrest]
      exact fun hp => absurd (List.cons_prefix_cons.mp hp).1 (by decide)
    rw [if_neg hanswer, after?_eq_some_iff.mpr hrest]
  | optimum | unsatisfiable =>
    rw [h]
    decide
  | other =>
    obtain ⟨hanswer, hcost, hoptimum, hunsat⟩ := h
    rw [← isSome_after?_iff] at hanswer hcost
    rw [Option.not_isSome_iff_eq_none] at hcost
    rw [if_neg hanswer, hcost]
    dsimp only
    rw [if_neg hoptimum, if_neg hunsat]

/-- **What a line says** is told by its text without the blanks around it. -/
theorem ofText_eq_iff : ofText text = line ↔ line.Means (Text.trim text) :=
  ⟨fun h => h ▸ means_ofText text, ofText_of_means⟩

end Line

/-! ### Entries -/

/-- A line `Answer:` with its answer line, which is missing at the end of a report, or
another line. -/
inductive Entry
  | answer (head : List Char) (terms : Option (List Char))
  | plain (text : List Char)
  deriving DecidableEq

namespace Entry

def lines : Entry → List (List Char)
  | answer head terms => head :: terms.toList
  | plain text => [text]

def isAnswer : Entry → Bool
  | answer .. => true
  | plain _ => false

/-- Whether an entry is a line that says so. -/
def tells (what : Line) : Entry → Bool
  | answer .. => false
  | plain text => Line.ofText text = what

/-- What a line of cost says, the first word behind `Optimization:` if there is one. -/
def cost? : Entry → Option (Option (List Char))
  | answer .. => none
  | plain text => match Line.ofText text with
    | .cost word => some word
    | _ => none

end Entry

/-- The entries of a report. -/
def entries : List (List Char) → List Entry
  | [] => []
  | head :: rest =>
    if Line.ofText head = .answer then match rest with
      | [] => [.answer head none]
      | terms :: rest => .answer head (some terms) :: entries rest
    else .plain head :: entries rest

section

variable {head : List Char}

theorem entries_of_answer (h : Line.ofText head = .answer) (terms : List Char) :
    entries (head :: terms :: ls) = .answer head (some terms) :: entries ls := by
  rw [entries, if_pos h]

theorem entries_of_plain (h : Line.ofText head ≠ .answer) :
    entries (head :: ls) = .plain head :: entries ls := by
  rw [entries.eq_def]
  exact if_neg h

end

/-- The lines of the entries are the report. -/
theorem flatMap_lines_entries (ls : List (List Char)) : (entries ls).flatMap Entry.lines = ls := by
  induction ls using entries.induct with
  | case1 => rfl
  | case2 head h =>
    rw [entries, if_pos h]
    rfl
  | case3 head h terms rest ih =>
    rw [entries_of_answer h, List.flatMap_cons, ih]
    rfl
  | case4 head rest h ih =>
    rw [entries_of_plain h, List.flatMap_cons, ih]
    rfl

/-- What has been read behind one more entry. -/
def take (r : AnswerReport) : Entry → AnswerReport
  | .answer _ terms => { r with answer := some (terms.getD []), cost := none }
  | .plain text => match Line.ofText text with
    | .cost word => { r with cost := word }
    | .optimum => { r with optimum := true }
    | _ => r

/-- **Reading the lines takes the entries one by one,** and fails at a line that says there
is no answer set. -/
theorem scan_eq (r : AnswerReport) (ls : List (List Char)) :
    r.scan ls = if (entries ls).any (·.tells .unsatisfiable) then .error .noAnswerSet
      else .ok ((entries ls).foldl take r) := by
  induction ls using entries.induct generalizing r with
  | case1 => rfl
  | case2 head h =>
    rw [entries, if_pos h, scan, h]
    rfl
  | case3 head h terms rest ih =>
    rw [entries_of_answer h, scan, h]
    exact ih _
  | case4 head rest h ih =>
    rw [entries_of_plain h, scan.eq_def, List.any_cons, List.foldl_cons, Entry.tells, take]
    dsimp only
    cases hhead : Line.ofText head with
    | answer => exact absurd hhead h
    | unsatisfiable => rfl
    | cost | optimum | other => exact ih _

/-! ### What has been read -/

section

variable {es earlier later : List Entry}

/-- The word on the last line of cost. -/
def costWord (es : List Entry) : Option (List Char) := (es.filterMap Entry.cost?).getLast?.getD none

theorem optimum_take (r : AnswerReport) (e : Entry) :
    (r.take e).optimum = (r.optimum || e.tells .optimum) := by
  cases e with
  | answer => exact (Bool.or_false _).symm
  | plain text =>
    rw [take, Entry.tells]
    cases Line.ofText text with
    | optimum => exact (Bool.or_true _).symm
    | answer | cost | unsatisfiable | other => exact (Bool.or_false _).symm

/-- Nothing forgets that an optimum was found. -/
theorem optimum_foldl_take (r : AnswerReport) (es : List Entry) :
    (es.foldl take r).optimum = (r.optimum || es.any (·.tells .optimum)) := by
  induction es generalizing r with
  | nil => exact (Bool.or_false _).symm
  | cons e es ih => rw [List.foldl_cons, ih, optimum_take, List.any_cons, Bool.or_assoc]

/-- Without another answer, the answer stays and the last cost counts. -/
theorem foldl_take_of_plain (h : ∀ e ∈ es, ¬e.isAnswer) (r : AnswerReport) :
    (es.foldl take r).answer = r.answer ∧
      (es.foldl take r).cost = (es.filterMap Entry.cost?).getLast?.getD r.cost := by
  induction es generalizing r with
  | nil => exact ⟨rfl, rfl⟩
  | cons e es ih =>
    rw [List.forall_mem_cons] at h
    obtain ⟨hanswer, hcost⟩ := ih h.2 (r.take e)
    rw [List.foldl_cons, hanswer, hcost, List.filterMap_cons]
    cases e with
    | answer => exact absurd rfl h.1
    | plain text =>
      rw [take, Entry.cost?]
      cases Line.ofText text with
      | cost word =>
        rw [List.getLast?_cons]
        exact ⟨rfl, rfl⟩
      | answer | optimum | unsatisfiable | other => exact ⟨rfl, rfl⟩

/-- **What has been read** at the end: the last answer, the last cost behind it, and
whether anything in front of it or behind it said that the optimum was found. -/
theorem foldl_take_of_split (h : ∀ e ∈ later, ¬e.isAnswer) (r : AnswerReport) (head : List Char)
    (terms : Option (List Char)) :
    (earlier ++ .answer head terms :: later).foldl take r =
      ⟨some (terms.getD []), costWord later,
        r.optimum || (earlier ++ later).any (·.tells .optimum)⟩ := by
  have hoptimum := optimum_foldl_take r (earlier ++ .answer head terms :: later)
  obtain ⟨hanswer, hcost⟩ := foldl_take_of_plain h ((earlier.foldl take r).take (.answer head terms))
  rw [List.any_append, List.any_cons, Entry.tells, Bool.false_or, ← List.any_append] at hoptimum
  rw [← List.foldl_cons, ← List.foldl_append] at hanswer hcost
  show (⟨_, _, _⟩ : AnswerReport) = _
  rw [hanswer, hcost, hoptimum]
  rfl

/-- There is a last answer, if there is one at all. -/
theorem exists_last (es : List Entry) : (∀ e ∈ es, ¬e.isAnswer) ∨
    ∃ earlier head terms later, es = earlier ++ .answer head terms :: later ∧
      ∀ e ∈ later, ¬e.isAnswer := by
  induction es with
  | nil => exact .inl (List.forall_mem_nil _)
  | cons e es ih =>
    rcases ih with hes | ⟨earlier, head, terms, later, rfl, hlater⟩
    · cases e with
      | answer head terms => exact .inr ⟨[], head, terms, es, rfl, hes⟩
      | plain text => exact .inl (List.forall_mem_cons.mpr ⟨Bool.false_ne_true, hes⟩)
    · exact .inr ⟨e :: earlier, head, terms, later, rfl, hlater⟩

end

end AnswerReport

namespace Answer

open AnswerReport

variable {text : String} {earlier later : List Entry} {head : List Char} {terms : Option (List Char)}

/-- A line that says there is no answer set has the last word. -/
theorem ofReport_of_unsatisfiable
    (h : (entries (Text.lines text.toList)).any (·.tells .unsatisfiable)) :
    ofReport text = .error .noAnswerSet := by
  rw [ofReport, scan_eq, if_pos h]
  rfl

theorem ofReport_of_no_answer
    (hsat : ¬(entries (Text.lines text.toList)).any (·.tells .unsatisfiable))
    (h : ∀ e ∈ entries (Text.lines text.toList), ¬e.isAnswer) :
    ofReport text = .error .noAnswerReported := by
  have hanswer := (foldl_take_of_plain h empty).1
  rw [ofReport, scan_eq, if_neg hsat]
  cases hr : (entries (Text.lines text.toList)).foldl take empty with
  | mk answer cost optimum =>
    rw [hr] at hanswer
    cases hanswer
    rfl

/-- **What a report with an answer gives,** by what stands in front of the last answer and
what stands behind it. -/
theorem ofReport_of_split
    (hsat : ¬(entries (Text.lines text.toList)).any (·.tells .unsatisfiable))
    (h : entries (Text.lines text.toList) = earlier ++ .answer head terms :: later)
    (hlater : ∀ e ∈ later, ¬e.isAnswer) :
    ofReport text =
      if (earlier ++ later).any (·.tells .optimum) then do
        let cost ← costOf (costWord later)
        let found ← termsOf (terms.getD [])
        return ⟨cost, found⟩
      else .error .notProvenOptimal := by
  rw [ofReport, scan_eq, if_neg hsat, h, foldl_take_of_split hlater]
  show (if !(false || (earlier ++ later).any (·.tells .optimum)) then _ else _) = _
  cases (earlier ++ later).any (·.tells .optimum) <;> rfl

end Answer

/-! ### Where the optimum is reported -/

namespace AnswerReport

/-- A line of the entries, without the blanks around it, is the text. -/
def Contains (es : List Entry) (what : String) : Prop :=
  ∃ line, .plain line ∈ es ∧ Text.trim line = what.toList

/-- What a report says in front of its last answer, the answer line, and what it says
behind it. -/
structure LastAnswer (text : String) (earlier : List Entry) (terms : List Char)
    (later : List Entry) : Prop where
  exists_entries_eq : ∃ head line, terms = line.getD [] ∧
    entries (Text.lines text.toList) = earlier ++ .answer head line :: later
  not_isAnswer : ∀ e ∈ later, ¬e.isAnswer

/-- A report says that the optimum was found, behind the answer line of its last answer. -/
def ProvenBehind (text : String) : Prop :=
  ∃ earlier terms later, LastAnswer text earlier terms later ∧ Contains later "OPTIMUM FOUND"

/-- A report that can be read says that the optimum was found, but only in front of its
last answer. -/
def ProvenInFrontOnly (text : String) : Prop :=
  ∃ earlier terms later, LastAnswer text earlier terms later ∧
    Contains earlier "OPTIMUM FOUND" ∧ ¬Contains later "OPTIMUM FOUND" ∧
    ¬Contains (earlier ++ later) "UNSATISFIABLE" ∧
    (∃ n, Answer.costOf (costWord later) = .ok n) ∧ ∃ found, Answer.termsOf terms = .ok found

variable {text : String} {es earlier earlier' later later' : List Entry} {terms terms' : List Char}

theorem any_tells_iff {what : Line} {said : String}
    (h : ∀ line, what.Means (Text.trim line) ↔ Text.trim line = said.toList) :
    es.any (·.tells what) ↔ Contains es said := by
  rw [List.any_eq_true]
  constructor
  · rintro ⟨e, he, htells⟩
    cases e with
    | answer => cases htells
    | plain line =>
      exact ⟨line, he, (h line).mp (Line.ofText_eq_iff.mp (of_decide_eq_true htells))⟩
  · rintro ⟨line, hline, hsaid⟩
    exact ⟨.plain line, hline, decide_eq_true (Line.ofText_eq_iff.mpr ((h line).mpr hsaid))⟩

theorem any_tells_optimum_iff : es.any (·.tells .optimum) ↔ Contains es "OPTIMUM FOUND" :=
  any_tells_iff fun _ => Iff.rfl

theorem any_tells_unsatisfiable_iff :
    es.any (·.tells .unsatisfiable) ↔ Contains es "UNSATISFIABLE" :=
  any_tells_iff fun _ => Iff.rfl

theorem contains_append {what : String} :
    Contains (earlier ++ later) what ↔ Contains earlier what ∨ Contains later what := by
  simp only [Contains, List.mem_append, or_and_right, exists_or]

theorem eq_of_cons_eq_append {e e' : Entry} {front : List Entry}
    (h : e :: later = front ++ e' :: later') (he' : e' ∉ later) : e = e' ∧ later = later' := by
  cases front with
  | nil => exact List.cons.inj h
  | cons _ front =>
    refine absurd ?_ he'
    rw [(List.cons.inj h).2]
    exact List.mem_append_right _ List.mem_cons_self

/-- There is one last answer at most. -/
theorem LastAnswer.unique (h : LastAnswer text earlier terms later)
    (h' : LastAnswer text earlier' terms' later') : terms = terms' ∧ later = later' := by
  obtain ⟨⟨head, line, rfl, heq⟩, hlater⟩ := h
  obtain ⟨⟨head', line', rfl, heq'⟩, hlater'⟩ := h'
  rw [heq] at heq'
  rcases List.append_eq_append_iff.mp heq' with ⟨front, -, hfront⟩ | ⟨front, -, hfront⟩
  · obtain ⟨he, hl⟩ := eq_of_cons_eq_append hfront fun hmem => hlater _ hmem rfl
    cases he
    exact ⟨rfl, hl⟩
  · obtain ⟨he, hl⟩ := eq_of_cons_eq_append hfront fun hmem => hlater' _ hmem rfl
    cases he
    exact ⟨rfl, hl.symm⟩

/-- **When a report is accepted:** it has a last answer that can be read, with a cost that can
be read, some line in front of it or behind it says that the optimum was found, and no line
says that there is no answer set. -/
theorem ofReport_eq_ok_iff {a : Answer} :
    Answer.ofReport text = .ok a ↔ ∃ earlier terms later, LastAnswer text earlier terms later ∧
      (Contains earlier "OPTIMUM FOUND" ∨ Contains later "OPTIMUM FOUND") ∧
      ¬Contains (earlier ++ later) "UNSATISFIABLE" ∧
      Answer.costOf (costWord later) = .ok a.cost ∧ Answer.termsOf terms = .ok a.terms := by
  have hskip : ∀ {earlier later : List Entry} {head : List Char} {line : Option (List Char)},
      (earlier ++ .answer head line :: later).any (·.tells .unsatisfiable) ↔
        Contains (earlier ++ later) "UNSATISFIABLE" := fun {earlier later head line} => by
    rw [← any_tells_unsatisfiable_iff, List.any_append, List.any_cons, Entry.tells, Bool.false_or,
      List.any_append]
  constructor
  · intro h
    by_cases hsat : (entries (Text.lines text.toList)).any (·.tells .unsatisfiable)
    · rw [Answer.ofReport_of_unsatisfiable hsat] at h
      cases h
    rcases exists_last (entries (Text.lines text.toList)) with
      hno | ⟨earlier, head, line, later, heq, hlater⟩
    · rw [Answer.ofReport_of_no_answer hsat hno] at h
      cases h
    rw [Answer.ofReport_of_split hsat heq hlater] at h
    rw [heq, hskip] at hsat
    split at h
    next hoptimum =>
      obtain ⟨cost, hcost, h⟩ := bind_eq_ok_iff.mp h
      obtain ⟨found, hfound, h⟩ := bind_eq_ok_iff.mp h
      cases h
      rw [any_tells_optimum_iff, contains_append] at hoptimum
      exact ⟨earlier, _, later, ⟨⟨head, line, rfl, heq⟩, hlater⟩, hoptimum, hsat, hcost, hfound⟩
    next => cases h
  · rintro ⟨earlier, terms, later, ⟨⟨head, line, rfl, heq⟩, hlater⟩, hoptimum, hsat, hcost, hfound⟩
    rw [← hskip, ← heq] at hsat
    rw [← contains_append, ← any_tells_optimum_iff] at hoptimum
    rw [Answer.ofReport_of_split hsat heq hlater, if_pos hoptimum, hcost, hfound]
    rfl

/-- **An accepted answer is vouched for behind its line,** unless the report can be read and
says in front of its last answer only that the optimum was found. -/
theorem provenBehind_of_ofReport_iff (text : String) :
    (∀ a, Answer.ofReport text = .ok a → ProvenBehind text) ↔ ¬ProvenInFrontOnly text := by
  constructor
  · rintro h ⟨earlier, terms, later, hlast, hfront, hbehind, hsat, ⟨n, hcost⟩, found, hfound⟩
    have hok : Answer.ofReport text = .ok ⟨n, found⟩ := ofReport_eq_ok_iff.mpr
      ⟨earlier, terms, later, hlast, .inl hfront, hsat, hcost, hfound⟩
    obtain ⟨earlier', terms', later', hlast', hproven⟩ := h ⟨n, found⟩ hok
    rw [← (hlast.unique hlast').2] at hproven
    exact hbehind hproven
  · intro h a hok
    obtain ⟨earlier, terms, later, hlast, hoptimum, hsat, hcost, hfound⟩ :=
      ofReport_eq_ok_iff.mp hok
    by_cases hbehind : Contains later "OPTIMUM FOUND"
    · exact ⟨earlier, terms, later, hlast, hbehind⟩
    · exact absurd ⟨earlier, terms, later, hlast, hoptimum.resolve_right hbehind, hbehind, hsat,
        ⟨_, hcost⟩, _, hfound⟩ h

/-- The optimum that is reported in front of the second answer vouches for it. -/
theorem ofReport_provenInFront :
    let text := "Answer: 1\na\nOPTIMUM FOUND\nAnswer: 2\nb\n"
    Answer.ofReport text = .ok ⟨0, [.function "b" []]⟩ ∧ ¬ProvenBehind text := by
  intro text
  let earlier : List Entry :=
    [.answer "Answer: 1".toList (some ['a']), .plain "OPTIMUM FOUND".toList]
  have hlines : Text.lines text.toList =
      ["Answer: 1".toList, ['a'], "OPTIMUM FOUND".toList, "Answer: 2".toList, ['b']] := by decide
  have hlast : LastAnswer text earlier ['b'] [] := by
    refine ⟨⟨"Answer: 2".toList, some ['b'], rfl, ?_⟩, List.forall_mem_nil _⟩
    rw [hlines]
    decide
  have hoptimum : Contains earlier "OPTIMUM FOUND" :=
    ⟨"OPTIMUM FOUND".toList, List.mem_cons_of_mem _ List.mem_cons_self, by decide⟩
  have hsat : ¬Contains (earlier ++ []) "UNSATISFIABLE" := by
    rw [← any_tells_unsatisfiable_iff]
    decide
  have hcost : Answer.costOf (costWord []) = .ok 0 := rfl
  have hfound : Answer.termsOf ['b'] = .ok [.function "b" []] := rfl
  refine ⟨ofReport_eq_ok_iff.mpr ⟨earlier, _, [], hlast, .inl hoptimum, hsat, hcost, hfound⟩, ?_⟩
  rintro ⟨_, _, _, hlast', line, hline, -⟩
  rw [← (hlast.unique hlast').2] at hline
  cases hline

/-! ### Blocks of answers -/

/-- Whether an entry is an answer whose answer line is missing. -/
def Entry.isCut : Entry → Bool
  | .answer _ terms => terms.isNone
  | .plain _ => false

/-- The lines end with a line `Answer:` that takes the line behind them as its answer line. -/
def AwaitsAnswer (ls : List (List Char)) : Prop := (entries ls).any Entry.isCut

instance (ls : List (List Char)) : Decidable (AwaitsAnswer ls) :=
  inferInstanceAs (Decidable (_ = true))

/-- Entries do not reach over the end of lines that await no answer. -/
theorem entries_append (h : ¬AwaitsAnswer xs) (ys : List (List Char)) :
    entries (xs ++ ys) = entries xs ++ entries ys := by
  unfold AwaitsAnswer at h
  induction xs using entries.induct with
  | case1 => rfl
  | case2 head hhead =>
    rw [entries, if_pos hhead] at h
    exact absurd rfl h
  | case3 head hhead terms rest ih =>
    rw [entries_of_answer hhead] at h ⊢
    exact (entries_of_answer hhead terms).trans (congrArg _ (ih h))
  | case4 head rest hhead ih =>
    rw [entries_of_plain hhead] at h ⊢
    exact (entries_of_plain hhead).trans (congrArg _ (ih h))

/-- The lines of an answer: the line `Answer:` and the answer line, then perhaps a line of
cost, with other lines in front of it and behind it. -/
structure Block where
  head : List Char
  answer : List Char
  between : List (List Char)
  cost : Option (List Char)
  behind : List (List Char)

namespace Block

/-- The lines behind the answer line. -/
def rest (b : Block) : List (List Char) := b.between ++ b.cost.toList ++ b.behind

def lines (b : Block) : List (List Char) := b.head :: b.answer :: b.rest

structure Proper (b : Block) : Prop where
  head_prefix : "Answer:".toList <+: Text.trim b.head
  between_other : ∀ line ∈ b.between, IsOther (Text.trim line)
  cost_prefix : ∀ line ∈ b.cost, "Optimization:".toList <+: Text.trim line
  behind_other : ∀ line ∈ b.behind, IsOther (Text.trim line)

/-- The word is a number below `2 ^ 64` in decimal digits, perhaps behind a plus sign. -/
def Denotes (word : List Char) (n : Nat) : Prop :=
  ∃ digits, (word = digits ∨ word = '+' :: digits) ∧ Text.natOf? digits = some n ∧ n < 2 ^ 64

/-- The line of cost gives the number, behind `Optimization:` and blanks; without such a
line, the answer costs nothing. -/
def Costs (b : Block) (n : Nat) : Prop :=
  match b.cost with
  | none => n = 0
  | some line => ∃ blanks word tail,
      Text.trim line = "Optimization:".toList ++ (blanks ++ word ++ tail) ∧
      (∀ c ∈ blanks, Text.isBlank c) ∧ (∀ c ∈ tail.head?, Text.isBlank c) ∧ Denotes word n

end Block

/-- A report of one answer or more, the last of which is proven least, among other lines. -/
structure Transcript where
  before : List (List Char)
  blocks : List Block
  last : Block
  found : List Char
  after : List (List Char)

namespace Transcript

def lines (w : Transcript) : List (List Char) :=
  w.before ++ w.blocks.flatMap Block.lines ++ w.last.lines ++ w.found :: w.after

structure Proper (w : Transcript) : Prop where
  before_other : ∀ line ∈ w.before, IsOther (Text.trim line)
  blocks_proper : ∀ b ∈ w.blocks, b.Proper
  last_proper : w.last.Proper
  found_eq : Text.trim w.found = "OPTIMUM FOUND".toList
  after_other : ∀ line ∈ w.after, IsOther (Text.trim line)

end Transcript

/-! ### What such a report gives -/

section

variable {line blanks tail : List Char} {ls : List (List Char)} {b : Block} {w : Transcript}
  {n : Nat}

/-- An entry of a report of blocks: an answer with its answer line, or a line that begins no
answer and does not say that there is none. -/
def Entry.Regular : Entry → Prop
  | .answer head terms => Line.ofText head = .answer ∧ terms.isSome
  | .plain line => Line.ofText line ≠ .answer ∧ Line.ofText line ≠ .unsatisfiable

/-- Such entries are found again in their lines. -/
theorem entries_flatMap_lines (h : ∀ e ∈ es, e.Regular) : entries (es.flatMap Entry.lines) = es := by
  induction es with
  | nil => rfl
  | cons e es ih =>
    rw [List.forall_mem_cons] at h
    obtain ⟨he, hes⟩ := h
    rw [List.flatMap_cons]
    cases e with
    | answer head terms =>
      obtain ⟨line, rfl⟩ := Option.isSome_iff_exists.mp he.2
      exact (entries_of_answer he.1 line).trans (congrArg _ (ih hes))
    | plain line => exact (entries_of_plain he.1).trans (congrArg _ (ih hes))

theorem not_any_tells_unsatisfiable (h : ∀ e ∈ es, e.Regular) :
    ¬es.any (·.tells .unsatisfiable) := by
  rw [List.any_eq_true]
  rintro ⟨e, he, htells⟩
  cases e with
  | answer => cases htells
  | plain line => exact (h _ he).2 (of_decide_eq_true htells)

theorem ofText_eq_other (h : IsOther (Text.trim line)) : Line.ofText line = .other :=
  Line.ofText_eq_iff.mpr h

theorem ofText_eq_optimum (h : Text.trim line = "OPTIMUM FOUND".toList) :
    Line.ofText line = .optimum := Line.ofText_eq_iff.mpr h

theorem regular_of_isOther (h : IsOther (Text.trim line)) : (Entry.plain line).Regular := by
  rw [Entry.Regular, ofText_eq_other h]
  decide

theorem regular_of_optimum (h : Text.trim line = "OPTIMUM FOUND".toList) :
    (Entry.plain line).Regular := by
  rw [Entry.Regular, ofText_eq_optimum h]
  decide

theorem regular_of_prefix (h : "Optimization:".toList <+: Text.trim line) :
    (Entry.plain line).Regular := by
  obtain ⟨rest, hrest⟩ := h
  have hcost : Line.ofText line = .cost (Text.firstWord? rest) :=
    Line.ofText_eq_iff.mpr ⟨rest, hrest.symm, rfl⟩
  rw [Entry.Regular, hcost]
  exact ⟨Line.noConfusion, Line.noConfusion⟩

namespace Block

def entries (b : Block) : List Entry := .answer b.head (some b.answer) :: b.rest.map .plain

theorem Proper.regular (h : b.Proper) : ∀ e ∈ b.entries, e.Regular := by
  refine List.forall_mem_cons.mpr ⟨⟨Line.ofText_eq_iff.mpr h.head_prefix, rfl⟩, ?_⟩
  rw [List.forall_mem_map]
  intro line hline
  rw [rest, List.mem_append, List.mem_append, Option.mem_toList] at hline
  rcases hline with (hline | hline) | hline
  · exact regular_of_isOther (h.between_other line hline)
  · exact regular_of_prefix (h.cost_prefix line hline)
  · exact regular_of_isOther (h.behind_other line hline)

end Block

theorem flatMap_lines_map_plain (ls : List (List Char)) :
    (ls.map Entry.plain).flatMap Entry.lines = ls := by
  rw [List.flatMap_map]
  exact List.flatMap_singleton' ls

theorem Block.flatMap_lines_entries (b : Block) : b.entries.flatMap Entry.lines = b.lines := by
  rw [Block.entries, List.flatMap_cons, flatMap_lines_map_plain]
  rfl

namespace Transcript

/-- What stands in front of the last answer. -/
def front (w : Transcript) : List Entry := w.before.map .plain ++ w.blocks.flatMap Block.entries

/-- What stands behind the last answer. -/
def back (w : Transcript) : List Entry := (w.last.rest ++ w.found :: w.after).map .plain

/-- The entries of the report. -/
def entries (w : Transcript) : List Entry :=
  w.front ++ .answer w.last.head (some w.last.answer) :: w.back

theorem Proper.regular (hw : w.Proper) : ∀ e ∈ w.entries, e.Regular := by
  obtain ⟨hlast, hrest⟩ := List.forall_mem_cons.mp hw.last_proper.regular
  simp only [entries, front, back, List.map_append, List.map_cons, List.forall_mem_append,
    List.forall_mem_cons, List.forall_mem_flatMap]
  refine ⟨⟨?_, fun b hb => (hw.blocks_proper b hb).regular⟩, hlast, hrest, ?_, ?_⟩
  · exact List.forall_mem_map.mpr fun line h => regular_of_isOther (hw.before_other line h)
  · exact regular_of_optimum hw.found_eq
  · exact List.forall_mem_map.mpr fun line h => regular_of_isOther (hw.after_other line h)

theorem flatMap_lines_entries (w : Transcript) : w.entries.flatMap Entry.lines = w.lines := by
  rw [entries, front, back, List.append_assoc, List.flatMap_append, List.flatMap_append,
    flatMap_lines_map_plain, List.flatMap_assoc, List.flatMap_cons, flatMap_lines_map_plain]
  simp only [Block.flatMap_lines_entries]
  rw [lines, List.append_assoc, List.append_assoc]
  rfl

theorem entries_lines (hw : w.Proper) : AnswerReport.entries w.lines = w.entries := by
  rw [← flatMap_lines_entries, entries_flatMap_lines hw.regular]

end Transcript

/-! ### The cost of the last answer -/

/-- The first word stands behind the blanks at the start, up to the next blank. -/
theorem firstWord?_append {word : List Char} (hblanks : ∀ c ∈ blanks, Text.isBlank c)
    (hword : Text.IsWord word) (htail : ∀ c ∈ tail.head?, Text.isBlank c) :
    Text.firstWord? (blanks ++ word ++ tail) = some word := by
  obtain ⟨c, word, rfl⟩ := List.exists_cons_of_ne_nil hword.1
  have hc : ¬Text.isBlank c := hword.2 c List.mem_cons_self
  have hdrop : (blanks ++ (c :: word) ++ tail).dropWhile Text.isBlank = c :: (word ++ tail) := by
    rw [List.append_assoc, List.dropWhile_append_of_pos hblanks, List.cons_append,
      List.dropWhile_cons_of_neg hc]
  have hword' : ∀ d ∈ c :: word, !Text.isBlank d := fun d hd => by simpa using hword.2 d hd
  have htake : tail.takeWhile (fun d => !Text.isBlank d) = [] := by
    cases tail with
    | nil => rfl
    | cons d tail =>
      have hd : ¬(!Text.isBlank d) := by simpa using htail d rfl
      exact List.takeWhile_cons_of_neg hd
  rw [Text.firstWord?, hdrop]
  show some ((c :: word ++ tail).takeWhile fun d => !Text.isBlank d) = _
  rw [List.takeWhile_append_of_pos hword', htake, List.append_nil]

/-- A number in digits holds only digits, and one of them at least. -/
theorem all_isDigit_of_natOf? {digits : List Char} (h : Text.natOf? digits = some n) :
    digits ≠ [] ∧ ∀ c ∈ digits, c.isDigit := by
  unfold Text.natOf? at h
  split at h
  next hdigits => exact ⟨hdigits.1, List.all_eq_true.mp hdigits.2⟩
  next => cases h

/-- The word without the plus sign that may stand in front of it. -/
def unsigned : List Char → List Char
  | '+' :: rest => rest
  | word => word

theorem eq_unsigned_or_cons (word : List Char) :
    word = unsigned word ∨ word = '+' :: unsigned word := by
  unfold unsigned
  split
  next => exact .inr rfl
  next => exact .inl rfl

theorem unsigned_of_head?_ne {word : List Char} (h : word.head? ≠ some '+') :
    unsigned word = word := by
  unfold unsigned
  split
  next => exact absurd rfl h
  next => rfl

theorem costOfWord?_eq (word : List Char) :
    costOfWord? word = (Text.natOf? (unsigned word)).filter (· < 2 ^ 64) := by
  have hfold : ∀ digits : List Char,
      digits.foldl (fun n c => n * 10 + (c.toNat - '0'.toNat)) 0 = Nat.ofDigitChars 10 digits 0 :=
    fun digits => by simp only [Nat.ofDigitChars, Nat.mul_comm 10]
  unfold costOfWord? Text.natOf? unsigned
  simp only [hfold]
  grind

/-- **Which words are read as a cost.** -/
theorem costOfWord?_eq_some_iff {word : List Char} :
    costOfWord? word = some n ↔ Block.Denotes word n := by
  rw [costOfWord?_eq, Option.filter_eq_some_iff, decide_eq_true_iff]
  constructor
  · rintro ⟨hdigits, hn⟩
    exact ⟨_, eq_unsigned_or_cons word, hdigits, hn⟩
  · rintro ⟨digits, rfl | rfl, hdigits, hn⟩
    · have hhead : word.head? ≠ some '+' := fun h =>
        absurd ((all_isDigit_of_natOf? hdigits).2 '+' (List.mem_of_head? h)) (by decide)
      rw [unsigned_of_head?_ne hhead]
      exact ⟨hdigits, hn⟩
    · exact ⟨hdigits, hn⟩

theorem Block.Denotes.isWord {word : List Char} (h : Block.Denotes word n) : Text.IsWord word := by
  obtain ⟨digits, hword, hdigits, -⟩ := h
  obtain ⟨hne, hall⟩ := all_isDigit_of_natOf? hdigits
  have hname : digits.all Formula.isNameChar := List.all_eq_true.mpr fun c hc => by
    rw [Formula.isNameChar, Char.isAlphanum, hall c hc, Bool.or_true, Bool.true_or]
  have hisWord : Text.IsWord digits := Text.isWord_of_all hne hname
  rcases hword with rfl | rfl
  · exact hisWord
  · exact ⟨List.cons_ne_nil _ _, List.forall_mem_cons.mpr ⟨by decide, hisWord.2⟩⟩

theorem filterMap_cost?_of_other (h : ∀ line ∈ ls, IsOther (Text.trim line)) :
    (ls.map Entry.plain).filterMap Entry.cost? = [] := by
  rw [List.filterMap_map, List.filterMap_eq_nil_iff]
  intro line hline
  rw [Function.comp_apply, Entry.cost?, ofText_eq_other (h line hline)]

namespace Transcript

/-- The last cost behind the last answer is that of its block. -/
theorem costWord_back (hw : w.Proper) :
    costWord w.back = (w.last.cost.bind fun line => Entry.cost? (.plain line)).getD none := by
  have hfound : Entry.cost? (.plain w.found) = none := by
    rw [Entry.cost?, ofText_eq_optimum hw.found_eq]
  have hafter := filterMap_cost?_of_other hw.after_other
  have hbetween := filterMap_cost?_of_other hw.last_proper.between_other
  have hbehind := filterMap_cost?_of_other hw.last_proper.behind_other
  rw [costWord, back, Block.rest]
  simp only [List.map_append, List.map_cons, List.filterMap_append, List.filterMap_cons, hfound,
    hafter, hbetween, hbehind, List.append_nil, List.nil_append]
  cases w.last.cost with
  | none => rfl
  | some line =>
    show ((([Entry.plain line]).filterMap Entry.cost?).getLast?).getD none =
      (Entry.cost? (.plain line)).getD none
    rw [List.filterMap_cons]
    cases Entry.cost? (.plain line) <;> rfl

theorem costOf_costWord_back (hw : w.Proper) (hn : w.last.Costs n) :
    Answer.costOf (costWord w.back) = .ok n := by
  rw [costWord_back hw]
  unfold Block.Costs at hn
  split at hn
  next hcost =>
    rw [hcost, hn]
    rfl
  next line hcost =>
    obtain ⟨blanks, word, tail, hline, hblanks, htail, hword⟩ := hn
    have hsays : Line.ofText line = .cost (Text.firstWord? (blanks ++ word ++ tail)) :=
      Line.ofText_eq_iff.mpr ⟨_, hline, rfl⟩
    rw [hcost, Option.bind_some, Entry.cost?, hsays,
      firstWord?_append hblanks hword.isWord htail]
    show Answer.costOf (some word) = .ok n
    rw [Answer.costOf, costOfWord?_eq_some_iff.mpr hword]

end Transcript

end

/-- **The last answer of a report counts, with its own cost,** whatever the answers in front
of it say, and a line that says there is no answer set, anywhere but in the place of an
answer line, refuses the report. -/
theorem ofReport_transcript (w : Transcript) (hw : w.Proper) :
    (∀ text n, Text.lines text.toList = w.lines → w.last.Costs n →
      Answer.ofReport text = (Answer.termsOf w.last.answer).map (Answer.mk n)) ∧
    ∀ text ahead line behind, w.lines = ahead ++ behind → ¬AwaitsAnswer ahead →
      Text.trim line = "UNSATISFIABLE".toList →
      Text.lines text.toList = ahead ++ line :: behind →
      Answer.ofReport text = .error .noAnswerSet := by
  constructor
  · intro text n htext hn
    have hentries : entries (Text.lines text.toList) = w.entries := by
      rw [htext, Transcript.entries_lines hw]
    have hsat := not_any_tells_unsatisfiable hw.regular
    rw [← hentries] at hsat
    have hback : ∀ e ∈ w.back, ¬e.isAnswer := List.forall_mem_map.mpr fun _ _ => Bool.false_ne_true
    have hmem : .plain w.found ∈ w.back :=
      List.mem_map_of_mem (List.mem_append_right _ List.mem_cons_self)
    have hfound : (w.front ++ w.back).any (·.tells .optimum) :=
      any_tells_optimum_iff.mpr ⟨w.found, List.mem_append_right _ hmem, hw.found_eq⟩
    rw [Answer.ofReport_of_split hsat hentries hback, if_pos hfound,
      Transcript.costOf_costWord_back hw hn]
    show (do let found ← Answer.termsOf w.last.answer; return Answer.mk n found) = _
    cases Answer.termsOf w.last.answer <;> rfl
  · intro text ahead line behind _ hahead hline htext
    have hplain : Line.ofText line = .unsatisfiable := Line.ofText_eq_iff.mpr hline
    have hne : Line.ofText line ≠ .answer := by
      rw [hplain]
      decide
    refine Answer.ofReport_of_unsatisfiable ?_
    rw [htext, entries_append hahead, entries_of_plain hne, any_tells_unsatisfiable_iff]
    exact ⟨line, List.mem_append_right _ List.mem_cons_self, hline⟩

/-- The first answer cannot be read, nor its cost; blanks stand around keywords, and the
second answer line says that there is no answer set. -/
theorem ofReport_transcript_unreadable :
    let first : Block := ⟨"Answer: 1".toList, "f(".toList, [], some "Optimization: -1".toList, []⟩
    let second : Block := ⟨"Answer:".toList, "UNSATISFIABLE".toList, [[]], none, []⟩
    let last : Block := ⟨" Answer: 3".toList, "b f(-1)".toList, ["Time".toList],
      some "Optimization: +07 1".toList, []⟩
    let w : Transcript :=
      ⟨["Solving".toList], [first, second], last, "OPTIMUM FOUND ".toList, ["Calls".toList]⟩
    let text (ls : List (List Char)) : String := String.ofList (ls.flatMap (· ++ ['\n']))
    w.Proper ∧ last.Costs 7 ∧ Text.lines (text w.lines).toList = w.lines ∧
      Answer.ofReport (text w.lines) =
        .ok ⟨7, [.function "b" [], .function "f" [.number (-1)]]⟩ ∧
      Answer.ofReport (text (w.lines.take 12 ++ "UNSATISFIABLE ".toList :: w.lines.drop 12)) =
        .error .noAnswerSet := by
  intro first second last w text
  have hw : w.Proper :=
    { before_other := by decide
      blocks_proper := by
        rw [List.forall_mem_cons, List.forall_mem_singleton]
        exact ⟨⟨by decide, by decide, by decide, by decide⟩,
          ⟨by decide, by decide, by decide, by decide⟩⟩
      last_proper := ⟨by decide, by decide, by decide, by decide⟩
      found_eq := by decide
      after_other := by decide }
  have hblank : Text.isBlank ' ' := by decide
  have hn : last.Costs 7 :=
    ⟨[' '], "+07".toList, [' ', '1'], by decide, List.forall_mem_singleton.mpr hblank,
      fun c hc => Option.some_inj.mp hc ▸ hblank, "07".toList, .inr rfl, by decide, by decide⟩
  have hlines : ∀ ls, (∀ l ∈ ls, '\n' ∉ l ∧ '\r' ∉ l) → Text.lines (text ls).toList = ls :=
    fun ls h => by rw [String.toList_ofList, Text.lines_flatMap h]
  have hfound : Answer.termsOf last.answer = .ok [.function "b" [], .function "f" [.number (-1)]] :=
    rfl
  obtain ⟨hlast, hrefused⟩ := ofReport_transcript w hw
  refine ⟨hw, hn, hlines _ (by decide), ?_, ?_⟩
  · rw [hlast _ 7 (hlines _ (by decide)) hn, hfound]
    rfl
  · exact hrefused _ (w.lines.take 12) "UNSATISFIABLE ".toList (w.lines.drop 12)
      (List.take_append_drop 12 w.lines).symm (by decide) (by decide) (hlines _ (by decide))

end AnswerReport
end LeastGlut
