/-
# Clauses written as text are read back

A reader of the classic WCNF format splits a text into lines, a line into words, and reads
the words as numbers. What it tells hard clauses by is the top weight alone. The text of
weighted clauses is lines of words that hold no blank (`WeightedClauses.toList_wcnf`), so
the reader finds the numbers of the header and every clause with its weight
(`WeightedClauses.ofText?_wcnf`). Below `2 ^ 64` the top weight is that of no soft clause,
so the hard ones and the soft ones come apart again.

Key definitions: `Text.IsWord`, `Text.words`, `Text.natOf?`, `Text.intOf?`, `Wcnf`,
`Wcnf.ofText?`, `Wcnf.clauses`, `WeightedClauses.weighted`.
-/
import LeastGlut.Proofs.Displays
import LeastGlut.Proofs.OneLine
import LeastGlut.Proofs.Optimum
import LeastGlut.WeightedClauses.Wcnf
import Mathlib.Algebra.Order.BigOperators.Group.List
import Mathlib.Algebra.Order.Group.Nat

namespace LeastGlut

namespace Text

/-- The words of a line, with one blank or more between any two. -/
def words (cs : List Char) : List (List Char) := (cs.splitOn ' ').filter (· ≠ [])

/-- A number in decimal digits. -/
def natOf? (word : List Char) : Option Nat :=
  if word ≠ [] ∧ word.all Char.isDigit then some (Nat.ofDigitChars 10 word 0) else none

/-- A number in decimal digits, with a minus sign if it is negative. -/
def intOf? (word : List Char) : Option Int :=
  if word.head? = some '-' then (natOf? word.tail).map fun n : Nat => -(n : Int)
  else (natOf? word).map fun n : Nat => (n : Int)

end Text

/-- What a text in the classic format holds: the numbers of its header, and the clauses of
its lines, each behind its weight. -/
structure Wcnf where
  varCount : Nat
  clauseCount : Nat
  top : Weight
  lines : List (Weight × Clause)
  deriving DecidableEq

namespace Wcnf

open Text

/-- The number of variables, the number of clauses and the top weight. -/
def header? : List (List Char) → Option (Nat × Nat × Weight)
  | [p, format, vars, clauses, top] =>
    if p = ['p'] ∧ format = ['w', 'c', 'n', 'f'] then do
      return (← natOf? vars, ← natOf? clauses, ← natOf? top)
    else none
  | _ => none

/-- The literals in front of a `0`, which is the last word. -/
def literals? : List (List Char) → Option Clause
  | [] => none
  | word :: rest => do
    let l ← intOf? word
    if l = 0 then
      if rest.isEmpty then return [] else none
    else return l :: (← literals? rest)

/-- A weight and literals. -/
def line? : List (List Char) → Option (Weight × Clause)
  | [] => none
  | weight :: rest => return (← natOf? weight, ← literals? rest)

/-- Reads a header and a clause on each further line. -/
def ofText? (text : String) : Option Wcnf :=
  match (Text.lines text.toList).map words with
  | [] => none
  | first :: rest => do
    let (vars, clauses, top) ← header? first
    return ⟨vars, clauses, top, ← rest.mapM line?⟩

/-- The clauses whose weight is the top weight are hard. -/
def clauses (t : Wcnf) : WeightedClauses where
  hard := (t.lines.filter (·.1 = t.top)).map (·.2)
  soft := (t.lines.filter (·.1 ≠ t.top)).map Prod.swap
  varCount := t.varCount

end Wcnf

/-! ### Lines and words -/

namespace Text

/-- A text that is not empty and holds no blank. -/
def IsWord (cs : List Char) : Prop := cs ≠ [] ∧ ∀ c ∈ cs, ¬isBlank c

variable {ws ls : List (List Char)}

theorem mem_intercalate {c : Char} (h : c ∈ [' '].intercalate ws) : c = ' ' ∨ ∃ w ∈ ws, c ∈ w := by
  induction ws with
  | nil => cases h
  | cons w ws ih =>
    cases ws with
    | nil => exact .inr ⟨w, List.mem_cons_self, by simpa using h⟩
    | cons w' ws =>
      rw [List.intercalate_cons_cons, List.mem_append, List.mem_append, List.mem_singleton] at h
      rcases h with (h | h) | h
      · exact .inr ⟨w, List.mem_cons_self, h⟩
      · exact .inl h
      · refine (ih h).imp_right fun hex => ?_
        obtain ⟨u, hu, hc⟩ := hex
        exact ⟨u, List.mem_cons_of_mem _ hu, hc⟩

/-- Words with a blank between them make one line. -/
theorem not_mem_intercalate (h : ∀ w ∈ ws, IsWord w) {c : Char} (hc : isBlank c) (hne : c ≠ ' ') :
    c ∉ [' '].intercalate ws := fun hmem => by
  obtain rfl | hex := mem_intercalate hmem
  · exact hne rfl
  · obtain ⟨w, hw, hcw⟩ := hex
    exact (h w hw).2 c hcw hc

/-- **Words with a blank between them** are the words of the line that they make. -/
theorem words_intercalate (h : ∀ w ∈ ws, IsWord w) (hne : ws ≠ []) :
    words ([' '].intercalate ws) = ws := by
  have hblank : ∀ w ∈ ws, ' ' ∉ w := fun w hw hmem => (h w hw).2 ' ' hmem (by decide)
  rw [words, List.splitOn_intercalate ' ' hblank hne, List.filter_eq_self]
  exact fun w hw => decide_eq_true (h w hw).1

theorem withoutEnding_append {l : List Char} (h : '\r' ∉ l) : withoutEnding (l ++ ['\n']) = l := by
  unfold withoutEnding
  rw [List.reverse_append, List.reverse_singleton, List.singleton_append]
  split
  next rest hrest =>
    refine absurd (List.mem_reverse.mp ?_) h
    rw [(List.cons.inj hrest).2]
    exact List.mem_cons_self
  next rest _ hrest => rw [← (List.cons.inj hrest).2, List.reverse_reverse]
  next _ hother => exact absurd rfl (hother l.reverse)

/-- **Lines that each end with a line feed** are the lines of their text. -/
theorem lines_flatMap (h : ∀ l ∈ ls, '\n' ∉ l ∧ '\r' ∉ l) :
    lines (ls.flatMap (· ++ ['\n'])) = ls := by
  rw [lines, segments_flatMap fun l hl => (h l hl).1, List.map_map]
  exact (List.map_congr_left fun l hl => withoutEnding_append (h l hl).2).trans (List.map_id _)

/-- Lines of words are read as their words. -/
theorem words_of_lines {wss : List (List (List Char))}
    (h : ∀ ws ∈ wss, ws ≠ [] ∧ ∀ w ∈ ws, IsWord w) :
    (lines ((wss.map fun ws => [' '].intercalate ws).flatMap (· ++ ['\n']))).map words = wss := by
  have hlines : ∀ l ∈ wss.map fun ws => [' '].intercalate ws, '\n' ∉ l ∧ '\r' ∉ l :=
    List.forall_mem_map.mpr fun ws hws =>
      ⟨not_mem_intercalate (h ws hws).2 (by decide) (by decide),
        not_mem_intercalate (h ws hws).2 (by decide) (by decide)⟩
  rw [lines_flatMap hlines, List.map_map]
  exact (List.map_congr_left fun ws hws => words_intercalate (h ws hws).2 (h ws hws).1).trans
    (List.map_id _)

/-! ### Numbers -/

theorem isWord_of_all {cs : List Char} (hne : cs ≠ []) (h : cs.all Formula.isNameChar) :
    IsWord cs := by
  refine ⟨hne, fun c hc => ?_⟩
  have hname := Formula.isNameChar_iff.mp (List.all_eq_true.mp h c hc)
  exact Bool.eq_false_iff.mp hname.isBlank_eq_false

variable (n : Nat) (l : Int)

theorem isWord_toString : IsWord (toString n).toList := by
  have hne : (toString n).toList ≠ [] := toList_toString n ▸ Nat.toDigits_ne_nil
  refine isWord_of_all hne (List.all_eq_true.mpr fun c hc => ?_)
  delta Formula.isNameChar Char.isAlphanum
  rw [isDigit_of_mem_toString n c hc, Bool.or_true, Bool.true_or]

theorem natOf?_toString : natOf? (toString n).toList = some n := by
  have hdigits : (toString n).toList.all Char.isDigit :=
    List.all_eq_true.mpr (isDigit_of_mem_toString n)
  rw [natOf?, if_pos ⟨(isWord_toString n).1, hdigits⟩, toList_toString,
    Nat.ofDigitChars_ten_toDigits]

/-- A negative number is written with a minus sign, any other as it is. -/
theorem toList_toString_int : ∃ n : Nat,
    (l = n ∧ (toString l).toList = (toString n).toList) ∨
      (l = -n ∧ (toString l).toList = '-' :: (toString n).toList) := by
  rw [Int.toString_eq_repr, Int.repr_eq_if]
  split
  next h =>
    refine ⟨l.toNat, .inl ⟨by omega, ?_⟩⟩
    rw [Nat.toString_eq_repr]
  next h =>
    refine ⟨(-l).toNat, .inr ⟨by omega, ?_⟩⟩
    rw [Nat.toString_eq_repr, String.toList_append]
    rfl

theorem isWord_toString_int : IsWord (toString l).toList := by
  obtain ⟨n, h⟩ := toList_toString_int l
  rcases h with ⟨-, h⟩ | ⟨-, h⟩
  · rw [h]
    exact isWord_toString n
  · rw [h]
    exact ⟨List.cons_ne_nil _ _, List.forall_mem_cons.mpr ⟨by decide, (isWord_toString n).2⟩⟩

theorem intOf?_toString : intOf? (toString l).toList = some l := by
  obtain ⟨n, h⟩ := toList_toString_int l
  rcases h with ⟨rfl, h⟩ | ⟨rfl, h⟩
  · have hhead : (toString n).toList.head? ≠ some '-' := fun hc =>
      absurd (isDigit_of_mem_toString n _ (List.mem_of_head? hc)) (by decide)
    rw [h, intOf?, if_neg hhead, natOf?_toString]
    rfl
  · rw [h, intOf?, List.tail_cons, natOf?_toString]
    rfl

end Text

namespace WeightedClauses

open Text Wcnf

variable {w : WeightedClauses}

/-- Every clause behind its weight, in the order in which they are written. -/
def weighted (w : WeightedClauses) : List (Weight × Clause) :=
  w.hard.map (w.topWeight, ·) ++ w.soft.map Prod.swap

/-- The words of the header. -/
def headerWords (w : WeightedClauses) : List (List Char) :=
  [['p'], ['w', 'c', 'n', 'f'], (toString w.varCount).toList,
    (toString (w.hard.length + w.soft.length)).toList, (toString w.topWeight).toList]

/-- The words of a clause behind its weight. -/
def lineWords (entry : Weight × Clause) : List (List Char) :=
  (toString entry.1).toList :: entry.2.map (fun l : Literal => (toString l).toList) ++ [['0']]

theorem isWord_headerWords : ∀ word ∈ w.headerWords, IsWord word := by
  intro word h
  simp only [headerWords, List.mem_cons, List.not_mem_nil, or_false] at h
  rcases h with rfl | rfl | rfl | rfl | rfl
  · exact isWord_of_all (by decide) (by decide)
  · exact isWord_of_all (by decide) (by decide)
  all_goals exact isWord_toString _

theorem isWord_lineWords (entry : Weight × Clause) : ∀ word ∈ lineWords entry, IsWord word := by
  simp only [lineWords, List.cons_append, List.forall_mem_cons, List.forall_mem_append,
    List.forall_mem_map]
  exact ⟨isWord_toString _, fun l _ => isWord_toString_int l, isWord_toString 0,
    List.forall_mem_nil _⟩

theorem toList_wcnfHeader (w : WeightedClauses) :
    w.wcnfHeader.toList = [' '].intercalate w.headerWords ++ ['\n'] := by
  simp only [wcnfHeader, headerWords, String.toList_append, List.intercalate_cons_cons,
    List.intercalate_singleton, List.append_assoc]
  rfl

theorem toList_wcnfLine (weight : Weight) (c : Clause) :
    (wcnfLine weight c).toList = [' '].intercalate (lineWords (weight, c)) ++ ['\n'] := by
  rw [wcnfLine, String.toList_append, String.toList_intercalate, List.cons_append, List.map_cons,
    List.map_append, List.map_map]
  rfl

/-- **The text of weighted clauses** is lines of words. -/
theorem toList_wcnf (w : WeightedClauses) :
    w.wcnf.toList = ((w.headerWords :: w.weighted.map lineWords).map
      fun ws => [' '].intercalate ws).flatMap (· ++ ['\n']) := by
  simp only [wcnf, weighted, String.toList_append, String.toList_join, toList_wcnfHeader,
    List.flatMap_map, toList_wcnfLine, List.map_cons, List.map_append, List.flatMap_cons,
    List.flatMap_append, List.append_assoc]
  rfl

theorem header?_headerWords (w : WeightedClauses) :
    header? w.headerWords = some (w.varCount, w.hard.length + w.soft.length, w.topWeight) := by
  rw [headerWords, header?, natOf?_toString, natOf?_toString, natOf?_toString]
  exact if_pos ⟨rfl, rfl⟩

theorem literals?_words {c : Clause} (h : 0 ∉ c) :
    literals? (c.map (fun l : Literal => (toString l).toList) ++ [['0']]) = some c := by
  induction c with
  | nil => decide
  | cons l c ih =>
    rw [List.mem_cons, not_or] at h
    rw [List.map_cons, List.cons_append, literals?, intOf?_toString, ih h.2]
    exact if_neg (Ne.symm h.1)

theorem line?_lineWords {entry : Weight × Clause} (h : 0 ∉ entry.2) :
    line? (lineWords entry) = some entry := by
  rw [lineWords, List.cons_append, line?, natOf?_toString, literals?_words h]
  rfl

theorem mapM_line?_lineWords {entries : List (Weight × Clause)} (h : ∀ e ∈ entries, 0 ∉ e.2) :
    (entries.map lineWords).mapM line? = some entries := by
  induction entries with
  | nil => rfl
  | cons e entries ih =>
    rw [List.forall_mem_cons] at h
    rw [List.map_cons, List.mapM_cons, line?_lineWords h.1, ih h.2]
    rfl

/-! ### Hard and soft -/

theorem topWeight_eq (h : (w.soft.map (·.2)).sum + 1 < 2 ^ 64) :
    w.topWeight = (w.soft.map (·.2)).sum + 1 := by
  rw [topWeight, Weight.total_of_lt (Nat.lt_of_succ_lt h)]
  exact Nat.mod_eq_of_lt h

/-- No soft clause has the top weight. -/
theorem lt_topWeight (h : (w.soft.map (·.2)).sum + 1 < 2 ^ 64) {s : Clause × Weight}
    (hs : s ∈ w.soft) : s.2 < w.topWeight := by
  rw [topWeight_eq h]
  exact Nat.lt_succ_of_le
    (List.single_le_sum (fun _ _ => Nat.zero_le _) _ (List.mem_map_of_mem hs))

theorem cost_lt_topWeight (h : (w.soft.map (·.2)).sum + 1 < 2 ^ 64) (v : Ident → Bool) :
    w.cost v < w.topWeight := by
  rw [topWeight_eq h, cost_eq_sum (Nat.lt_of_succ_lt h)]
  exact Nat.lt_succ_of_le (sum_unmet_le w.soft v)

/-- What is read from the text of weighted clauses. -/
def asWcnf (w : WeightedClauses) : Wcnf :=
  ⟨w.varCount, w.hard.length + w.soft.length, w.topWeight, w.weighted⟩

theorem words_lines_wcnf (w : WeightedClauses) :
    (Text.lines w.wcnf.toList).map words = w.headerWords :: w.weighted.map lineWords := by
  rw [toList_wcnf]
  refine words_of_lines (List.forall_mem_cons.mpr ⟨⟨List.cons_ne_nil _ _, isWord_headerWords⟩, ?_⟩)
  exact List.forall_mem_map.mpr fun e _ => ⟨List.cons_ne_nil _ _, isWord_lineWords e⟩

theorem ofText?_wcnf_eq (hhard : ∀ c ∈ w.hard, 0 ∉ c) (hsoft : ∀ s ∈ w.soft, 0 ∉ s.1) :
    Wcnf.ofText? w.wcnf = some w.asWcnf := by
  have hentries : ∀ e ∈ w.weighted, 0 ∉ e.2 := by
    rw [weighted, List.forall_mem_append, List.forall_mem_map, List.forall_mem_map]
    exact ⟨hhard, hsoft⟩
  rw [Wcnf.ofText?, words_lines_wcnf]
  simp only [header?_headerWords, mapM_line?_lineWords hentries]
  rfl

/-- Hard and soft clauses come apart again where no soft one has the top weight. -/
theorem clauses_asWcnf (h : ∀ s ∈ w.soft, s.2 ≠ w.topWeight) : w.asWcnf.clauses = w := by
  have hne : ∀ c k, (c, k) ∈ w.soft → ¬k = w.topWeight := fun c k hs => h (c, k) hs
  have hhard : (w.weighted.filter (·.1 = w.topWeight)).map (·.2) = w.hard := by
    simpa [weighted, List.filter_map, Function.comp_def] using hne
  have hsoft : (w.weighted.filter (·.1 ≠ w.topWeight)).map Prod.swap = w.soft := by
    simpa [weighted, List.filter_map, Function.comp_def] using hne
  show (⟨_, _, w.varCount⟩ : WeightedClauses) = w
  rw [asWcnf, hhard, hsoft]

/-- **The text of weighted clauses is read back as these clauses,** with their weights and in
their order. The header counts the lines behind it, and its top weight is above the weight
of every soft clause and above the cost of every assignment. -/
theorem ofText?_wcnf (hhard : ∀ c ∈ w.hard, 0 ∉ c) (hsoft : ∀ s ∈ w.soft, 0 ∉ s.1)
    (hweight : (w.soft.map (·.2)).sum + 1 < 2 ^ 64) :
    ∃ t, Wcnf.ofText? w.wcnf = some t ∧ t.clauses = w ∧ t.clauseCount = t.lines.length ∧
      (Text.lines w.wcnf.toList).length = t.clauseCount + 1 ∧ (∀ s ∈ w.soft, s.2 < t.top) ∧
      ∀ v, w.cost v < t.top := by
  have hcount : w.weighted.length = w.hard.length + w.soft.length := by
    rw [weighted, List.length_append, List.length_map, List.length_map]
  have hlines : (Text.lines w.wcnf.toList).length = w.weighted.length + 1 := by
    simpa using congrArg List.length (words_lines_wcnf w)
  refine ⟨w.asWcnf, ofText?_wcnf_eq hhard hsoft, ?_, hcount.symm, ?_, ?_, ?_⟩
  · exact clauses_asWcnf fun s hs => Nat.ne_of_lt (lt_topWeight hweight hs)
  · exact hlines.trans (congrArg (· + 1) hcount)
  · exact fun s hs => lt_topWeight hweight hs
  · exact cost_lt_topWeight hweight

theorem ofText?_wcnf_emptyClauses :
    let w : WeightedClauses := ⟨[[1, -2], []],
      [([], 0), ([-2147483648], 18446744073709551613), ([3], 1)], 2⟩
    (∀ c ∈ w.hard, 0 ∉ c) ∧ (∀ s ∈ w.soft, 0 ∉ s.1) ∧ (w.soft.map (·.2)).sum + 1 < 2 ^ 64 ∧
      w.wcnf = "p wcnf 2 5 18446744073709551615\n18446744073709551615 1 -2 0\n" ++
        "18446744073709551615 0\n0 0\n18446744073709551613 -2147483648 0\n1 3 0\n" ∧
      ∃ t, Wcnf.ofText? w.wcnf = some t ∧ t.clauses = w := by
  intro w
  have hhard : ∀ c ∈ w.hard, 0 ∉ c := by decide
  have hsoft : ∀ s ∈ w.soft, 0 ∉ s.1 := by decide
  have hweight : (w.soft.map (·.2)).sum + 1 < 2 ^ 64 := by decide
  obtain ⟨t, ht, hc, -⟩ := ofText?_wcnf hhard hsoft hweight
  exact ⟨hhard, hsoft, hweight, by decide, t, ht, hc⟩

end WeightedClauses
end LeastGlut
