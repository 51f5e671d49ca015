/-
# Where a line is refused

Every state that the reader's machine comes to leads on to the end of a formula:
what is missing of a symbol and of an operand can be put in, and the brackets
that are open can be closed (`Formula.State.Regular.exists_reads`). So the texts
that the machine gets through are the starts of lines that hold a formula
(`Formula.startsLine_iff`), and a line is refused at the first character behind
which it is the start of none, or at its end.

What a state expects are the characters on which it has a step, blanks and those
of atoms apart, and the end of the line where it may end
(`Formula.State.Regular.some_mem_expected_iff`,
`Formula.State.Regular.none_mem_expected_iff`).

Key definitions: `Formula.StartsLine`, `Formula.Nested`, `Formula.State.Regular`.
-/
import LeastGlut.Proofs.Displays
import Mathlib.Tactic.Tauto

namespace LeastGlut
namespace Formula

/-- The text is the start of a line that holds a formula. -/
def StartsLine (cs : List Char) : Prop := ∃ rest f, '\n' ∉ cs ++ rest ∧ Written (cs ++ rest) f

variable {c : Char} {cs : List Char} {stack : List Frame} {s s' : State} {op : Connective}

/-- The characters of a connective are neither blank nor those of atoms. -/
theorem Token.not_isNameChar_symbol (hc : c ∈ (Token.op op).text) :
    ¬IsNameChar c ∧ ¬Text.isBlank c := by
  have hall : (Token.op op).text.all fun c => !isNameChar c && !Text.isBlank c := by
    cases op <;> decide
  have hc := List.all_eq_true.mp hall c hc
  rwa [Bool.and_eq_true, Bool.not_eq_true', Bool.not_eq_true', isNameChar_eq_false_iff,
    ← Bool.not_eq_true] at hc

/-! ### Stacks -/

/-- No left operand waits directly behind a negation, which would have closed before it. -/
def Nested : List Frame → Prop
  | [] => True
  | .left _ _ :: stack => Unnegated stack ∧ Nested stack
  | _ :: stack => Nested stack

/-- The negations in front of an operand are closed by it. -/
theorem Nested.exists_negated (h : Nested stack) (f : Formula) : ∃ outer g,
    negated stack f = .after outer g ∧ Unnegated outer ∧ Nested outer ∧
      outer.length ≤ stack.length := by
  induction stack generalizing f with
  | nil => exact ⟨[], f, rfl, trivial, trivial, Nat.le_refl _⟩
  | cons frame stack ih =>
    cases frame with
    | neg =>
      obtain ⟨outer, g, heq, hn, ho, hlen⟩ := ih h (.not f)
      exact ⟨outer, g, heq, hn, ho, Nat.le_succ_of_le hlen⟩
    | left op lhs => exact ⟨_, f, rfl, trivial, h, Nat.le_refl _⟩
    | bracket => exact ⟨_, f, rfl, trivial, h, Nat.le_refl _⟩

theorem Nested.pushLeft (h : Nested stack) (hn : Unnegated stack) (op : Connective) (f : Formula) :
    Nested (pushLeft op stack f) := by
  induction stack generalizing f with
  | nil => exact ⟨trivial, trivial⟩
  | cons frame stack ih =>
    cases frame with
    | neg => exact hn.elim
    | left op' lhs =>
      unfold Formula.pushLeft
      split
      · exact ih h.2 h.1 _
      · exact ⟨trivial, h⟩
    | bracket => exact ⟨trivial, h⟩

/-- Completing what is pending comes to the innermost open bracket, or to the bottom when
none is open. -/
theorem Nested.complete_cases (h : Nested stack) (hn : Unnegated stack) (f : Formula) :
    (.bracket ∉ stack ∧ ∃ g, complete stack f = ([], g)) ∨
      (.bracket ∈ stack ∧ ∃ outer g, complete stack f = (.bracket :: outer, g) ∧
        Nested outer ∧ outer.length < stack.length) := by
  induction stack generalizing f with
  | nil => exact Or.inl ⟨List.not_mem_nil, f, rfl⟩
  | cons frame stack ih =>
    cases frame with
    | neg => exact hn.elim
    | left op lhs =>
      rcases ih h.2 h.1 (.binary op lhs f) with ⟨hb, g, hc⟩ | ⟨hb, outer, g, hc, ho, hlen⟩
      · exact Or.inl ⟨List.not_mem_cons_of_ne_of_not_mem (by simp) hb, g, hc⟩
      · exact Or.inr ⟨List.mem_cons_of_mem _ hb, outer, g, hc, ho, Nat.lt_succ_of_lt hlen⟩
    | bracket => exact Or.inr ⟨List.mem_cons_self, stack, f, rfl, h, Nat.lt_succ_self _⟩

/-! ### States -/

namespace State

/-- The stack is nested, no negation waits for a formula that is complete, and within a
symbol the rest of it is to come. -/
def Regular : State → Prop
  | operand stack => Nested stack
  | name stack _ => Nested stack
  | after stack _ => Unnegated stack ∧ Nested stack
  | symbol stack _ op next rest => (Unnegated stack ∧ Nested stack) ∧
      next :: rest <:+ (Token.op op).text

theorem regular_negated (h : Nested stack) (f : Formula) : (negated stack f).Regular := by
  obtain ⟨outer, g, heq, hn, ho, -⟩ := h.exists_negated f
  rw [heq]
  exact ⟨hn, ho⟩

theorem Regular.settle (h : s.Regular) : s.settle.Regular := by
  cases s with
  | name stack revName => exact regular_negated h _
  | _ => exact h

theorem Regular.stepSettled (h : s.Regular) (hs : s.stepSettled c = some s') : s'.Regular := by
  cases s with
  | operand stack =>
    unfold State.stepSettled at hs
    dsimp only at hs
    by_cases hb : Text.isBlank c
    · rw [if_pos hb] at hs
      cases hs
      exact h
    · rw [if_neg hb] at hs
      by_cases hc : isNameChar c
      · rw [if_pos hc] at hs
        cases hs
        exact h
      · rw [if_neg hc] at hs
        split at hs
        · cases hs
          exact h
        · cases hs
          exact h
        · cases hs
          exact regular_negated h _
        · cases hs
          exact regular_negated h _
        · cases hs
  | after stack f =>
    obtain ⟨hn, hs'⟩ := h
    unfold State.stepSettled at hs
    dsimp only at hs
    by_cases hb : Text.isBlank c
    · rw [if_pos hb] at hs
      cases hs
      exact ⟨hn, hs'⟩
    · rw [if_neg hb] at hs
      split at hs
      · cases hs
        exact ⟨⟨hn, hs'⟩, ['&'], rfl⟩
      · cases hs
        exact ⟨⟨hn, hs'⟩, ['|'], rfl⟩
      · cases hs
        exact ⟨⟨hn, hs'⟩, ['='], rfl⟩
      · cases hs
        exact ⟨⟨hn, hs'⟩, ['<'], rfl⟩
      · rcases hs'.complete_cases hn f with ⟨-, g, hc⟩ | ⟨-, outer, g, hc, ho, -⟩
        · rw [hc] at hs
          cases hs
        · rw [hc] at hs
          cases hs
          exact regular_negated ho g
      · cases hs
  | symbol stack f op next rest =>
    obtain ⟨⟨hn, hs'⟩, hrest⟩ := h
    unfold State.stepSettled at hs
    dsimp only at hs
    by_cases hc : c = next
    · rw [if_pos hc] at hs
      cases rest with
      | nil =>
        cases hs
        exact hs'.pushLeft hn op f
      | cons next' rest' =>
        cases hs
        exact ⟨⟨hn, hs'⟩, (List.suffix_cons next _).trans hrest⟩
    · rw [if_neg hc] at hs
      cases hs
  | name _ _ => cases hs

/-- **A character more keeps the state regular.** -/
theorem Regular.step (h : s.Regular) (hs : s.step c = some s') : s'.Regular := by
  cases s with
  | name stack revName =>
    by_cases hc : isNameChar c
    · cases (if_pos hc).symm.trans hs
      exact h
    · exact h.settle.stepSettled ((if_neg hc).symm.trans hs)
  | _ => exact h.stepSettled hs

theorem Regular.foldlM_step (h : s.Regular) (hr : cs.foldlM State.step s = some s') :
    s'.Regular := by
  induction cs generalizing s with
  | nil =>
    cases hr
    exact h
  | cons c cs ih =>
    rw [List.foldlM_cons] at hr
    obtain ⟨s₁, hs, hr⟩ := Option.bind_eq_some_iff.mp hr
    exact ih (h.step hs) hr

/-! ### Every state leads on to a formula -/

/-- What a closing bracket makes of the operand in front of it, once that is complete. -/
def closed : List Frame × Formula → Option State
  | (.bracket :: outer, g) => some (negated outer g)
  | _ => none

theorem step_closing (stack : List Frame) (f : Formula) :
    (after stack f).step ')' = closed (complete stack f) := rfl

/-- Behind a formula the open brackets can be closed. -/
theorem exists_reads_after {stack : List Frame} (h : Nested stack) (hn : Unnegated stack)
    (f : Formula) :
    ∃ rest g, '\n' ∉ rest ∧ (after stack f).reads rest = some g := by
  rcases h.complete_cases hn f with ⟨-, g, hc⟩ | ⟨-, outer, g, hc, ho, hlen⟩
  · refine ⟨[], g, List.not_mem_nil, ?_⟩
    show finish? (after stack f) = some g
    simp only [finish?, State.settle, hc]
  · obtain ⟨outer', g', hneg, hn', ho', hlen'⟩ := ho.exists_negated g
    have hlt : outer'.length < stack.length := Nat.lt_of_le_of_lt hlen' hlen
    obtain ⟨rest, k, hrest, hr⟩ := exists_reads_after ho' hn' g'
    have hclose : (after stack f).step ')' = some (after outer' g') := by
      rw [step_closing, hc, ← hneg]
      rfl
    refine ⟨')' :: rest, k, by simp [hrest], ?_⟩
    rw [reads_cons, hclose, Option.bind_some, hr]
termination_by stack.length

/-- In front of an operand a constant can be put in. -/
theorem exists_reads_operand (h : Nested stack) :
    ∃ rest g, '\n' ∉ rest ∧ (operand stack).reads rest = some g := by
  obtain ⟨outer, f, hneg, hn, ho, -⟩ := h.exists_negated .verum
  obtain ⟨rest, g, hrest, hr⟩ := exists_reads_after ho hn f
  refine ⟨'+' :: rest, g, by simp [hrest], ?_⟩
  have hstep : (operand stack).step '+' = some (after outer f) := by
    rw [← hneg]
    rfl
  rw [reads_cons, hstep, Option.bind_some, hr]

/-- Within a symbol the rest of it is read. -/
theorem reads_symbol_append (stack : List Frame) (f : Formula) (op : Connective) (next : Char)
    (rest cs : List Char) : (symbol stack f op next rest).reads (next :: rest ++ cs) =
      (operand (pushLeft op stack f)).reads cs := by
  induction rest generalizing next with
  | nil =>
    have hstep : (symbol stack f op next []).step next = some (operand (pushLeft op stack f)) :=
      if_pos rfl
    rw [List.singleton_append, reads_cons, hstep, Option.bind_some]
  | cons next' rest ih =>
    have hstep : (symbol stack f op next (next' :: rest)).step next =
        some (symbol stack f op next' rest) := if_pos rfl
    rw [List.cons_append, reads_cons, hstep, Option.bind_some, ih]

/-- **From every regular state** some line goes on to the end of a formula. -/
theorem Regular.exists_reads (h : s.Regular) :
    ∃ rest f, '\n' ∉ rest ∧ s.reads rest = some f := by
  cases s with
  | operand stack => exact exists_reads_operand h
  | after stack f => exact exists_reads_after h.2 h.1 f
  | name stack revName =>
    obtain ⟨outer, f, hneg, hn, ho, -⟩ := Nested.exists_negated h (atom (String.ofList revName.reverse))
    obtain ⟨rest, g, hrest, hr⟩ := exists_reads_after ho hn f
    -- the blank ends the atom, whatever comes next
    refine ⟨' ' :: rest, g, by simp [hrest], ?_⟩
    have hsettle : State.settle (name stack revName) = after outer f := hneg
    rw [reads_settle fun c hc => isNameChar_eq_false_iff.mpr (head_cons (by decide) rest c hc),
      hsettle, reads_blank (s := after outer f) trivial (by decide), hr]
  | symbol stack f op next rest =>
    obtain ⟨⟨hn, hs⟩, hrest⟩ := h
    obtain ⟨rest', g, hrest', hr⟩ := exists_reads_operand (hs.pushLeft hn op f)
    refine ⟨next :: rest ++ rest', g, ?_, by rw [reads_symbol_append, hr]⟩
    rw [List.mem_append, not_or]
    refine ⟨fun hm => ?_, hrest'⟩
    have hblank := (Token.not_isNameChar_symbol (hrest.subset hm)).2
    exact hblank (by decide)

/-! ### What a state expects -/

theorem some_mem_expected_operand : some c ∈ (operand stack).expected ↔
    ¬IsNameChar c ∧ ¬Text.isBlank c ∧ ((operand stack).step c).isSome := by
  have hmem : some c ∈ (operand stack).expected ↔ c ∈ ['!', '(', '+', '-'] := by
    simp [expected, State.settle]
  rw [hmem]
  constructor
  · intro hc
    simp only [List.mem_cons, List.not_mem_nil, or_false] at hc
    rcases hc with rfl | rfl | rfl | rfl <;> exact ⟨by decide, by decide, rfl⟩
  · rintro ⟨hn, hb, hs⟩
    rw [← isNameChar_iff] at hn
    rw [step_of_settled (s := operand stack) trivial] at hs
    unfold State.stepSettled at hs
    dsimp only at hs
    rw [if_neg hb, if_neg hn] at hs
    split at hs
    · decide
    · decide
    · decide
    · decide
    · cases hs

/-- Behind a formula a bracket can be closed when one is open. -/
theorem isSome_step_closing (h : Nested stack) (hu : Unnegated stack) (f : Formula) :
    ((after stack f).step ')').isSome ↔ .bracket ∈ stack := by
  rw [step_closing]
  rcases h.complete_cases hu f with ⟨hb, g, hc⟩ | ⟨hb, outer, g, hc, -⟩
  · rw [hc]
    exact iff_of_false Bool.false_ne_true hb
  · rw [hc]
    exact iff_of_true rfl hb

theorem some_mem_expected_after (h : Nested stack) (hu : Unnegated stack) (f : Formula) :
    some c ∈ (after stack f).expected ↔
      ¬IsNameChar c ∧ ¬Text.isBlank c ∧ ((after stack f).step c).isSome := by
  have hmem : some c ∈ (after stack f).expected ↔
      c ∈ ['&', '|', '=', '<'] ∨ c = ')' ∧ .bracket ∈ stack := by
    unfold expected
    by_cases hb : .bracket ∈ stack <;> simp [State.settle, hb] <;> tauto
  rw [hmem]
  constructor
  · rintro (hc | ⟨rfl, hb⟩)
    · simp only [List.mem_cons, List.not_mem_nil, or_false] at hc
      rcases hc with rfl | rfl | rfl | rfl <;> exact ⟨by decide, by decide, rfl⟩
    · exact ⟨by decide, by decide, (isSome_step_closing h hu f).mpr hb⟩
  · rintro ⟨-, hb, hs⟩
    by_cases hc : c = ')'
    · rw [hc] at hs
      exact Or.inr ⟨hc, (isSome_step_closing h hu f).mp hs⟩
    · refine Or.inl ?_
      rw [step_of_settled (s := after stack f) trivial] at hs
      unfold State.stepSettled at hs
      dsimp only at hs
      rw [if_neg hb] at hs
      split at hs
      · decide
      · decide
      · decide
      · decide
      · exact absurd rfl hc
      · cases hs

/-- **What a regular state expects** are the characters on which it has a step, blanks and
those of atoms apart. -/
theorem Regular.some_mem_expected_iff (h : s.Regular) :
    some c ∈ s.expected ↔ ¬IsNameChar c ∧ ¬Text.isBlank c ∧ (s.step c).isSome := by
  cases s with
  | operand stack => exact some_mem_expected_operand
  | after stack f => exact some_mem_expected_after h.2 h.1 f
  | name stack revName =>
    obtain ⟨outer, f, hneg, hu, ho, -⟩ :=
      Nested.exists_negated h (atom (String.ofList revName.reverse))
    have hexpected : (name stack revName).expected = (after outer f).expected := by
      simp only [expected, State.settle, hneg]
    rw [hexpected, some_mem_expected_after ho hu]
    refine and_congr_right fun hn => ?_
    have hstep : (name stack revName).step c = (after outer f).step c := by
      rw [← isNameChar_iff] at hn
      rw [step_of_settled (s := after outer f) trivial, ← hneg]
      exact if_neg hn
    rw [hstep]
  | symbol stack f op next rest =>
    have hmem : some c ∈ (symbol stack f op next rest).expected ↔ c = next := by
      simp [expected, State.settle]
    have hstep : ((symbol stack f op next rest).step c).isSome ↔ c = next := by
      by_cases hc : c = next
      · refine iff_of_true ?_ hc
        rw [hc]
        cases rest <;> exact congrArg Option.isSome (if_pos rfl)
      · refine iff_of_false ?_ hc
        rw [show (symbol stack f op next rest).step c = none from if_neg hc]
        exact Bool.false_ne_true
    rw [hmem, hstep]
    refine ⟨fun hc => ?_, fun hc => hc.2.2⟩
    have hsymbol := Token.not_isNameChar_symbol (h.2.subset List.mem_cons_self)
    rw [← hc] at hsymbol
    exact ⟨hsymbol.1, hsymbol.2, hc⟩

/-- **The end of the line is expected** just where the text may end. -/
theorem Regular.none_mem_expected_iff (h : s.Regular) :
    none ∈ s.expected ↔ s.finish?.isSome := by
  have hafter : ∀ {stack f}, Nested stack → Unnegated stack →
      (none ∈ (after stack f).expected ↔ (after stack f).finish?.isSome) := by
    intro stack f hs hu
    rcases hs.complete_cases hu f with ⟨hb, g, hc⟩ | ⟨hb, outer, g, hc, -⟩
    · simp [expected, finish?, State.settle, hb, hc]
    · simp [expected, finish?, State.settle, hb, hc]
  cases s with
  | operand stack => exact iff_of_false (by simp [expected, State.settle]) Bool.false_ne_true
  | after stack f => exact hafter h.2 h.1
  | name stack revName =>
    obtain ⟨outer, f, hneg, hu, ho, -⟩ :=
      Nested.exists_negated h (atom (String.ofList revName.reverse))
    have hiff := @hafter outer f ho hu
    simp only [expected, finish?, State.settle, hneg] at hiff ⊢
    exact hiff
  | symbol stack f op next rest =>
    exact iff_of_false (by simp [expected, State.settle]) Bool.false_ne_true

/-- Something is expected, and nothing twice. -/
theorem Regular.expected_nodup (h : s.Regular) : s.expected ≠ [] ∧ s.expected.Nodup := by
  have hafter : ∀ stack f, (after stack f).expected ≠ [] ∧ (after stack f).expected.Nodup := by
    intro stack f
    by_cases hb : .bracket ∈ stack <;> simp [expected, State.settle, hb]
  cases s with
  | operand stack => simp [expected, State.settle]
  | after stack f => exact hafter stack f
  | name stack revName =>
    obtain ⟨outer, f, hneg, -⟩ := Nested.exists_negated h (atom (String.ofList revName.reverse))
    have hof := hafter outer f
    simp only [expected, State.settle, hneg] at hof ⊢
    exact hof
  | symbol stack f op next rest => simp [expected, State.settle]

end State

/-! ### Texts -/

/-- **The machine gets through the starts of lines** that hold a formula. -/
theorem startsLine_iff (hn : '\n' ∉ cs) :
    StartsLine cs ↔ (cs.foldlM State.step (.operand [])).isSome := by
  constructor
  · rintro ⟨rest, f, -, hw⟩
    have hread : State.reads (.operand []) (cs ++ rest) = some f :=
      State.readFrom_eq_ok_iff.mp (read_eq_ok_iff.mpr hw)
    unfold State.reads at hread
    obtain ⟨s, hs, -⟩ := Option.bind_eq_some_iff.mp hread
    rw [List.foldlM_append] at hs
    obtain ⟨s', hs', -⟩ := Option.bind_eq_some_iff.mp hs
    rw [hs']
    rfl
  · intro hs
    obtain ⟨s, hs⟩ := Option.isSome_iff_exists.mp hs
    have hstart : State.Regular (.operand []) := trivial
    obtain ⟨rest, f, hrest, hr⟩ := (hstart.foldlM_step hs).exists_reads
    refine ⟨rest, f, by simp [hn, hrest], ?_⟩
    rw [← read_eq_ok_iff, read, State.readFrom_eq_ok_iff, State.reads, List.foldlM_append, hs]
    exact hr

theorem StartsLine.of_append {ds : List Char} (h : StartsLine (cs ++ ds)) : StartsLine cs := by
  obtain ⟨rest, f, hn, hw⟩ := h
  rw [List.append_assoc] at hn hw
  exact ⟨ds ++ rest, f, hn, hw⟩

section

variable (hs : cs.foldlM State.step (.operand []) = some s)

include hs

/-- A character more makes the start of a line just when the machine has a step on it. -/
theorem startsLine_append_singleton (hn : '\n' ∉ cs ++ [c]) :
    StartsLine (cs ++ [c]) ↔ (s.step c).isSome := by
  rw [startsLine_iff hn, List.foldlM_append, hs, Option.bind_eq_bind, Option.bind_some,
    List.foldlM_cons]
  cases s.step c <;> rfl

theorem exists_written_iff : (∃ f, Written cs f) ↔ s.finish?.isSome := by
  rw [Option.isSome_iff_exists]
  refine exists_congr fun f => ?_
  rw [← read_eq_ok_iff, read, State.readFrom_eq_ok_iff, State.reads, hs, Option.bind_some]

end

/-- A fault lies where the machine has no step, or at the end. -/
theorem readFrom_eq_error {p : Nat} {e : Fault} (h : readFrom s p cs = .error e) : ∃ k s',
    k ≤ cs.length ∧ e.position = p + k ∧ (cs.take k).foldlM State.step s = some s' ∧
      e.found = cs[k]? ∧ e.expected = s'.expected ∧ ∀ c ∈ cs[k]?, s'.step c = none := by
  induction cs generalizing s p with
  | nil =>
    unfold readFrom at h
    split at h
    · cases h
    · cases h
      exact ⟨0, s, Nat.le_refl _, rfl, rfl, rfl, rfl, by simp⟩
  | cons c cs ih =>
    unfold readFrom at h
    split at h
    · rename_i s₁ hs
      obtain ⟨k, s', hk, hp, hr, hfound, hexpected, hnone⟩ := ih h
      refine ⟨k + 1, s', Nat.succ_le_succ hk, by omega, ?_, hfound, hexpected, hnone⟩
      rw [List.take_succ_cons, List.foldlM_cons, hs]
      exact hr
    · rename_i hs
      cases h
      refine ⟨0, s, Nat.zero_le _, rfl, rfl, rfl, rfl, fun d hd => ?_⟩
      rw [← Option.some_inj.mp hd]
      exact hs

end Formula

/-- Only the end of the line is called that. -/
theorem SyntaxError.itemText_eq_iff {i : Option Char} : itemText i = "end of line" ↔ i = none := by
  cases i with
  | none => exact iff_of_true rfl rfl
  | some c =>
    refine iff_of_false (fun h => ?_) (Option.some_ne_none c)
    have hlist := congrArg String.toList h
    simp [itemText, Text.quotedChar] at hlist

theorem SyntaxError.message_eq {e : SyntaxError} (hline : e.line = 1) (h : e.expected ≠ []) :
    e.message = "syntax error on line 1: unexpected " ++ itemText e.found ++
      (", expected one of " ++ ", ".intercalate (e.expected.map itemText)) := by
  have hsome : ¬e.expected.isEmpty = true := fun hnil => h (List.isEmpty_iff.mp hnil)
  have hone : "syntax error on line " ++ toString 1 ++ ": " ++ "unexpected " =
      "syntax error on line 1: unexpected " := by decide
  unfold message reason
  have hassoc : ∀ a b c d : String, a ++ (b ++ c ++ d) = a ++ b ++ c ++ d := fun a b c d => by
    rw [← String.append_assoc, ← String.append_assoc]
  rw [hline, if_neg hsome, hassoc, hone]

namespace KnowledgeBase

open Formula

variable {cs : List Char}

/-! ### One line, with the line feed that may end it -/

theorem segments_of_line (hn : '\n' ∉ cs.dropLast) (hne : cs ≠ []) : Text.segments cs = [cs] := by
  rcases List.eq_nil_or_concat cs with rfl | ⟨line, c, rfl⟩
  · exact absurd rfl hne
  · rw [List.concat_eq_append] at hn hne ⊢
    rw [List.dropLast_concat] at hn
    by_cases hc : c = '\n'
    · rw [hc]
      exact Text.segments_append_newline hn []
    · refine segments_of_not_mem ?_ hne
      rw [List.mem_append, List.mem_singleton, not_or]
      exact ⟨hn, Ne.symm hc⟩

theorem mem_of_mem_lineBody {c : Char} (h : c ∈ lineBody cs) : c ∈ cs := by
  obtain ⟨bs, hcs, -⟩ := exists_lineBody cs
  rw [hcs]
  exact List.mem_append_left _ h

theorem not_mem_lineBody (hn : '\n' ∉ cs.dropLast) : '\n' ∉ lineBody cs := by
  rcases List.eq_nil_or_concat cs with rfl | ⟨line, c, rfl⟩
  · exact fun h => hn (mem_of_mem_lineBody h)
  · rw [List.concat_eq_append, List.dropLast_concat] at hn
    rw [List.concat_eq_append]
    by_cases hc : c = '\n'
    · have hbody : lineBody (line ++ [c]) = lineBody line := by
        simp [lineBody, Text.trimEnd, hc]
      rw [hbody]
      exact fun h => hn (mem_of_mem_lineBody h)
    · intro h
      rcases List.mem_append.mp (mem_of_mem_lineBody h) with h | h
      · exact hn h
      · exact hc (List.mem_singleton.mp h).symm

/-- A line that is neither blank nor a formula is refused with the fault of its body. -/
theorem read_eq_error {text : String} (hline : '\n' ∉ text.toList.dropLast)
    (hblank : ∃ c ∈ text.toList, ¬Text.isBlank c) (hbad : ∀ f, ¬Written text.toList f) :
    ∃ e, Formula.read (lineBody text.toList) = .error e ∧
      KnowledgeBase.read text = .error (.ofFault 1 0 e) := by
  cases hr : Formula.read (lineBody text.toList) with
  | ok f => exact absurd (read_lineBody_eq_ok_iff.mp hr) (hbad f)
  | error e =>
    refine ⟨e, rfl, ?_⟩
    have hbody := not_all_isBlank_lineBody hblank
    obtain ⟨c, hc, -⟩ := hblank
    rw [KnowledgeBase.read, segments_of_line hline (List.ne_nil_of_mem hc), readLines, readLine,
      if_neg hbody, hr]
    rfl

/-- **A line that is neither blank nor a formula is refused where it ceases to be the start
of one.** The error lies at the first character behind which the line is the start of none,
or at the end of the line when the whole line is the start of one, and says what is found
there. What is expected are the characters that could stand there, blanks and those of
atoms apart, and the end of the line just when a formula is complete in front of it. -/
theorem read_line_refused {text : String} (hline : '\n' ∉ text.toList.dropLast)
    (hblank : ∃ c ∈ text.toList, ¬Text.isBlank c) (hbad : ∀ f, ¬Written text.toList f) :
    let body := lineBody text.toList
    ∃ e, KnowledgeBase.read text = .error e ∧ e.line = 1 ∧ e.start ≤ body.length ∧
      StartsLine (body.take e.start) ∧
      (e.start < body.length → ¬StartsLine (body.take (e.start + 1))) ∧
      e.found = body[e.start]? ∧
      (SyntaxError.itemText e.found = "end of line" ↔ StartsLine body) ∧
      (∀ c, some c ∈ e.expected ↔
        ¬IsNameChar c ∧ ¬Text.isBlank c ∧ StartsLine (body.take e.start ++ [c])) ∧
      (none ∈ e.expected ↔ ∃ f, Written (body.take e.start) f) ∧
      e.expected.Nodup ∧
      e.message = "syntax error on line 1: unexpected " ++ SyntaxError.itemText e.found ++
        (", expected one of " ++ ", ".intercalate (e.expected.map SyntaxError.itemText)) := by
  intro body
  obtain ⟨e, hr, hread⟩ := read_eq_error hline hblank hbad
  obtain ⟨k, s, hk, hp, hs, hfound, hexpected, hnone⟩ := readFrom_eq_error hr
  rw [Nat.zero_add] at hp
  have hstart : State.Regular (.operand []) := trivial
  have hregular := hstart.foldlM_step hs
  have hn : '\n' ∉ body := not_mem_lineBody hline
  have htake : '\n' ∉ body.take k := fun h => hn (List.mem_of_mem_take h)
  have hstarts : StartsLine (body.take k) := by
    rw [startsLine_iff htake, hs]
    rfl
  have hstops : k < body.length → ¬StartsLine (body.take (k + 1)) := by
    intro hlt
    have hnone := hnone _ (List.getElem?_eq_getElem hlt)
    have hmem : '\n' ∉ body.take (k + 1) := fun h => hn (List.mem_of_mem_take h)
    rw [List.take_succ_eq_append_getElem hlt] at hmem ⊢
    rw [startsLine_append_singleton hs hmem, hnone]
    exact Bool.false_ne_true
  have hend : SyntaxError.itemText e.found = "end of line" ↔ StartsLine body := by
    rw [SyntaxError.itemText_eq_iff, hfound]
    rcases Nat.lt_or_eq_of_le hk with hlt | heq
    · rw [List.getElem?_eq_getElem hlt]
      refine iff_of_false (Option.some_ne_none _) fun hl => hstops hlt ?_
      rw [← List.take_append_drop (k + 1) body] at hl
      exact hl.of_append
    · rw [heq, List.take_length] at hstarts
      exact iff_of_true (List.getElem?_eq_none (Nat.le_of_eq heq.symm)) hstarts
  have hitems : ∀ c, some c ∈ e.expected ↔
      ¬IsNameChar c ∧ ¬Text.isBlank c ∧ StartsLine (body.take k ++ [c]) := by
    intro c
    rw [hexpected, hregular.some_mem_expected_iff]
    refine and_congr_right fun _ => and_congr_right fun hb => ?_
    have hc : c ≠ '\n' := fun hc => hb (hc ▸ by decide)
    have hmem : '\n' ∉ body.take k ++ [c] := by
      rw [List.mem_append, List.mem_singleton, not_or]
      exact ⟨htake, Ne.symm hc⟩
    exact (startsLine_append_singleton hs hmem).symm
  have hcomplete : none ∈ e.expected ↔ ∃ f, Written (body.take k) f := by
    rw [hexpected, hregular.none_mem_expected_iff, exists_written_iff hs]
  obtain ⟨hne, hnodup⟩ := hregular.expected_nodup
  rw [← hexpected] at hne hnodup
  rw [← hp] at hk hstarts hstops hfound hitems hcomplete
  refine ⟨_, hread, rfl, hk, hstarts, hstops, hfound, hend, hitems, hcomplete, hnodup, ?_⟩
  exact SyntaxError.message_eq rfl hne

/-- An operator is missing within a bracket, on a line that a carriage return ends. -/
theorem read_line_refused_bracket :
    let text := "(!A && B C\r\n"
    '\n' ∉ text.toList.dropLast ∧ (∃ c ∈ text.toList, ¬Text.isBlank c) ∧
      (∀ f, ¬Written text.toList f) ∧
      ∃ e, KnowledgeBase.read text = .error e ∧ e.start = 9 ∧ e.found = some 'C' ∧
        StartsLine "(!A && B ".toList ∧ ¬StartsLine "(!A && B C".toList ∧
        StartsLine "(!A && B )".toList ∧ ¬∃ f, Written "(!A && B ".toList f := by
  intro text
  let fault : Fault := ⟨9, some 'C', [some '&', some ')', some '<', some '=', some '|']⟩
  have hfault : Formula.read (lineBody text.toList) = .error fault := by decide
  have hread : KnowledgeBase.read text = .error (.ofFault 1 0 fault) := by decide
  have hline : '\n' ∉ text.toList.dropLast := by decide
  have hblank : ∃ c ∈ text.toList, ¬Text.isBlank c := ⟨'A', by decide⟩
  have hbad : ∀ f, ¬Written text.toList f := fun f hf => by
    cases hfault.symm.trans (read_lineBody_eq_ok_iff.mpr hf)
  obtain ⟨e, he, -, -, hstarts, hstops, hfound, -, hitems, hcomplete, -⟩ :=
    read_line_refused hline hblank hbad
  obtain rfl : SyntaxError.ofFault 1 0 fault = e := Except.error.inj (hread.symm.trans he)
  have hfront : (lineBody text.toList).take 9 = "(!A && B ".toList := by decide
  have hthrough : (lineBody text.toList).take 10 = "(!A && B C".toList := by decide
  have hclosed : (lineBody text.toList).take 9 ++ [')'] = "(!A && B )".toList := by decide
  rw [← hfront, ← hthrough, ← hclosed]
  exact ⟨hline, hblank, hbad, _, hread, rfl, rfl, hstarts, hstops (by decide),
    ((hitems ')').mp (by decide)).2.2, fun hw => absurd (hcomplete.mpr hw) (by decide)⟩

end KnowledgeBase
end LeastGlut
