/-
# The lines of a program

A string term is written with a backslash in front of each quote and backslash, and
any text is read back from it (`Term.readLine_quoteTerm`). A line feed is written as
it is, so the term, and with it the fact of an atom, stays on one line just when the
name of the atom does (`Fact.oneLine_text_iff`). Where all names do and there is a
formula, the program has one line for each fact, a blank one, and the rules; a name
with a line feed breaks the line of its fact, and without any fact there is one more
blank line (`Program.lines_text_iff`).
-/
import LeastGlut.Proofs.Descriptions
import LeastGlut.Proofs.ProgramTexts
import LeastGlut.Proofs.Terms

namespace LeastGlut

open Text

theorem mem_quoteChar_iff {c : Char} : '\n' ∈ quoteChar c ↔ c = '\n' := by
  unfold quoteChar
  by_cases h : (c = '"' || c = '\\') = true
  · have hc : c ≠ '\n' := by
      rintro rfl
      exact absurd h (by decide)
    rw [if_pos h]
    simp [hc, hc.symm]
  · rw [if_neg h, List.mem_singleton, eq_comm]

/-- A string term stays on one line just when its text does. -/
theorem oneLine_quoteTerm_iff {s : String} : OneLine (quoteTerm s) ↔ OneLine s := by
  unfold OneLine quoteTerm
  rw [String.toList_ofList]
  simp [mem_quoteChar_iff]

theorem Term.readLine_quoteTerm (s : String) : readLine (quoteTerm s).toList = .ok [.text s] := by
  have hproper : ∀ t ∈ [text s], t.Proper := List.forall_mem_singleton.mpr (.text s)
  have hline : displayLine [text s] = quoteTerm s := by
    rw [displayLine, List.map_singleton, String.intercalate_singleton, display]
  rw [← hline]
  exact readLine_displayLine hproper

theorem Node.oneLine_text (n : Node) : OneLine n.text := by
  have hformula := oneLine_toString_nat n.formula
  have hindex := oneLine_toString_nat n.index
  unfold text
  repeat rw [oneLine_append]
  exact ⟨⟨⟨⟨by decide, hformula⟩, by decide⟩, hindex⟩, by decide⟩

namespace Fact

theorem oneLine_text_iff_arguments {fact : Fact} :
    OneLine fact.text ↔ OneLine (", ".intercalate fact.arguments) := by
  have hpredicate := fact.oneLine_predicate
  have hopen : OneLine "(" := by decide
  have hclose : OneLine ")." := by decide
  unfold text
  rw [oneLine_append, oneLine_append, oneLine_append]
  tauto

/-- **The name of an atom alone** can break the line of a fact. -/
theorem oneLine_text_iff {fact : Fact} :
    OneLine fact.text ↔ ∀ n a, fact = .isAtom n a → OneLine a := by
  rw [oneLine_text_iff_arguments]
  constructor
  · rintro h n a rfl
    rw [arguments, String.intercalate_cons_cons, String.intercalate_singleton, oneLine_append] at h
    exact oneLine_quoteTerm_iff.mp h.2
  · intro h
    apply oneLine_intercalate (by decide)
    cases fact
    case isAtom n a =>
      have hterm : OneLine (quoteTerm a) := oneLine_quoteTerm_iff.mpr (h n a rfl)
      exact List.forall_mem_cons.mpr ⟨n.oneLine_text, List.forall_mem_singleton.mpr hterm⟩
    all_goals
      simp only [arguments, List.mem_cons, List.not_mem_nil, or_false, forall_eq_or_imp, forall_eq,
        Node.oneLine_text, oneLine_toString_nat, and_self]

end Fact

namespace Program

variable {p : Program} {kb : KnowledgeBase}

/-- The text of the facts is followed by a blank line and the rules. -/
theorem splitOn_text (p : Program) : p.text.toList.splitOn '\n' =
    (['\n'].intercalate (p.facts.map fun fact => fact.text.toList)).splitOn '\n' ++
      [] :: genericRules.toList.splitOn '\n' := by
  have htext : p.text.toList = ['\n'].intercalate (p.facts.map fun fact => fact.text.toList) ++
      '\n' :: ([] ++ '\n' :: genericRules.toList) := by
    have hfeed : "\n".toList = ['\n'] := rfl
    have hfeeds : "\n\n".toList = ['\n', '\n'] := rfl
    unfold text
    rw [String.toList_append, String.toList_append, String.toList_intercalate, List.map_map,
      List.append_assoc, hfeed, hfeeds]
    simp only [List.nil_append, List.cons_append, Function.comp_def]
  rw [htext, List.splitOn_append_cons_self, List.splitOn_append_cons_self, List.splitOn_nil,
    List.singleton_append]

/-- A knowledge base has facts when it has a formula. -/
theorem facts_eq_nil_iff : (ofKnowledgeBase kb).facts = [] ↔ kb.formulas = [] := by
  unfold ofKnowledgeBase
  cases kb.formulas with
  | nil => exact iff_of_true rfl rfl
  | cons f fs => exact iff_of_false (List.cons_ne_nil _ _) (List.cons_ne_nil _ _)

theorem oneLine_facts_iff : (∀ fact ∈ (ofKnowledgeBase kb).facts, OneLine fact.text) ↔
    ∀ a ∈ kb.atoms, OneLine a := by
  constructor
  · intro h a ha
    obtain ⟨n, hn⟩ := KnowledgeBase.mem_atoms_iff.mp ha
    exact Fact.oneLine_text_iff.mp (h _ (KnowledgeBase.isAtom_mem.mpr hn)) n a rfl
  · intro h fact hfact
    rw [Fact.oneLine_text_iff]
    rintro n a rfl
    exact h a (KnowledgeBase.mem_atoms_iff.mpr ⟨n, KnowledgeBase.isAtom_mem.mp hfact⟩)

/-- **A program is one line for each fact, a blank line, and the rules,** just when there is a
formula and no name of an atom holds a line feed. Any name is read back from its string term,
which holds a line feed just when the name does. -/
theorem lines_text_iff (kb : KnowledgeBase) :
    ((ofKnowledgeBase kb).text.toList.splitOn '\n' =
        (ofKnowledgeBase kb).facts.map (fun fact => fact.text.toList) ++
          [] :: genericRules.toList.splitOn '\n' ↔
      kb.formulas ≠ [] ∧ ∀ a ∈ kb.atoms, '\n' ∉ a.toList) ∧
    ∀ a, ('\n' ∈ (quoteTerm a).toList ↔ '\n' ∈ a.toList) ∧
      Term.readLine (quoteTerm a).toList = .ok [.text a] := by
  refine ⟨?_, fun a => ⟨not_iff_not.mp oneLine_quoteTerm_iff, Term.readLine_quoteTerm a⟩⟩
  have hlines : (∀ line ∈ (ofKnowledgeBase kb).facts.map fun fact => fact.text.toList, '\n' ∉ line) ↔
      ∀ a ∈ kb.atoms, '\n' ∉ a.toList := by
    rw [List.forall_mem_map]
    exact oneLine_facts_iff
  rw [splitOn_text, List.append_cancel_right_eq, splitOn_intercalate_iff, hlines, Ne,
    List.map_eq_nil_iff, facts_eq_nil_iff]

/-- The fact of an atom whose name is two lines takes two lines itself, neither of them a
fact. -/
theorem lines_text_lineFeed :
    let p := ofKnowledgeBase ⟨[.atom "a\nb"]⟩
    let rules := genericRules.toList.splitOn '\n'
    p.text.toList.splitOn '\n' ≠ p.facts.map (fun fact => fact.text.toList) ++ [] :: rules ∧
      p.text.toList.splitOn '\n' =
        ["kb_formula(0, n(0,0)).".toList, "formula(n(0,0)).".toList,
          "formula_is_atom(n(0,0), \"a".toList, "b\").".toList, []] ++ rules ∧
      '\n' ∈ (quoteTerm "a\nb").toList := by
  intro p rules
  have hlines : (['\n'].intercalate (p.facts.map fun fact => fact.text.toList)).splitOn '\n' =
      ["kb_formula(0, n(0,0)).".toList, "formula(n(0,0)).".toList,
        "formula_is_atom(n(0,0), \"a".toList, "b\").".toList] := by decide
  refine ⟨fun h => ?_, ?_, by decide⟩
  · rw [splitOn_text, List.append_cancel_right_eq, splitOn_intercalate_iff] at h
    exact absurd h.2 (by decide)
  · rw [splitOn_text, hlines]
    simp only [List.cons_append, List.nil_append, rules]

end Program
end LeastGlut
