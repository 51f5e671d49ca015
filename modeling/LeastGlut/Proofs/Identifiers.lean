/-
# Identifiers are split without overlap or gap

Three indicators for each atom, a flag for each formula and, from gates, a
variable for each compound use up the variables of an encoding, each once, and
every literal is of one of them. The clauses that define the variable of a
compound are among the hard ones (`KnowledgeBase.widenGate_mem_hard`), and the
soft ones are the same in either form (`KnowledgeBase.soft_of_encode`).
-/
import LeastGlut.Proofs.Solving

namespace LeastGlut
namespace KnowledgeBase

open IndicatorTable

variable {kb : KnowledgeBase} {form : ClauseForm} {e : Encoding}

theorem widenGate_mem_hard (he : kb.encode form = .ok e) {a : Auxiliary}
    (ha : a ∈ kb.auxiliaries form) {c : Clause} (hc : c ∈ a.clauses) :
    kb.table.widenGate c ∈ e.clauses.hard := by
  cases form with
  | naive => cases ha
  | tseitin =>
    obtain rfl := Except.ok.inj (kb.encode_tseitin.symm.trans he)
    rw [auxiliaries, ← map_fst_zip_flags] at ha
    exact List.mem_append_right _ (widenGate_mem_gateBlocks ha hc)

/-- **The identifiers of an encoding** are split without overlap or gap: three for each
atom in order of first reference, one for each formula in order and, with gates, one for
each compound, which its clauses define. Every literal is of one of them. The soft clauses
charge the flags, in either form alike. -/
theorem encode_partition (kb : KnowledgeBase) :
    (∀ form, kb.identCount form < 2 ^ 31 → ∃ e, kb.encode form = .ok e ∧
      e.atoms.entries.map (·.1) = kb.atoms ∧
      e.flags = List.range' (3 * kb.atoms.length + 1) kb.size ∧
      e.named ++ (kb.auxiliaries form).map (·.ident) = List.range' 1 e.clauses.varCount ∧
      e.clauses.varCount = 3 * kb.atoms.length + kb.size + (kb.auxiliaries form).length ∧
      (∀ a ∈ kb.auxiliaries form, ∀ c ∈ a.clauses, e.atoms.widenGate c ∈ e.clauses.hard) ∧
      (∀ c ∈ e.clauses.hard ++ e.clauses.soft.map (·.1), ∀ l ∈ c,
        l ≠ 0 ∧ Int.natAbs l ≤ e.clauses.varCount) ∧
      e.clauses.soft = e.flags.map fun flag : Ident => ([-(flag : Int)], 1)) ∧
    kb.auxiliaries .naive = [] ∧
    (kb.auxiliaries .tseitin).map (·.node) = kb.formulas.flatMap Formula.compoundNodes ∧
    ∀ d e, kb.encode .naive = .ok d → kb.encode .tseitin = .ok e →
      d.clauses.soft = e.clauses.soft := by
  refine ⟨fun form h => ?_, rfl, map_node_auxiliariesFrom kb.formulas kb.namedCount,
    fun d e hd he => (soft_of_encode hd).trans (soft_of_encode he).symm⟩
  obtain ⟨hard, he, hp⟩ := exists_encode kb form h
  have hw := numbered_encodingOf h hp.within
  refine ⟨kb.encodingOf form hard, he, kb.map_fst_entries, flags_eq kb, ?_, kb.identCount_eq form,
    fun a ha c hc => widenGate_mem_hard he ha hc, ?_, ?_⟩
  · rw [named_encodingOf]
    exact kb.named_append_idents form
  · intro c hc l hl
    obtain ⟨h0, hle⟩ : Ident.Upto (kb.identCount form) (Int.natAbs l) := by
      rcases List.mem_append.mp hc with hc | hc
      · exact hw.hard c hc l hl
      · obtain ⟨s, hs, rfl⟩ := List.mem_map.mp hc
        exact hw.soft s hs l hl
    exact ⟨Int.natAbs_pos.mp h0, hle⟩
  · apply List.map_congr_left
    intro flag hflag
    have hup := (upto_of_mem_flags hflag).mono (kb.namedCount_le form)
    rw [Literal.of_of_inRange (hup.inRange h), if_neg Bool.false_ne_true]

theorem encode_partition_equivalence :
    let kb : KnowledgeBase := ⟨[.iff (.not (.atom "A")) .falsum, .atom "B", .atom "A"]⟩
    kb.identCount .tseitin < 2 ^ 31 ∧ ∃ e, kb.encode .tseitin = .ok e ∧
      e.named ++ [10, 11, 12] = List.range' 1 12 ∧ e.clauses.varCount = 12 ∧
      e.clauses.soft = [([-7], 1), ([-8], 1), ([-9], 1)] := by
  intro kb
  have h : kb.identCount .tseitin < 2 ^ 31 := by decide
  obtain ⟨hform, -⟩ := encode_partition kb
  obtain ⟨e, he, -, hflags, hidents, hcount, -, -, hsoft⟩ := hform .tseitin h
  refine ⟨h, e, he, ?_, hcount, ?_⟩
  · rw [hcount] at hidents
    exact hidents
  · rw [hsoft, hflags]
    rfl

end KnowledgeBase
end LeastGlut
