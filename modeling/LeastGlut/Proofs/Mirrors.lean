/-
# Identifiers past the words

An identifier past `2 ^ 31` has the literals of another variable, and two
identifiers that make `2 ^ 32` together mirror each other: the literals of one
are those of the other with the sign turned (`Literal.of_mirrored`). Where the
indicators of two atoms mirror each other, the clauses of one say that one of
three variables is true and those of the other that two are
(`Indicators.not_holds_of_mirrored`). A table that starts from no identifiers has
such atoms at the places 715827881 and 715827883. So with that many atoms the
hard clauses have no model, in either form and whatever the formulas say
(`KnowledgeBase.not_holds_of_length_atoms`).

Below `2 ^ 32` no literal is zero, so a lawful oracle finds that there is no
model, and solving fails in the engine (`KnowledgeBase.exists_naive_eq_error`).
The numerals are atoms enough, and formulas that are true together.

Key definitions: `Clause.Named`, `KnowledgeBase.numerals`.
-/
import LeastGlut.Proofs.Auxiliaries
import LeastGlut.Proofs.OneLine
import LeastGlut.Proofs.Solving

namespace LeastGlut

/-! ### Mirrored literals -/

namespace Literal

/-- **The literals of mirrored identifiers** are each other's with the sign turned. -/
theorem of_mirrored {i j : Nat} (hi : Ident.InRange i) (h : i + j = 2 ^ 32) (p : Bool) :
    of j p = of i !p := by
  have hj : (j : Int) = -(i : Int) + 4294967296 := by omega
  have hword : word j = -(i : Int) :=
    calc word j = word (-(i : Int)) := by rw [hj]; exact Int.add_bmod_right _ _
      _ = -(i : Int) := word_of_natAbs_lt (by rw [Int.natAbs_neg]; exact hi.2)
  have hflip : flip (-(i : Int)) = i := by
    rw [flip, Int.neg_neg]
    exact word_of_natAbs_lt hi.2
  rw [of_of_inRange hi, of, hword, hflip]
  cases p <;> simp

end Literal

/-- **The clauses of mirrored atoms** do not hold together. -/
theorem Indicators.not_holds_of_mirrored {i j : Indicators} (hi : i.InRange)
    (ht : i.t + j.b = 2 ^ 32) (hf : i.f + j.f = 2 ^ 32) (hb : i.b + j.t = 2 ^ 32)
    (v : Ident → Bool) : ¬∀ c ∈ i.constraints ++ j.constraints, c.holds v := by
  simp only [constraints, Literal.of_mirrored hi.t ht, Literal.of_mirrored hi.f hf,
    Literal.of_mirrored hi.b hb, List.cons_append, List.nil_append, List.forall_mem_cons,
    Clause.holds, List.any_cons, List.any_nil, Literal.holds_of hi.t, Literal.holds_of hi.f,
    Literal.holds_of hi.b]
  cases v i.t <;> cases v i.f <;> cases v i.b <;> simp

namespace KnowledgeBase

variable {kb : KnowledgeBase} {form : ClauseForm} {e : Encoding}

/-- **With mirrored atoms** the hard clauses have no model. -/
theorem not_holds_of_length_atoms (he : kb.encode form = .ok e)
    (h : 715827883 < kb.atoms.length) (v : Ident → Bool) : ¬∀ c ∈ e.clauses.hard, c.holds v := by
  obtain ⟨hard, n, rfl⟩ := exists_eq_of_encode he
  intro hv
  have hatom : ∀ k < kb.atoms.length, ∀ c ∈ (Indicators.behind (0 + 3 * k)).constraints,
      c.holds v := fun k hk c hc => by
    refine hv c (List.mem_append_left _ (List.mem_flatMap.mpr ⟨(kb.atoms[k], _), ?_, hc⟩))
    exact IndicatorTable.mem_behind.mpr ⟨k, List.getElem?_eq_getElem hk, rfl⟩
  have hrange : (Indicators.behind 2147483643).InRange := fun x => by
    cases x <;> exact ⟨by decide, by decide⟩
  refine Indicators.not_holds_of_mirrored (j := .behind 2147483649) hrange rfl rfl rfl v ?_
  rw [List.forall_mem_append]
  exact ⟨hatom 715827881 (by omega), hatom 715827883 h⟩

end KnowledgeBase

/-! ### Literals of identifiers -/

namespace Literal

/-- Below `2 ^ 32` no literal is zero. -/
theorem of_ne_zero {i : Nat} (h0 : 0 < i) (hi : i < 2 ^ 32) (p : Bool) : of i p ≠ 0 := by
  have hword : ∀ n : Int, word n = 0 → n % 4294967296 = 0 := fun n hn => by
    have hmod : n.bmod 4294967296 % 4294967296 = n % 4294967296 := Int.bmod_emod
    rwa [show n.bmod 4294967296 = 0 from hn, eq_comm] at hmod
  have hpos : word i ≠ 0 := fun h => by
    have hmod := hword i h
    omega
  cases p with
  | true =>
    rw [of, if_pos rfl]
    exact hpos
  | false =>
    rw [of, if_neg Bool.false_ne_true, flip]
    intro h
    have hmod : (-(i : Int).bmod 4294967296) % 4294967296 = 0 := hword (-word i) h
    obtain ⟨hlow, hhigh⟩ := bmod_bounds i
    have hzero : (i : Int).bmod 4294967296 = 0 := by omega
    exact hpos hzero

end Literal

/-- Every literal is of an identifier among the first `n`. -/
def Clause.Named (n : Nat) (c : Clause) : Prop :=
  ∀ l ∈ c, ∃ i p, Ident.Upto n i ∧ l = Literal.of i p

theorem Clause.Named.zero_not_mem {n : Nat} {c : Clause} (h : c.Named n) (hn : n < 2 ^ 32) :
    (0 : Int) ∉ c := fun h0 => by
  obtain ⟨i, p, hi, hl⟩ := h 0 h0
  exact Literal.of_ne_zero hi.1 (Nat.lt_of_le_of_lt hi.2 hn) p hl.symm

namespace IndicatorTable

variable {table : IndicatorTable} {n : Nat}

theorem named_constraints (hlo : table.Below n) : ∀ c ∈ table.constraints, c.Named n := by
  intro c hc l hl
  obtain ⟨e, he, hc⟩ := List.mem_flatMap.mp hc
  obtain ⟨x, p, hxp⟩ := Indicators.mem_constraints hc hl
  exact ⟨_, p, hlo e he x, hxp⟩

section

variable (ht : table.Separate) (hlo : table.Below n)

include ht hlo

theorem upto_ofAtom {a : String} (ha : table.Lists a) (x : Truth) :
    Ident.Upto n ((table.ofAtom a).get x) :=
  hlo _ (ht.get?_eq_some_iff.mp (get?_of_lists ha)) x

theorem named_flagClause {flag : Nat} (hflag : Ident.Upto n flag) {a : String}
    (ha : table.Lists a) : (table.flagClause flag a).Named n := by
  intro l hl
  rw [flagClause, List.mem_cons, List.mem_singleton] at hl
  rcases hl with hl | hl
  · exact ⟨_, _, hflag, hl⟩
  · exact ⟨_, _, upto_ofAtom ht hlo ha .b, hl⟩

theorem named_widenListed {c : SignedClause} (hc : ∀ l ∈ c, table.Lists l.atom) :
    (table.widenListed c).Named n := by
  intro l hl
  unfold widenListed at hl
  rw [List.mem_append, List.mem_eraseDups, List.mem_map, List.mem_map] at hl
  rcases hl with ⟨a, ha, rfl⟩ | ⟨a, ha, rfl⟩
  · exact ⟨_, true, upto_ofAtom ht hlo (hc a ha) _, Indicators.literal_eq _ _⟩
  · exact ⟨_, true, upto_ofAtom ht hlo (hc a ha) .b, rfl⟩

/-- The clauses of normal forms are of identifiers of the table and flags. -/
theorem named_cnfHard {numbered : List (Formula × Ident)}
    (hn : ∀ p ∈ numbered, Ident.Upto n p.2 ∧ ∀ a ∈ p.1.leaves, table.Lists a) {cs : List Clause}
    (hcs : KnowledgeBase.cnfHard table numbered = .ok cs) : ∀ c ∈ cs, c.Named n := by
  induction numbered generalizing cs with
  | nil =>
    cases hcs
    exact fun c hc => absurd hc List.not_mem_nil
  | cons p numbered ih =>
    obtain ⟨f, flag⟩ := p
    obtain ⟨⟨hflag, hf⟩, hrest⟩ := List.forall_mem_cons.mp hn
    obtain ⟨ds, hds, -, hm⟩ := f.exists_signedClauses
    have hl : ∀ c ∈ ds, ∀ l ∈ c, table.Lists l.atom := fun c hc l hl => hf _ (hm c hc l hl)
    obtain ⟨rest, hok⟩ := KnowledgeBase.cnfHard_succeeds fun p hp => (hrest p hp).2
    have hall : KnowledgeBase.cnfHard table ((f, flag) :: numbered) =
        .ok (f.atoms.map (table.flagClause flag) ++ ds.map table.widenListed ++ rest) := by
      simp only [KnowledgeBase.cnfHard, flagClauses_eq hf, cnfClauses_eq hds hl, hok]
      rfl
    obtain rfl := Except.ok.inj (hall.symm.trans hcs)
    refine List.forall_mem_append.mpr ⟨List.forall_mem_append.mpr ⟨?_, ?_⟩, ih hrest hok⟩
    · exact List.forall_mem_map.mpr fun a ha =>
        named_flagClause ht hlo hflag (hf a (Formula.mem_atoms.mp ha))
    · exact List.forall_mem_map.mpr fun c hc => named_widenListed ht hlo (hl c hc)

end

end IndicatorTable

namespace KnowledgeBase

variable {kb : KnowledgeBase} {oracle : Oracle}

/-- The literals of normal forms are not zero as long as there are fewer than `2 ^ 32`
identifiers. -/
theorem proper_of_encode_naive {e : Encoding} (he : kb.encode .naive = .ok e)
    (h : kb.namedCount < 2 ^ 32) : e.clauses.Proper := by
  have hnumbered : ∀ p ∈ kb.formulas.zip kb.flags,
      Ident.Upto kb.namedCount p.2 ∧ ∀ a ∈ p.1.leaves, kb.table.Lists a := fun p hp =>
    ⟨upto_of_mem_flags (List.of_mem_zip hp).2, lists_of_mem_zip hp⟩
  obtain ⟨hard, hhard⟩ := cnfHard_succeeds fun p hp => (hnumbered p hp).2
  obtain rfl := Except.ok.inj ((encode_naive hhard).symm.trans he)
  refine ⟨fun c hc => ?_, fun s hs => ?_⟩
  · rcases List.mem_append.mp hc with hc | hc
    · exact (IndicatorTable.named_constraints below_table c hc).zero_not_mem h
    · exact (IndicatorTable.named_cnfHard kb.separate_table below_table hnumbered hhard c
        hc).zero_not_mem h
  · obtain ⟨flag, hflag, rfl⟩ := List.mem_map.mp hs
    have hnamed : Clause.Named kb.namedCount [Literal.of flag false] := fun l hl =>
      ⟨flag, false, upto_of_mem_flags hflag, List.mem_singleton.mp hl⟩
    exact hnamed.zero_not_mem h

/-- **With mirrored atoms** solving through normal forms fails in the engine. -/
theorem exists_naive_eq_error (ho : oracle.Lawful) (h : 715827883 < kb.atoms.length)
    (hn : kb.namedCount < 2 ^ 32) :
    ∃ failure, kb.solveClausesBy oracle .naive = .error (.solver failure) := by
  obtain ⟨e, he⟩ := kb.encode_succeeds .naive
  exact exists_solveClausesBy_eq_error ho he (proper_of_encode_naive he hn)
    (not_holds_of_length_atoms he h)

/-! ### Numerals -/

/-- The first `n` numerals, each an atom and a formula by itself. -/
def numerals (n : Nat) : KnowledgeBase := ⟨(List.range n).map fun i => .atom (toString i)⟩

theorem mem_numerals {n : Nat} {f : Formula} (hf : f ∈ (numerals n).formulas) :
    ∃ i : Nat, f = .atom (toString i) := by
  obtain ⟨i, -, rfl⟩ := List.mem_map.mp hf
  exact ⟨i, rfl⟩

theorem size_numerals (n : Nat) : (numerals n).size = n := by
  rw [size, numerals, List.length_map, List.length_range]

theorem length_atoms_numerals (n : Nat) : (numerals n).atoms.length = n := by
  have hatoms : (numerals n).atoms = (List.range n).map toString := by
    have hnodup : ((List.range n).map toString).Nodup :=
      List.nodup_range.map fun _ _ => Text.toString_injective
    have hleaves : (numerals n).formulas.flatMap Formula.leaves = (List.range n).map toString := by
      rw [numerals, List.flatMap_map]
      exact List.flatMap_pure_eq_map _ _
    rw [atoms, hleaves, eraseDups_of_nodup hnodup]
  rw [hatoms, List.length_map, List.length_range]

end KnowledgeBase
end LeastGlut
