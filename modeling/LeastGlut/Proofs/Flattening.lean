/-
# Which formulas have clauses

The conjunctions at the top of a formula join its conjuncts, and the disjunctions at the
top of each of these its disjuncts (`Formula.conjuncts`, `Formula.disjuncts`). A formula is in
conjunctive normal form when each of these ends is a literal or a constant
(`Formula.isCnf_iff_ends`).

Clauses are taken from just such formulas. A disjunct that is true drops its clause, but all
ends are read: whatever stands around it, a malformed end refuses the formula, and of several
the leftmost is named (`Formula.clauses_eq`).

Key definitions: `Formula.conjuncts`, `Formula.disjuncts`, `Formula.ends`, `Formula.clause?`.
-/
import LeastGlut.Proofs.NormalForms

namespace LeastGlut
namespace Formula

/-- What the conjunctions at the top join, left to right. -/
def conjuncts : Formula → List Formula
  | binary .and lhs rhs => lhs.conjuncts ++ rhs.conjuncts
  | f => [f]

/-- What the disjunctions at the top join, left to right. -/
def disjuncts : Formula → List Formula
  | binary .or lhs rhs => lhs.disjuncts ++ rhs.disjuncts
  | f => [f]

/-- The disjuncts of each conjunct, left to right. -/
def ends (f : Formula) : List Formula := f.conjuncts.flatMap disjuncts

/-- The atom and the sign of a literal that is no constant. -/
def signedAtom? : Formula → Option SignedAtom
  | atom name => some ⟨name, true⟩
  | not (atom name) => some ⟨name, false⟩
  | _ => none

/-- The clause of a disjunction of literals: none if a disjunct is true, otherwise its signed
atoms in order. -/
def clause? (f : Formula) : Option SignedClause :=
  if verum ∈ f.disjuncts then none else some (f.disjuncts.filterMap signedAtom?)

instance : DecidablePred IsLiteral
  | atom name => .isTrue (.atom name)
  | verum => .isTrue .verum
  | falsum => .isTrue .falsum
  | not (atom name) => .isTrue (.notAtom name)
  | not verum => .isFalse nofun
  | not falsum => .isFalse nofun
  | not (not _) => .isFalse nofun
  | not (binary _ _ _) => .isFalse nofun
  | binary _ _ _ => .isFalse nofun

/-- The first of the formulas that is no literal. -/
def misfit? (fs : List Formula) : Option Formula := fs.find? fun g => ¬ IsLiteral g

variable {f g l r : Formula} {fs gs : List Formula}

/-! ### Ends -/

theorem disjuncts_of_ne_or (h : ∀ l r, f ≠ or l r) : f.disjuncts = [f] := disjuncts.eq_2 f h

theorem conjuncts_of_ne_and (h : ∀ l r, f ≠ and l r) : f.conjuncts = [f] := conjuncts.eq_2 f h

theorem ends_and : (and l r).ends = l.ends ++ r.ends := List.flatMap_append

theorem ends_of_ne_and (h : ∀ l r, f ≠ and l r) : f.ends = f.disjuncts := by
  rw [ends, conjuncts_of_ne_and h, List.flatMap_singleton]

theorem IsLiteral.ne_or (h : IsLiteral f) (l r : Formula) : f ≠ or l r := by
  rintro rfl
  cases h

theorem isClause_iff_disjuncts : IsClause f ↔ ∀ g ∈ f.disjuncts, IsLiteral g := by
  constructor
  · intro h
    induction h with
    | literal h =>
      rw [disjuncts_of_ne_or h.ne_or]
      exact List.forall_mem_singleton.mpr h
    | or _ _ ihl ihr => exact List.forall_mem_append.mpr ⟨ihl, ihr⟩
  · intro h
    fun_induction disjuncts f with
    | case1 lhs rhs ihl ihr =>
      obtain ⟨hl, hr⟩ := List.forall_mem_append.mp h
      exact .or (ihl hl) (ihr hr)
    | case2 f _ => exact .literal (List.forall_mem_singleton.mp h)

/-- **Conjunctive normal form is a matter of the ends**: each is a literal or a constant. -/
theorem isCnf_iff_ends : IsCnf f ↔ ∀ g ∈ f.ends, IsLiteral g := by
  constructor
  · intro h
    induction h with
    | clause h =>
      rw [ends_of_ne_and h.ne_and]
      exact isClause_iff_disjuncts.mp h
    | and _ _ ihl ihr =>
      rw [ends_and]
      exact List.forall_mem_append.mpr ⟨ihl, ihr⟩
  · intro h
    fun_induction conjuncts f with
    | case1 lhs rhs ihl ihr =>
      rw [ends_and] at h
      obtain ⟨hl, hr⟩ := List.forall_mem_append.mp h
      exact .and (ihl hl) (ihr hr)
    | case2 f hand =>
      rw [ends_of_ne_and hand] at h
      exact .clause (isClause_iff_disjuncts.mpr h)

/-! ### The first misfit -/

theorem misfit?_append : misfit? (fs ++ gs) = (misfit? fs).or (misfit? gs) := List.find?_append

theorem misfit?_eq_none_iff : misfit? fs = none ↔ ∀ g ∈ fs, IsLiteral g := by
  simp [misfit?, List.find?_eq_none]

theorem misfit?_eq_some_iff : misfit? fs = some g ↔
    ∃ before after, fs = before ++ g :: after ∧ (∀ k ∈ before, IsLiteral k) ∧ ¬ IsLiteral g := by
  rw [misfit?, List.find?_eq_some_iff_append]
  constructor
  · rintro ⟨hg, before, after, rfl, hbefore⟩
    exact ⟨before, after, rfl, fun k hk => by simpa using hbefore k hk, by simpa using hg⟩
  · rintro ⟨before, after, rfl, hbefore, hg⟩
    exact ⟨by simpa using hg, before, after, rfl, fun k hk => by simpa using hbefore k hk⟩

/-! ### Reading literals and clauses -/

theorem clause?_or : (or l r).clause? = match l.clause?, r.clause? with
    | some c, some d => some (c ++ d)
    | _, _ => none := by
  simp only [clause?, disjuncts, List.mem_append, List.filterMap_append]
  by_cases hl : verum ∈ l.disjuncts <;> by_cases hr : verum ∈ r.disjuncts <;> simp [hl, hr]

/-- The disjuncts are all read, also those behind one that is true. -/
theorem literals_eq (f : Formula) : f.literals = match misfit? f.disjuncts with
    | some g => .error (.malformedClause g)
    | none => .ok f.clause? := by
  fun_induction literals f with
  | case1 name => rfl
  | case2 name => rfl
  | case3 => rfl
  | case4 => rfl
  | case5 lhs rhs ihl ihr =>
    rw [disjuncts, misfit?_append, ihl, ihr, clause?_or]
    cases misfit? lhs.disjuncts with
    | some g => rfl
    | none => cases misfit? rhs.disjuncts <;> rfl
  | case6 f hatom hnot hverum hfalsum hor =>
    have hf : ¬ IsLiteral f := by
      rintro (_ | _ | _ | _)
      · exact hatom _ rfl
      · exact hnot _ rfl
      · exact hverum rfl
      · exact hfalsum rfl
    have hmisfit : misfit? f.disjuncts = some f := by
      rw [disjuncts_of_ne_or hor]
      exact List.find?_cons_of_pos (decide_eq_true hf)
    rw [hmisfit]

/-- **What clauses are taken from**: each end must be a literal, and the first that is none
is named. -/
theorem clauses_eq (f : Formula) : f.clauses = match misfit? f.ends with
    | some g => .error (.malformedClause g)
    | none => .ok (f.conjuncts.filterMap clause?) := by
  fun_induction clauses f with
  | case1 lhs rhs ihl ihr =>
    rw [ends_and, misfit?_append, ihl, ihr, conjuncts, List.filterMap_append]
    cases misfit? lhs.ends with
    | some g => rfl
    | none => cases misfit? rhs.ends <;> rfl
  | case2 f hand =>
    rw [ends_of_ne_and hand, conjuncts_of_ne_and hand, literals_eq]
    cases misfit? f.disjuncts with
    | some g => rfl
    | none =>
      rw [List.filterMap_cons]
      cases f.clause? <;> rfl

/-- **Clauses are taken from just the formulas in conjunctive normal form**: one for each
conjunct in which no disjunct is true, in order, each of the signed atoms of its disjuncts
in order. Any other formula is refused with the leftmost end that is no literal, whatever
the other ends are. -/
theorem clauses_eq_ok_iff_isCnf (f : Formula) :
    (∀ cs, f.clauses = .ok cs ↔ IsCnf f ∧ cs = f.conjuncts.filterMap clause?) ∧
    ∀ e, f.clauses = .error e ↔ ∃ before part after, f.ends = before ++ part :: after ∧
      (∀ g ∈ before, IsLiteral g) ∧ ¬ IsLiteral part ∧ e = .malformedClause part ∧
      e.message = part.display ++ " is not a disjunction of literals" := by
  rw [clauses_eq]
  cases hm : misfit? f.ends with
  | none =>
    have hends := misfit?_eq_none_iff.mp hm
    refine ⟨fun cs => ⟨fun h => ?_, fun h => congrArg _ h.2.symm⟩, fun e => ⟨nofun, ?_⟩⟩
    · exact ⟨isCnf_iff_ends.mpr hends, (Except.ok.inj h).symm⟩
    · rintro ⟨before, part, after, hsplit, -, hpart, -⟩
      have hmem : part ∈ f.ends := by simp [hsplit]
      exact absurd (hends part hmem) hpart
  | some g =>
    obtain ⟨before, after, hsplit, hbefore, hg⟩ := misfit?_eq_some_iff.mp hm
    refine ⟨fun cs => ⟨nofun, fun h => ?_⟩, fun e => ⟨fun h => ?_, ?_⟩⟩
    · have hnone := misfit?_eq_none_iff.mpr (isCnf_iff_ends.mp h.1)
      cases hm.symm.trans hnone
    · obtain rfl := Except.error.inj h
      exact ⟨before, g, after, hsplit, hbefore, hg, rfl, rfl⟩
    · rintro ⟨before', part, after', hsplit', hbefore', hpart, rfl, -⟩
      have hsome := misfit?_eq_some_iff.mpr ⟨before', after', hsplit', hbefore', hpart⟩
      rw [Option.some.inj (hm.symm.trans hsome)]

/-- A true disjunct drops its clause, but what is malformed behind it refuses the formula, and
is named in front of the malformed clause that follows. -/
theorem clauses_eq_ok_iff_isCnf_verum :
    let f : Formula → Formula → Formula := fun g h =>
      and (and (or (atom "A") falsum) (or verum g)) h
    (f (not (atom "B")) (atom "C")).clauses = .ok [[⟨"A", true⟩], [⟨"C", true⟩]] ∧
    (f (not (not (atom "B"))) (implies (atom "C") verum)).clauses =
      .error (.malformedClause (not (not (atom "B")))) := by
  intro f
  have hcnf : IsCnf (f (not (atom "B")) (atom "C")) :=
    isCnf_iff_ends.mpr (by simp only [f]; decide)
  refine ⟨((clauses_eq_ok_iff_isCnf _).1 _).mpr ⟨hcnf, rfl⟩,
    ((clauses_eq_ok_iff_isCnf _).2 _).mpr ?_⟩
  exact ⟨[atom "A", falsum, verum], _, [implies (atom "C") verum], rfl, by decide, by decide, rfl,
    rfl⟩

end Formula
end LeastGlut
