/-
# The clauses of a compound are made from those of its parts

A conjunction has the clauses of its operands, those of the left one in front.
A disjunction has each clause of the left operand joined with each clause of the
right one, in the order of the left operand first. Negations and the other
connectives are read by De Morgan's laws and by what they stand for. So the
clauses of a formula, with their order and their number, are found by recursion
on it (`Formula.signedClauses_eq`), and these laws leave no other choice
(`Formula.ClauseLaws.eq_clauseList`).

Distribution takes the conjunctions of the left operand apart first, and those
of the right one below it. That the order comes out right rests on what is left
of the left operand by then: a disjunction of literals, which gives one clause
or none (`Formula.IsClause.length_le_one`).

Key definitions: `SignedClause.pairs`, `Formula.clauseList`, `Formula.ClauseLaws`.
-/
import LeastGlut.Proofs.NormalForms

namespace LeastGlut

namespace SignedClause

variable {cs cs' ds ds' : List SignedClause}

/-- Each clause of the one list joined with each clause of the other, the first list outermost. -/
def pairs (cs ds : List SignedClause) : List SignedClause :=
  cs.flatMap fun c => ds.map fun d => c ++ d

theorem pairs_append_left : pairs (cs ++ cs') ds = pairs cs ds ++ pairs cs' ds :=
  List.flatMap_append

/-- A second list may be cut when the first has one clause at most; with two, the clauses of
each would come together. -/
theorem pairs_append_right (h : cs.length ≤ 1) :
    pairs cs (ds ++ ds') = pairs cs ds ++ pairs cs ds' := by
  rcases cs with _ | ⟨c, _ | ⟨c', cs⟩⟩
  · rfl
  · simp only [pairs, List.flatMap_singleton, List.map_append]
  · simp at h

end SignedClause

namespace Formula

open SignedClause

variable {f l r : Formula} {cs ds : List SignedClause}

/-- The clauses of a formula, or of its negation when `positive` is false. -/
def clauseList (positive : Bool) : Formula → List SignedClause
  | atom name => [[⟨name, positive⟩]]
  | verum => if positive then [] else [[]]
  | falsum => if positive then [[]] else []
  | not inner => inner.clauseList (!positive)
  | binary .and lhs rhs =>
    if positive then lhs.clauseList true ++ rhs.clauseList true
    else pairs (lhs.clauseList false) (rhs.clauseList false)
  | binary .or lhs rhs =>
    if positive then pairs (lhs.clauseList true) (rhs.clauseList true)
    else lhs.clauseList false ++ rhs.clauseList false
  | binary .implies lhs rhs =>
    if positive then pairs (lhs.clauseList false) (rhs.clauseList true)
    else lhs.clauseList true ++ rhs.clauseList false
  | binary .iff lhs rhs =>
    if positive then
      pairs (lhs.clauseList false) (rhs.clauseList true) ++
        pairs (rhs.clauseList false) (lhs.clauseList true)
    else
      pairs (lhs.clauseList true ++ rhs.clauseList false)
        (rhs.clauseList true ++ lhs.clauseList false)

/-! ### Clauses of trees in conjunctive normal form -/

theorem IsClause.exists_toList (h : IsClause f) :
    ∃ o, f.literals = .ok o ∧ f.clauses = .ok o.toList := by
  obtain ⟨o, ho, -, -⟩ := h.exists_literals
  refine ⟨o, ho, ?_⟩
  rw [h.clauses_eq, ho]
  rfl

theorem IsClause.length_le_one (h : IsClause f) (hcs : f.clauses = .ok cs) : cs.length ≤ 1 := by
  obtain ⟨o, -, ho⟩ := h.exists_toList
  have heq : o.toList = cs := Except.ok.inj (ho.symm.trans hcs)
  rw [← heq]
  exact Option.length_toList_le

theorem clauses_and (hl : l.clauses = .ok cs) (hr : r.clauses = .ok ds) :
    (and l r).clauses = .ok (cs ++ ds) := by
  rw [clauses, hl, hr]
  rfl

theorem clauses_or (hl : IsClause l) (hr : IsClause r) (hcs : l.clauses = .ok cs)
    (hds : r.clauses = .ok ds) : (or l r).clauses = .ok (pairs cs ds) := by
  obtain ⟨c, hlc, hlo⟩ := hl.exists_toList
  obtain ⟨d, hrd, hro⟩ := hr.exists_toList
  obtain rfl : c.toList = cs := Except.ok.inj (hlo.symm.trans hcs)
  obtain rfl : d.toList = ds := Except.ok.inj (hro.symm.trans hds)
  rw [(IsClause.or hl hr).clauses_eq, literals, hlc, hrd]
  cases c <;> cases d <;> rfl

theorem clauses_joinRight (hl : IsClause l) (hr : IsCnf r) (hcs : l.clauses = .ok cs)
    (hds : r.clauses = .ok ds) : (joinRight l r).clauses = .ok (pairs cs ds) := by
  induction hr generalizing ds with
  | clause hr =>
    rw [joinRight_of_ne_and hr.ne_and]
    exact clauses_or hl hr hcs hds
  | and ha hb iha ihb =>
    obtain ⟨as, has, -, -⟩ := ha.exists_clauses
    obtain ⟨bs, hbs, -, -⟩ := hb.exists_clauses
    obtain rfl : as ++ bs = ds := Except.ok.inj ((clauses_and has hbs).symm.trans hds)
    rw [pairs_append_right (hl.length_le_one hcs)]
    exact clauses_and (iha has) (ihb hbs)

/-- **Joining two formulas joins their clauses** in pairs. -/
theorem clauses_join (hl : IsCnf l) (hr : IsCnf r) (hcs : l.clauses = .ok cs)
    (hds : r.clauses = .ok ds) : (join l r).clauses = .ok (pairs cs ds) := by
  induction hl generalizing cs with
  | clause hl =>
    rw [join_of_ne_and hl.ne_and]
    exact clauses_joinRight hl hr hcs hds
  | and ha hb iha ihb =>
    obtain ⟨as, has, -, -⟩ := ha.exists_clauses
    obtain ⟨bs, hbs, -, -⟩ := hb.exists_clauses
    obtain rfl : as ++ bs = cs := Except.ok.inj ((clauses_and has hbs).symm.trans hcs)
    rw [pairs_append_left]
    exact clauses_and (iha has) (ihb hbs)

/-! ### Clauses of all formulas -/

theorem clauses_distribute_and (hl : l.distribute.clauses = .ok cs)
    (hr : r.distribute.clauses = .ok ds) : (and l r).distribute.clauses = .ok (cs ++ ds) :=
  clauses_and hl hr

theorem clauses_distribute_or (hl : IsNnf l) (hr : IsNnf r)
    (hcs : l.distribute.clauses = .ok cs) (hds : r.distribute.clauses = .ok ds) :
    (or l r).distribute.clauses = .ok (pairs cs ds) :=
  clauses_join (isCnf_distribute hl) (isCnf_distribute hr) hcs hds

theorem clauses_distribute_signed (f : Formula) (positive : Bool) :
    (f.signed positive).distribute.clauses = .ok (f.clauseList positive) := by
  induction f generalizing positive with
  | atom name => cases positive <;> rfl
  | verum => cases positive <;> rfl
  | falsum => cases positive <;> rfl
  | not inner ih => exact ih _
  | binary op lhs rhs ihl ihr =>
    have hl := isNnf_signed lhs
    have hr := isNnf_signed rhs
    cases op <;> cases positive
    case and.false => exact clauses_distribute_or (hl _) (hr _) (ihl _) (ihr _)
    case and.true => exact clauses_distribute_and (ihl _) (ihr _)
    case or.false => exact clauses_distribute_and (ihl _) (ihr _)
    case or.true => exact clauses_distribute_or (hl _) (hr _) (ihl _) (ihr _)
    case implies.false => exact clauses_distribute_and (ihl _) (ihr _)
    case implies.true => exact clauses_distribute_or (hl _) (hr _) (ihl _) (ihr _)
    case iff.false =>
      exact clauses_distribute_or (.and (hl _) (hr _)) (.and (hr _) (hl _))
        (clauses_distribute_and (ihl _) (ihr _)) (clauses_distribute_and (ihr _) (ihl _))
    case iff.true =>
      exact clauses_distribute_and (clauses_distribute_or (hl _) (hr _) (ihl _) (ihr _))
        (clauses_distribute_or (hr _) (hl _) (ihr _) (ihl _))

/-- **The clauses of a formula are found by recursion on it.** -/
theorem signedClauses_eq (f : Formula) : f.signedClauses = .ok (f.clauseList true) := by
  unfold signedClauses cnf
  rw [nnf_expandImplies_expandIff]
  exact clauses_distribute_signed f true

/-! ### The laws -/

/-- Lists of clauses that follow the structure of formulas: conjunction appends, disjunction
joins in pairs with the left operand outermost, and all else comes down to these two. -/
structure ClauseLaws (T : Formula → List SignedClause) : Prop where
  atom_eq (name : String) : T (atom name) = [[⟨name, true⟩]]
  verum_eq : T verum = []
  falsum_eq : T falsum = [[]]
  and_eq (f g : Formula) : T (and f g) = T f ++ T g
  or_eq (f g : Formula) : T (or f g) = (T f).flatMap fun c => (T g).map fun d => c ++ d
  implies_eq (f g : Formula) : T (implies f g) = T (or (not f) g)
  iff_eq (f g : Formula) : T (iff f g) = T (and (or (not f) g) (or (not g) f))
  not_atom (name : String) : T (not (atom name)) = [[⟨name, false⟩]]
  not_verum : T (not verum) = [[]]
  not_falsum : T (not falsum) = []
  not_not (f : Formula) : T (not (not f)) = T f
  not_and (f g : Formula) : T (not (and f g)) = T (or (not f) (not g))
  not_or (f g : Formula) : T (not (or f g)) = T (and (not f) (not g))
  not_implies (f g : Formula) : T (not (implies f g)) = T (not (or (not f) g))
  not_iff (f g : Formula) : T (not (iff f g)) = T (not (and (or (not f) g) (or (not g) f)))

theorem clauseLaws_clauseList : ClauseLaws (clauseList true) where
  atom_eq _ := rfl
  verum_eq := rfl
  falsum_eq := rfl
  and_eq _ _ := rfl
  or_eq _ _ := rfl
  implies_eq _ _ := rfl
  iff_eq _ _ := rfl
  not_atom _ := rfl
  not_verum := rfl
  not_falsum := rfl
  not_not _ := rfl
  not_and _ _ := rfl
  not_or _ _ := rfl
  not_implies _ _ := rfl
  not_iff _ _ := rfl

/-- The formula, or its negation when `positive` is false. -/
def withSign (positive : Bool) (f : Formula) : Formula := if positive then f else not f

/-- The laws leave no choice. The induction takes a formula together with its negation, which
is no part of it. -/
theorem ClauseLaws.eq_clauseList {T : Formula → List SignedClause} (h : ClauseLaws T)
    (f : Formula) (positive : Bool) : T (f.withSign positive) = f.clauseList positive := by
  induction f generalizing positive with
  | atom name =>
    cases positive
    · exact h.not_atom name
    · exact h.atom_eq name
  | verum =>
    cases positive
    · exact h.not_verum
    · exact h.verum_eq
  | falsum =>
    cases positive
    · exact h.not_falsum
    · exact h.falsum_eq
  | not inner ih =>
    cases positive
    · exact (h.not_not inner).trans (ih true)
    · exact ih false
  | binary op lhs rhs ihl ihr =>
    have hlhs : T lhs = lhs.clauseList true := ihl true
    have hrhs : T rhs = rhs.clauseList true := ihr true
    have hnotlhs : T (not lhs) = lhs.clauseList false := ihl false
    have hnotrhs : T (not rhs) = rhs.clauseList false := ihr false
    cases op <;> cases positive <;> unfold withSign clauseList pairs
    case and.false => simp [h.not_and, h.or_eq, hnotlhs, hnotrhs]
    case and.true => simp [h.and_eq, hlhs, hrhs]
    case or.false => simp [h.not_or, h.and_eq, hnotlhs, hnotrhs]
    case or.true => simp [h.or_eq, hlhs, hrhs]
    case implies.false => simp [h.not_implies, h.not_or, h.and_eq, h.not_not, hlhs, hnotrhs]
    case implies.true => simp [h.implies_eq, h.or_eq, hnotlhs, hrhs]
    case iff.false =>
      simp [h.not_iff, h.not_and, h.or_eq, h.not_or, h.and_eq, h.not_not, hlhs, hrhs, hnotlhs,
        hnotrhs]
    case iff.true => simp [h.iff_eq, h.and_eq, h.or_eq, hlhs, hrhs, hnotlhs, hnotrhs]

/-- **Clauses are compositional.** Every formula has clauses; they follow the laws, and no
other lists do. -/
theorem signedClauses_compositional : ∃ T : Formula → List SignedClause,
    (∀ f : Formula, f.signedClauses = .ok (T f)) ∧ ClauseLaws T ∧ ∀ T', ClauseLaws T' → T' = T :=
  ⟨clauseList true, signedClauses_eq, clauseLaws_clauseList,
    fun _ h => funext fun f => h.eq_clauseList f true⟩

end Formula
end LeastGlut
