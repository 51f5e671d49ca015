/-
# Normal forms keep the value

Every step towards conjunctive normal form keeps the exact value of a formula
under every valuation (`Formula.eval_cnf`) and its atoms
(`Formula.mem_leaves_cnf`). The result is a conjunction of disjunctions of
literals and constants (`Formula.isCnf_cnf`), and such a formula has clauses:
it is designated when each of them holds a literal that its atom admits
(`Formula.IsCnf.exists_clauses`).

Such a formula is left as it is, by every step and with its brackets
(`Formula.IsCnf.cnf_eq`), so rewriting is idempotent.

Two of the steps work on what they have made themselves. Moving negations down
comes to the same with or without the expansions before it
(`Formula.nnf_expandImplies_expandIff`), and joining distributed operands to
distributing the disjunctions rebuilt from them (`Formula.distribute_or`).

Key definitions: `Formula.IsNnf`, `Formula.IsCnf`, `SignedClause.admitted`.
-/
import LeastGlut.Proofs.Valuations
import LeastGlut.SignedClause
import Mathlib.Tactic.Tauto

namespace LeastGlut
namespace Formula

/-- An atom, a negated atom or a constant. -/
inductive IsLiteral : Formula → Prop
  | atom (name : String) : IsLiteral (atom name)
  | notAtom (name : String) : IsLiteral (not (atom name))
  | verum : IsLiteral verum
  | falsum : IsLiteral falsum

/-- A disjunction of literals and constants, in any bracketing. -/
inductive IsClause : Formula → Prop
  | literal {f : Formula} (h : IsLiteral f) : IsClause f
  | or {l r : Formula} (hl : IsClause l) (hr : IsClause r) : IsClause (or l r)

/-- A conjunction of disjunctions of literals and constants, in any bracketing. -/
inductive IsCnf : Formula → Prop
  | clause {f : Formula} (h : IsClause f) : IsCnf f
  | and {l r : Formula} (hl : IsCnf l) (hr : IsCnf r) : IsCnf (and l r)

/-- Built from literals and constants by `&&` and `||`. -/
inductive IsNnf : Formula → Prop
  | literal {f : Formula} (h : IsLiteral f) : IsNnf f
  | and {l r : Formula} (hl : IsNnf l) (hr : IsNnf r) : IsNnf (and l r)
  | or {l r : Formula} (hl : IsNnf l) (hr : IsNnf r) : IsNnf (or l r)

/-! ### The value is kept -/

theorem eval_expandIff (x : String → Truth) (f : Formula) : f.expandIff.eval x = f.eval x := by
  induction f with
  | atom name => rfl
  | verum => rfl
  | falsum => rfl
  | not inner ih => simp only [expandIff, eval, ih]
  | binary op lhs rhs ihl ihr =>
    cases op <;> simp only [expandIff, eval, ihl, ihr, Connective.apply]

theorem eval_expandImplies (x : String → Truth) (f : Formula) :
    f.expandImplies.eval x = f.eval x := by
  induction f with
  | atom name => rfl
  | verum => rfl
  | falsum => rfl
  | not inner ih => simp only [expandImplies, eval, ih]
  | binary op lhs rhs ihl ihr =>
    cases op <;> simp only [expandImplies, eval, ihl, ihr, Connective.apply]

theorem eval_signed (x : String → Truth) (f : Formula) (positive : Bool) :
    (f.signed positive).eval x = if positive then f.eval x else (f.eval x).neg := by
  induction f generalizing positive with
  | atom name => cases positive <;> rfl
  | verum => cases positive <;> rfl
  | falsum => cases positive <;> rfl
  | not inner ih =>
    unfold signed
    rw [ih]
    cases positive
    · simp [eval]
    · rfl
  | binary op lhs rhs ihl ihr =>
    cases op <;> cases positive <;>
      simp only [signed, eval, ihl, ihr, Connective.apply, Bool.not_true, Bool.not_false, if_true,
        if_false, Bool.false_eq_true] <;>
      cases lhs.eval x <;> cases rhs.eval x <;> rfl

theorem eval_nnf (x : String → Truth) (f : Formula) : f.nnf.eval x = f.eval x :=
  eval_signed x f true

theorem eval_joinRight (x : String → Truth) (l r : Formula) :
    (joinRight l r).eval x = (l.eval x).join (r.eval x) := by
  fun_induction joinRight l r with
  | case1 r r' ih ih' =>
    simp only [eval, Connective.apply, ih, ih']
    cases l.eval x <;> cases r.eval x <;> cases r'.eval x <;> rfl
  | case2 => rfl

theorem eval_join (x : String → Truth) (l r : Formula) :
    (join l r).eval x = (l.eval x).join (r.eval x) := by
  fun_induction join l r with
  | case1 l l' r ih ih' =>
    simp only [eval, Connective.apply, ih, ih']
    cases l.eval x <;> cases l'.eval x <;> cases r.eval x <;> rfl
  | case2 l r => exact eval_joinRight x l r

theorem eval_distribute (x : String → Truth) (f : Formula) : f.distribute.eval x = f.eval x := by
  fun_induction distribute f with
  | case1 lhs rhs ihl ihr => rw [eval_join, ihl, ihr]; rfl
  | case2 lhs rhs ihl ihr => simp only [eval, ihl, ihr]
  | case3 => rfl

/-- **The conjunctive normal form has the value of the formula.** -/
theorem eval_cnf (x : String → Truth) (f : Formula) : f.cnf.eval x = f.eval x := by
  unfold cnf
  rw [eval_distribute, eval_nnf, eval_expandImplies, eval_expandIff]

/-! ### The atoms are kept -/

theorem mem_leaves_expandIff {a : String} {f : Formula} :
    a ∈ f.expandIff.leaves ↔ a ∈ f.leaves := by
  fun_induction expandIff f with
  | case5 lhs rhs l r ihl ihr =>
    simp only [leaves, List.mem_append, l, r, ihl, ihr]
    tauto
  | _ => simp_all [leaves]

theorem mem_leaves_expandImplies {a : String} {f : Formula} :
    a ∈ f.expandImplies.leaves ↔ a ∈ f.leaves := by
  fun_induction expandImplies f <;> simp_all [leaves]

theorem mem_leaves_signed {a : String} {f : Formula} {positive : Bool} :
    a ∈ (f.signed positive).leaves ↔ a ∈ f.leaves := by
  induction f generalizing positive with
  | atom name => cases positive <;> rfl
  | verum => cases positive <;> rfl
  | falsum => cases positive <;> rfl
  | not inner ih => exact ih
  | binary op lhs rhs ihl ihr =>
    cases op <;> cases positive <;>
      simp only [signed, leaves, List.mem_append, ihl, ihr, if_true, if_false, Bool.false_eq_true]
        <;> tauto

theorem mem_leaves_joinRight {a : String} {l r : Formula} :
    a ∈ (joinRight l r).leaves ↔ a ∈ l.leaves ∨ a ∈ r.leaves := by
  fun_induction joinRight l r with
  | case1 r r' ih ih' =>
    simp only [leaves, List.mem_append, ih, ih']
    tauto
  | case2 => exact List.mem_append

theorem mem_leaves_join {a : String} {l r : Formula} :
    a ∈ (join l r).leaves ↔ a ∈ l.leaves ∨ a ∈ r.leaves := by
  fun_induction join l r with
  | case1 l l' r ih ih' =>
    simp only [leaves, List.mem_append, ih, ih']
    tauto
  | case2 l r => exact mem_leaves_joinRight

theorem mem_leaves_distribute {a : String} {f : Formula} :
    a ∈ f.distribute.leaves ↔ a ∈ f.leaves := by
  fun_induction distribute f with
  | case1 lhs rhs ihl ihr => rw [mem_leaves_join, ihl, ihr, leaves, List.mem_append]
  | case2 lhs rhs ihl ihr => simp only [leaves, List.mem_append, ihl, ihr]
  | case3 => rfl

theorem mem_leaves_cnf {a : String} {f : Formula} : a ∈ f.cnf.leaves ↔ a ∈ f.leaves := by
  rw [cnf, mem_leaves_distribute, nnf, mem_leaves_signed, mem_leaves_expandImplies,
    mem_leaves_expandIff]

/-! ### The shape -/

theorem isNnf_signed (f : Formula) (positive : Bool) : IsNnf (f.signed positive) := by
  induction f generalizing positive with
  | atom name =>
    cases positive
    · exact .literal (.notAtom name)
    · exact .literal (.atom name)
  | verum =>
    cases positive
    · exact .literal .falsum
    · exact .literal .verum
  | falsum =>
    cases positive
    · exact .literal .verum
    · exact .literal .falsum
  | not inner ih => exact ih _
  | binary op lhs rhs ihl ihr =>
    cases op <;> cases positive
    · exact .or (ihl _) (ihr _)
    · exact .and (ihl _) (ihr _)
    · exact .and (ihl _) (ihr _)
    · exact .or (ihl _) (ihr _)
    · exact .and (ihl _) (ihr _)
    · exact .or (ihl _) (ihr _)
    · exact .or (.and (ihl _) (ihr _)) (.and (ihr _) (ihl _))
    · exact .and (.or (ihl _) (ihr _)) (.or (ihr _) (ihl _))

theorem IsClause.ne_and {f : Formula} (h : IsClause f) (a b : Formula) : f ≠ and a b := by
  rcases h with ⟨_ | _ | _ | _⟩ | _ <;> simp

/-- Nothing is distributed over what is no conjunction. -/
theorem joinRight_of_ne_and {r : Formula} (h : ∀ a b, r ≠ and a b) (l : Formula) :
    joinRight l r = or l r := joinRight.eq_2 l r h

theorem join_of_ne_and {l : Formula} (h : ∀ a b, l ≠ and a b) (r : Formula) :
    join l r = joinRight l r := join.eq_2 l r h

theorem isCnf_joinRight {l r : Formula} (hl : IsClause l) (hr : IsCnf r) :
    IsCnf (joinRight l r) := by
  induction hr with
  | clause hr =>
    rw [joinRight_of_ne_and hr.ne_and]
    exact .clause (.or hl hr)
  | and _ _ ih ih' => exact .and ih ih'

theorem isCnf_join {l r : Formula} (hl : IsCnf l) (hr : IsCnf r) : IsCnf (join l r) := by
  induction hl with
  | clause hl =>
    rw [join_of_ne_and hl.ne_and]
    exact isCnf_joinRight hl hr
  | and _ _ ih ih' => exact .and ih ih'

/-- A literal holds nothing to distribute. -/
theorem IsLiteral.distribute_eq {f : Formula} (h : IsLiteral f) : f.distribute = f := by
  cases h <;> rfl

theorem isCnf_distribute {f : Formula} (h : IsNnf f) : IsCnf f.distribute := by
  induction h with
  | literal h =>
    rw [h.distribute_eq]
    exact .clause (.literal h)
  | and _ _ ihl ihr => exact .and ihl ihr
  | or _ _ ihl ihr => exact isCnf_join ihl ihr

theorem isCnf_cnf (f : Formula) : IsCnf f.cnf := isCnf_distribute (isNnf_signed _ _)

/-! ### Rewriting again -/

theorem signed_expandIff (f : Formula) (positive : Bool) :
    f.expandIff.signed positive = f.signed positive := by
  induction f generalizing positive with
  | atom name => rfl
  | verum => rfl
  | falsum => rfl
  | not inner ih => exact ih _
  | binary op lhs rhs ihl ihr =>
    cases op <;> cases positive <;> simp [expandIff, signed, ihl, ihr]

theorem signed_expandImplies (f : Formula) (positive : Bool) :
    f.expandImplies.signed positive = f.signed positive := by
  induction f generalizing positive with
  | atom name => rfl
  | verum => rfl
  | falsum => rfl
  | not inner ih => exact ih _
  | binary op lhs rhs ihl ihr =>
    cases op <;> cases positive <;> simp [expandImplies, signed, ihl, ihr]

/-- Moving negations down expands whatever it meets, so it needs no earlier step. -/
theorem nnf_expandImplies_expandIff (f : Formula) : f.expandIff.expandImplies.nnf = f.nnf := by
  rw [nnf, signed_expandImplies, signed_expandIff, nnf]

/-- What is distributed stays as it is below a disjunction. -/
theorem distribute_joinRight {l r : Formula} (hand : ∀ a b, l ≠ and a b)
    (hl : l.distribute = l) (hr : r.distribute = r) : (joinRight l r).distribute = joinRight l r := by
  fun_induction joinRight l r with
  | case1 r r' ih ih' =>
    obtain ⟨-, h, h'⟩ := binary.inj hr
    rw [distribute, ih h, ih' h']
  | case2 r hright =>
    rw [distribute, hl, hr, join_of_ne_and hand, joinRight_of_ne_and hright]

theorem distribute_join {l r : Formula} (hl : l.distribute = l) (hr : r.distribute = r) :
    (join l r).distribute = join l r := by
  fun_induction join l r with
  | case1 l l' r ih ih' =>
    obtain ⟨-, h, h'⟩ := binary.inj hl
    rw [distribute, ih h hr, ih' h' hr]
  | case2 l r hand => exact distribute_joinRight hand hl hr

theorem distribute_distribute (f : Formula) : f.distribute.distribute = f.distribute := by
  fun_induction distribute f with
  | case1 lhs rhs ihl ihr => exact distribute_join ihl ihr
  | case2 lhs rhs ihl ihr => rw [distribute, ihl, ihr]
  | case3 f hor hand => exact distribute.eq_3 f hor hand

/-- **Distribution as repeated rewriting**: a disjunction of distributed operands is
distributed over the conjuncts of one of them, and the disjunctions so made are
distributed again. -/
theorem distribute_or (l r : Formula) : (or l r).distribute =
    match l.distribute, r.distribute with
    | and a b, r => and (or a r).distribute (or b r).distribute
    | l, and a b => and (or l a).distribute (or l b).distribute
    | l, r => or l r := by
  have hl := distribute_distribute l
  have hr := distribute_distribute r
  rw [distribute]
  generalize l.distribute = l at hl ⊢
  generalize r.distribute = r at hr ⊢
  split
  · next a b r =>
    obtain ⟨-, ha, hb⟩ := binary.inj hl
    rw [join, distribute, distribute, ha, hb, hr]
  · next l a b hand =>
    obtain ⟨-, ha, hb⟩ := binary.inj hr
    rw [join_of_ne_and hand, joinRight, distribute, distribute, hl, ha, hb, join_of_ne_and hand,
      join_of_ne_and hand]
  · next l r hand hright => rw [join_of_ne_and hand, joinRight_of_ne_and hright]

/-! ### Formulas in normal form -/

theorem IsClause.isNnf {f : Formula} (h : IsClause f) : IsNnf f := by
  induction h with
  | literal h => exact .literal h
  | or _ _ ihl ihr => exact .or ihl ihr

theorem IsCnf.isNnf {f : Formula} (h : IsCnf f) : IsNnf f := by
  induction h with
  | clause h => exact h.isNnf
  | and _ _ ihl ihr => exact .and ihl ihr

theorem IsNnf.expandIff_eq {f : Formula} (h : IsNnf f) : f.expandIff = f := by
  induction h with
  | literal h => cases h <;> rfl
  | and _ _ ihl ihr | or _ _ ihl ihr =>
    rw [expandIff, ihl, ihr]
    exact Connective.noConfusion

theorem IsNnf.expandImplies_eq {f : Formula} (h : IsNnf f) : f.expandImplies = f := by
  induction h with
  | literal h => cases h <;> rfl
  | and _ _ ihl ihr | or _ _ ihl ihr =>
    rw [expandImplies, ihl, ihr]
    exact Connective.noConfusion

theorem IsNnf.nnf_eq {f : Formula} (h : IsNnf f) : f.nnf = f := by
  induction h with
  | literal h => cases h <;> rfl
  | and _ _ ihl ihr | or _ _ ihl ihr =>
    unfold nnf at ihl ihr ⊢
    rw [signed, ihl, ihr, if_pos rfl]

/-- Operands that are clauses hold no conjunction, so joining them is writing a disjunction. -/
theorem IsClause.distribute_eq {f : Formula} (h : IsClause f) : f.distribute = f := by
  induction h with
  | literal h => exact h.distribute_eq
  | or hl hr ihl ihr =>
    rw [distribute, ihl, ihr, join_of_ne_and hl.ne_and, joinRight_of_ne_and hr.ne_and]

theorem IsCnf.distribute_eq {f : Formula} (h : IsCnf f) : f.distribute = f := by
  induction h with
  | clause h => exact h.distribute_eq
  | and _ _ ihl ihr => rw [distribute, ihl, ihr]

theorem IsCnf.cnf_eq {f : Formula} (h : IsCnf f) : f.cnf = f := by
  unfold cnf
  rw [h.isNnf.expandIff_eq, h.isNnf.expandImplies_eq, h.isNnf.nnf_eq, h.distribute_eq]

/-- **Rewriting leaves just the formulas in conjunctive normal form as they are**, with their
brackets, and so does each of its steps. So the second rewriting changes nothing, neither the
tree nor its clauses. -/
theorem cnf_fixed_iff (f : Formula) :
    (f.cnf = f ↔ IsCnf f) ∧
    (IsCnf f → f.expandIff = f ∧ f.expandImplies = f ∧ f.nnf = f ∧ f.distribute = f) ∧
    f.cnf.cnf = f.cnf ∧ f.cnf.signedClauses = f.signedClauses := by
  have hcnf : f.cnf.cnf = f.cnf := (isCnf_cnf f).cnf_eq
  refine ⟨⟨fun h => ?_, IsCnf.cnf_eq⟩, fun h => ?_, hcnf, ?_⟩
  · rw [← h]
    exact isCnf_cnf f
  · exact ⟨h.isNnf.expandIff_eq, h.isNnf.expandImplies_eq, h.isNnf.nnf_eq, h.distribute_eq⟩
  · unfold signedClauses
    rw [hcnf]

/-- Brackets that lean both ways, with constants among the literals. -/
theorem cnf_fixed_iff_brackets :
    let f : Formula := and (or (atom "A") (or (not (atom "B")) falsum))
      (and (or (or verum (atom "C")) (atom "A")) (not (atom "C")))
    IsCnf f ∧ f.distribute = f ∧ f.cnf = f ∧ f.signedClauses =
      .ok [[⟨"A", true⟩, ⟨"B", false⟩], [⟨"C", false⟩]] := by
  intro f
  have hf : IsCnf f :=
    .and (.clause (.or (.literal (.atom "A")) (.or (.literal (.notAtom "B")) (.literal .falsum))))
      (.and (.clause (.or (.or (.literal .verum) (.literal (.atom "C"))) (.literal (.atom "A"))))
        (.clause (.literal (.notAtom "C"))))
  obtain ⟨hfixed, hsteps, -, -⟩ := cnf_fixed_iff f
  obtain ⟨-, -, -, hdistribute⟩ := hsteps hf
  exact ⟨hf, hdistribute, hfixed.mpr hf, rfl⟩

end Formula

/-! ### The clauses -/

/-- Whether an atom of the clause admits its sign. -/
def SignedClause.admitted (x : String → Truth) (c : SignedClause) : Bool :=
  c.any fun l => (x l.atom).admits l.positive

namespace Formula

/-- A clause has literals: none when it is trivially true, otherwise such that it is
designated just when one of them is admitted. -/
theorem IsClause.exists_literals {f : Formula} (h : IsClause f) : ∃ o, f.literals = .ok o ∧
    (∀ x, (f.eval x).designated = o.all (SignedClause.admitted x)) ∧
    ∀ c ∈ o, ∀ l ∈ c, l.atom ∈ f.leaves := by
  induction h with
  | literal h =>
    cases h with
    | atom name =>
      exact ⟨_, rfl, fun x => by simp [eval, SignedClause.admitted, Truth.designated_eq_admits],
        by simp [leaves]⟩
    | notAtom name =>
      exact ⟨_, rfl, fun x => by
        simp [eval, SignedClause.admitted, Truth.designated_eq_admits, Truth.admits_neg],
        by simp [leaves]⟩
    | verum => exact ⟨_, rfl, fun _ => rfl, by simp⟩
    | falsum => exact ⟨_, rfl, fun _ => rfl, by simp⟩
  | @or l r _ _ ihl ihr =>
    obtain ⟨ol, hl, hlx, hlm⟩ := ihl
    obtain ⟨or, hr, hrx, hrm⟩ := ihr
    have hx : ∀ x, ((binary .or l r).eval x).designated =
        ((l.eval x).designated || (r.eval x).designated) := fun x => by
      simp only [eval, Connective.apply]
      cases l.eval x <;> cases r.eval x <;> rfl
    simp only [literals, hl, hr, bind, Except.bind, pure, Except.pure, hx, hlx, hrx]
    refine ⟨_, rfl, ?_⟩
    cases ol with
    | none => simp
    | some c =>
      cases or with
      | none => simp
      | some d =>
        refine ⟨fun x => by simp [SignedClause.admitted], ?_⟩
        simp only [Option.mem_def, Option.some.injEq, forall_eq'] at hlm hrm ⊢
        intro a ha
        unfold leaves
        rw [List.mem_append]
        exact (List.mem_append.mp ha).imp (hlm a) (hrm a)

theorem IsClause.clauses_eq {f : Formula} (h : IsClause f) :
    f.clauses = f.literals.map Option.toList := by
  rcases h with ⟨_ | _ | _ | _⟩ | _ <;> rfl

/-- **A formula in conjunctive normal form has clauses**, and it is designated
just when each of them holds an admitted literal. -/
theorem IsCnf.exists_clauses {f : Formula} (h : IsCnf f) : ∃ cs, f.clauses = .ok cs ∧
    (∀ x, (f.eval x).designated = cs.all (SignedClause.admitted x)) ∧
    ∀ c ∈ cs, ∀ l ∈ c, l.atom ∈ f.leaves := by
  induction h with
  | @clause f h =>
    obtain ⟨o, ho, hx, hm⟩ := h.exists_literals
    refine ⟨o.toList, by rw [h.clauses_eq, ho]; rfl, fun x => ?_,
      fun c hc => hm c (Option.mem_toList.mp hc)⟩
    rw [hx]
    cases o <;> simp
  | @and l r _ _ ihl ihr =>
    obtain ⟨cl, hl, hlx, hlm⟩ := ihl
    obtain ⟨cr, hr, hrx, hrm⟩ := ihr
    refine ⟨cl ++ cr, by simp [clauses, hl, hr, bind, Except.bind, pure, Except.pure], ?_, ?_⟩
    · intro x
      rw [List.all_append, ← hlx, ← hrx]
      simp only [eval, Connective.apply]
      cases l.eval x <;> cases r.eval x <;> rfl
    · intro c hc a ha
      unfold leaves
      rw [List.mem_append]
      exact (List.mem_append.mp hc).imp (fun h => hlm c h a ha) (fun h => hrm c h a ha)

theorem exists_signedClauses (f : Formula) : ∃ cs, f.signedClauses = .ok cs ∧
    (∀ x, (f.eval x).designated = cs.all (SignedClause.admitted x)) ∧
    ∀ c ∈ cs, ∀ l ∈ c, l.atom ∈ f.leaves := by
  obtain ⟨cs, hcs, hx, hm⟩ := (isCnf_cnf f).exists_clauses
  refine ⟨cs, hcs, fun x => ?_, fun c hc l hl => mem_leaves_cnf.mp (hm c hc l hl)⟩
  rw [← hx, eval_cnf]

/-- **Every step keeps the value of every formula**, under every valuation. The last one
ends in conjunctive normal form, so there are clauses, and the formula is designated just
when each of them holds an atom that is a glut or has the value of its sign. -/
theorem normalForms_keep_value (f : Formula) :
    (∀ x, f.expandIff.eval x = f.eval x ∧ f.expandImplies.eval x = f.eval x ∧
      f.nnf.eval x = f.eval x ∧ f.distribute.eval x = f.eval x ∧ f.cnf.eval x = f.eval x) ∧
    IsCnf f.cnf ∧
    ∃ cs, f.signedClauses = .ok cs ∧ ∀ x, (f.eval x).designated ↔
      ∀ c ∈ cs, ∃ l ∈ c, x l.atom = .b ∨ x l.atom = .ofBool l.positive := by
  refine ⟨fun x => ⟨eval_expandIff x f, eval_expandImplies x f, eval_nnf x f, eval_distribute x f,
    eval_cnf x f⟩, isCnf_cnf f, ?_⟩
  obtain ⟨cs, hcs, hd, -⟩ := exists_signedClauses f
  refine ⟨cs, hcs, fun x => ?_⟩
  simp only [hd, List.all_eq_true, SignedClause.admitted, List.any_eq_true, Truth.admits_iff]

end Formula
end LeastGlut
