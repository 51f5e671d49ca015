/-
# Without gluts the logic is Boolean

A valuation that gives no atom a glut gives every formula its Boolean value
(`Formula.eval_ofBool`), so it designates a knowledge base just when the Booleans it
picks make every formula true (`KnowledgeBase.designates_ofBool_iff`). A model of the
hard clauses costs nothing only if no atom is a glut, and every such valuation is had
for nothing. So the least cost is zero just when the knowledge base is satisfiable in
Boolean logic, and a model that costs nothing is read as an assignment that satisfies
it.

Key definitions: `Formula.isTrue`, `KnowledgeBase.TrueUnder`.
-/
import LeastGlut.Proofs.Mirrors

namespace LeastGlut

/-! ### Boolean truth -/

/-- The Boolean value of a formula, when the atoms have these Booleans. -/
def Formula.isTrue (p : String → Bool) : Formula → Bool
  | atom name => p name
  | verum => true
  | falsum => false
  | not inner => !inner.isTrue p
  | binary op lhs rhs => op.onBools (lhs.isTrue p) (rhs.isTrue p)

theorem Truth.neg_ofBool (q : Bool) : (ofBool q).neg = ofBool !q := by
  cases q <;> rfl

theorem Connective.apply_ofBool (op : Connective) (q r : Bool) :
    op.apply (.ofBool q) (.ofBool r) = .ofBool (op.onBools q r) := by
  cases op <;> cases q <;> cases r <;> rfl

theorem Truth.designated_ofBool (q : Bool) : (ofBool q).designated = q := by
  cases q <;> rfl

/-- A value that is no glut is that of a Boolean, true if the value is designated. -/
theorem Truth.ofBool_designated {x : Truth} (h : x ≠ b) : ofBool x.designated = x := by
  cases x with
  | t => rfl
  | f => rfl
  | b => exact absurd rfl h

theorem Truth.ofBool_ne_b (q : Bool) : ofBool q ≠ b := by
  cases q <;> decide

namespace Formula

/-- **Without gluts** a formula has its Boolean value. -/
theorem eval_ofBool (p : String → Bool) (f : Formula) :
    f.eval (fun a => .ofBool (p a)) = .ofBool (f.isTrue p) := by
  induction f with
  | atom name => rfl
  | verum => rfl
  | falsum => rfl
  | not inner ih =>
    unfold eval
    rw [ih, Truth.neg_ofBool]
    rfl
  | binary op lhs rhs ihl ihr =>
    unfold eval
    rw [ihl, ihr, Connective.apply_ofBool]
    rfl

end Formula

namespace KnowledgeBase

variable {kb : KnowledgeBase} {form : ClauseForm} {hard : List Clause} {v : Ident → Bool}
  {x : String → Truth} {p : String → Bool}

/-- Every formula is true in Boolean logic. -/
def TrueUnder (kb : KnowledgeBase) (p : String → Bool) : Prop := ∀ f ∈ kb.formulas, f.isTrue p

instance (p : String → Bool) : Decidable (kb.TrueUnder p) :=
  inferInstanceAs (Decidable (∀ f ∈ kb.formulas, _))

theorem designates_ofBool_iff : (kb.Designates fun a => .ofBool (p a)) ↔ kb.TrueUnder p := by
  unfold Designates TrueUnder
  simp only [Formula.eval_ofBool, Truth.designated_ofBool]

/-- No formula holds a glutted atom just when no atom is a glut. -/
theorem glutted_eq_nil_iff : kb.glutted x = [] ↔ ∀ a ∈ kb.atoms, x a ≠ .b := by
  unfold glutted
  rw [List.filter_eq_nil_iff]
  constructor
  · intro h a ha hb
    obtain ⟨f, hf, haf⟩ := mem_atoms.mp ha
    obtain ⟨id, hid⟩ := List.mem_iff_getElem?.mp hf
    refine h id (List.mem_range.mpr (List.getElem?_eq_some_iff.mp hid).1) ?_
    rw [hid, Option.any_some]
    exact Formula.glutted_iff.mpr ⟨a, haf, hb⟩
  · intro h id _ hg
    obtain ⟨f, hf, hg⟩ := (Option.any_eq_true _ _).mp hg
    obtain ⟨a, ha, hb⟩ := Formula.glutted_iff.mp hg
    exact h a (mem_atoms.mpr ⟨f, List.mem_of_getElem? hf, ha⟩) hb

theorem glutted_ofBool : (kb.glutted fun a => .ofBool (p a)) = [] :=
  glutted_eq_nil_iff.mpr fun a _ => Truth.ofBool_ne_b (p a)

/-- A valuation that designates the knowledge base and makes no atom a glut picks a
Boolean for each atom, and these make every formula true. -/
theorem Designates.exists_trueUnder (hx : kb.Designates x) (hg : kb.glutted x = []) :
    ∃ p, kb.TrueUnder p ∧ ∀ a ∈ kb.atoms, x a = .ofBool (p a) := by
  have hp : ∀ a ∈ kb.atoms, x a = .ofBool (x a).designated := fun a ha =>
    (Truth.ofBool_designated (glutted_eq_nil_iff.mp hg a ha)).symm
  exact ⟨fun a => (x a).designated, designates_ofBool_iff.mp ((designates_congr hp).mp hx), hp⟩

end KnowledgeBase

/-! ### Models that cost nothing -/

/-- A model that costs nothing is least as it is listed. -/
theorem WeightedClauses.isLeast_listing {w : WeightedClauses} {v : Ident → Bool}
    (hw : w.Numbered) (hv : ∀ c ∈ w.hard, c.holds v) (hcost : w.cost v = 0) :
    w.IsLeast ⟨0, Outcome.listing w.varCount v⟩ := by
  have hlisted := attains_outcomeOf hw hv
  have hle := cost_outcomeOf_le hw v
  rw [hcost] at hle
  have hzero : w.outcomeOf (Outcome.listing w.varCount v) =
      ⟨0, Outcome.listing w.varCount v⟩ := congrArg (Outcome.mk · _) (Nat.eq_zero_of_le_zero hle)
  rw [hzero] at hlisted
  exact ⟨hlisted, fun u _ => Nat.zero_le _⟩

namespace KnowledgeBase

variable {kb : KnowledgeBase} {form : ClauseForm} {hard : List Clause} {v : Ident → Bool}

/-- In a model that costs nothing no atom is a glut. -/
theorem exists_trueUnder_of_cost_eq_zero (h : kb.namedCount < 2 ^ 31)
    (hv : (kb.encodingOf form hard).Fits kb v)
    (hcost : (kb.encodingOf form hard).clauses.cost v = 0) :
    ∃ p, kb.TrueUnder p ∧ ∀ a ∈ kb.atoms, kb.table.reading v a = .ofBool (p a) := by
  have hflagged : kb.flagged v = [] := by
    rw [cost_encodingOf h] at hcost
    exact List.eq_nil_of_length_eq_zero hcost
  have hglutted := glutted_sublist_flagged hv
  rw [hflagged] at hglutted
  exact hv.designated.exists_trueUnder (List.sublist_nil.mp hglutted)

/-- The indicators of an atom are those of the value that is read. -/
theorem exists_indicators (hv : (kb.encodingOf form hard).Fits kb v) {a : String}
    (ha : a ∈ kb.atoms) : ∃ i, (kb.encodingOf form hard).atoms.get? a = some i ∧
      ∀ y, v (i.get y) ↔ kb.table.reading v a = y := by
  obtain ⟨i, hi, hs⟩ := hv.single a ha
  have hr : kb.table.reading v a = i.value v := by
    unfold IndicatorTable.reading
    rw [show kb.table.get? a = some i from hi]
  rw [hr]
  exact ⟨i, hi, Indicators.single_iff.mp hs⟩

/-- A least outcome that lists an assignment is read as the valuation of the assignment. -/
theorem exists_interpret_listing (h : kb.identCount form < 2 ^ 31) {cost : Nat}
    (hleast : (kb.encodingOf form hard).clauses.IsLeast
      ⟨cost, Outcome.listing (kb.identCount form) v⟩)
    (hv : (kb.encodingOf form hard).Fits kb
      (Outcome.valueIn (Outcome.listing (kb.identCount form) v))) :
    ∃ s, (kb.encodingOf form hard).interpret ⟨cost, Outcome.listing (kb.identCount form) v⟩ =
        .ok s ∧ s.valuation.Perm (kb.atoms.map fun a => ⟨a, kb.table.reading v a⟩) := by
  have hagree : Agree kb.namedCount v (Outcome.valueIn (Outcome.listing (kb.identCount form) v)) :=
    (Outcome.valueIn_listing h v).mono (kb.namedCount_le form)
  refine ⟨_, interpret_eq h hleast.toAttains hv, ?_⟩
  rw [← IndicatorTable.reading_congr (wellFormed_table (namedCount_lt h)) below_table hagree]
  exact List.mergeSort_perm _ _

/-- **The logic is conservative.** Every knowledge base has an encoding in either form, and
as long as no literal of it wraps round, the least cost of a model of the hard clauses is zero
just when the formulas are satisfiable in Boolean logic. In a model that costs nothing no atom
is a glut then, and it is read back as Booleans under which every formula is true. -/
theorem isLeast_zero_iff_trueUnder (kb : KnowledgeBase) (form : ClauseForm) :
    ∃ e, kb.encode form = .ok e ∧ (kb.identCount form < 2 ^ 31 →
      (IsLeast {n | ∃ v, (∀ c ∈ e.clauses.hard, c.holds v) ∧ e.clauses.cost v = n} 0 ↔
        ∃ p, kb.TrueUnder p) ∧
      ∀ v, (∀ c ∈ e.clauses.hard, c.holds v) → e.clauses.cost v = 0 →
        ∃ p, kb.TrueUnder p ∧
          (∀ a ∈ kb.atoms, ∃ i, e.atoms.get? a = some i ∧
            v i.t = p a ∧ v i.f = !p a ∧ v i.b = false) ∧
          ∃ s, e.interpret ⟨0, Outcome.listing e.clauses.varCount v⟩ = .ok s ∧
            s.valuation.Perm (kb.atoms.map fun a => ⟨a, .ofBool (p a)⟩)) := by
  obtain ⟨e, he⟩ := kb.encode_succeeds form
  refine ⟨e, he, fun h => ?_⟩
  have hn := namedCount_lt h
  obtain ⟨hard, he', hp⟩ := exists_encode kb form h
  obtain rfl := Except.ok.inj (he'.symm.trans he)
  have hw := numbered_encodingOf h hp.within
  have hfits : ∀ v, (∀ c ∈ (kb.encodingOf form hard).clauses.hard, c.holds v) →
      (kb.encodingOf form hard).Fits kb v := fun v hv =>
    (exists_holds_iff_fits hn hp).mp ⟨v, fun _ _ => rfl, hv⟩
  refine ⟨⟨fun hleast => ?_, fun hsat => ?_⟩, fun v hv hcost => ?_⟩
  · obtain ⟨v, hv, hcost⟩ := hleast.1
    obtain ⟨p, hp, -⟩ := exists_trueUnder_of_cost_eq_zero hn (hfits v hv) hcost
    exact ⟨p, hp⟩
  · obtain ⟨p, htrue⟩ := hsat
    obtain ⟨v, hv, hcost⟩ := exists_cost_eq hn hp (designates_ofBool_iff.mpr htrue)
    rw [glutted_ofBool] at hcost
    exact ⟨⟨v, hv, hcost⟩, fun n _ => Nat.zero_le n⟩
  · obtain ⟨p, htrue, hread⟩ := exists_trueUnder_of_cost_eq_zero hn (hfits v hv) hcost
    refine ⟨p, htrue, fun a ha => ?_, ?_⟩
    · obtain ⟨i, hi, hset⟩ := exists_indicators (hfits v hv) ha
      rw [hread a ha] at hset
      have hset' : ∀ y, v (i.get y) = decide (Truth.ofBool (p a) = y) := fun y => by
        rw [Bool.eq_iff_iff, hset, decide_eq_true_iff]
      refine ⟨i, hi, (hset' .t).trans ?_, (hset' .f).trans ?_, (hset' .b).trans ?_⟩ <;>
        cases p a <;> rfl
    · have hleast := WeightedClauses.isLeast_listing hw hv hcost
      obtain ⟨s, hs, hvaluation⟩ := exists_interpret_listing h hleast (hfits _ hleast.hard)
      have hentries : kb.atoms.map (fun a => Solution.Entry.mk a (kb.table.reading v a)) =
          kb.atoms.map fun a => ⟨a, .ofBool (p a)⟩ :=
        List.map_congr_left fun a ha => by rw [hread a ha]
      exact ⟨s, hs, hentries ▸ hvaluation⟩

theorem isLeast_zero_iff_trueUnder_chain :
    let kb : KnowledgeBase := ⟨[.implies (.atom "A") (.atom "B"),
      .iff (.atom "B") (.not (.atom "C")), .atom "A"]⟩
    kb.identCount .tseitin < 2 ^ 31 ∧ ∃ e v s, kb.encode .tseitin = .ok e ∧
      (∀ c ∈ e.clauses.hard, c.holds v) ∧ e.clauses.cost v = 0 ∧
      e.interpret ⟨0, Outcome.listing e.clauses.varCount v⟩ = .ok s ∧
      s.valuation.Perm [⟨"A", .t⟩, ⟨"B", .t⟩, ⟨"C", .f⟩] := by
  intro kb
  have h : kb.identCount .tseitin < 2 ^ 31 := by decide
  obtain ⟨e, he, hclauses⟩ := isLeast_zero_iff_trueUnder kb .tseitin
  obtain ⟨hzero, hread⟩ := hclauses h
  obtain ⟨v, hv, hcost⟩ := (hzero.mpr ⟨fun a => a != "C", by decide⟩).1
  obtain ⟨p, htrue, -, s, hs, hvaluation⟩ := hread v hv hcost
  refine ⟨h, e, v, s, he, hv, hcost, hs, ?_⟩
  have hatoms : kb.atoms = ["A", "B", "C"] := by decide
  have hp : p "A" = true ∧ p "B" = true ∧ p "C" = false := by
    simp only [TrueUnder, kb, List.forall_mem_cons, Formula.isTrue, Connective.onBools] at htrue
    revert htrue
    cases p "A" <;> cases p "B" <;> cases p "C" <;> simp
  rw [hatoms] at hvaluation
  simp only [List.map_cons, List.map_nil, hp.1, hp.2.1, hp.2.2] at hvaluation
  exact hvaluation

/-- With enough atoms that two mirror each other, no cost is least though all atoms can be
true. -/
theorem not_isLeast_zero_numerals :
    (∃ p, (numerals 715827884).TrueUnder p) ∧
      ∀ form e, (numerals 715827884).encode form = .ok e →
        ¬IsLeast {n | ∃ v, (∀ c ∈ e.clauses.hard, c.holds v) ∧ e.clauses.cost v = n} 0 := by
  refine ⟨⟨fun _ => true, fun f hf => ?_⟩, fun form e he hleast => ?_⟩
  · obtain ⟨i, rfl⟩ := mem_numerals hf
    rfl
  · obtain ⟨v, hv, -⟩ := hleast.1
    refine not_holds_of_length_atoms he ?_ v hv
    rw [length_atoms_numerals]
    decide

end KnowledgeBase
end LeastGlut
