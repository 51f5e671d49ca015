/-
# Ground rules of a program

A binding puts nodes, names, values and numbers for the variables of a rule; a
variable that is counted or chosen inside the rule ranges over all nodes or all
values (`Program.GenericRule.ground`). The ground rules of a program are its
facts and all instances of its generic rules (`Program.Ground`).

Written out, they either conclude an atom (`Program.Concludes`) or rule out
that a root is false (`Program.Denies`), and these are all
(`Program.ground_iff`).

Key definitions: `GroundAtom`, `Program.Binding`, `Program.GenericRule.ground`,
`Program.Ground`, `Program.Concludes`.
-/
import LeastGlut.Proofs.AnswerSets
import LeastGlut.Proofs.Descriptions

namespace LeastGlut

open AnswerSets

/-- The ground atoms of a program. -/
inductive GroundAtom
  | fact (fact : Fact)
  | value (v : Truth)
  | atom (name : String)
  | val (name : String) (v : Truth)
  | holds (n : Node) (v : Truth)
  | contains (root n : Node)
  | inconsistent (id : Nat)

namespace Program

/-! ### Bindings -/

/-- What is put for the variables of a rule. -/
structure Binding where
  node : String → Node
  name : String → String
  value : String → Truth
  number : String → Nat

namespace Binding

def putNode (e : Binding) (x : String) (n : Node) : Binding :=
  { e with node := fun y => if y = x then n else e.node y }

def putValue (e : Binding) (x : String) (v : Truth) : Binding :=
  { e with value := fun y => if y = x then v else e.value y }

end Binding

def ValueTerm.ground (e : Binding) : ValueTerm → Truth
  | value v => v
  | var x => e.value x

def Pattern.ground (e : Binding) : Pattern → GroundAtom
  | kbFormula id root => .fact (.kbFormula (e.number id) (e.node root))
  | isAtom n a => .fact (.isAtom (e.node n) (e.name a))
  | isTrue n => .fact (.isTrue (e.node n))
  | isFalse n => .fact (.isFalse (e.node n))
  | negation n m => .fact (.negation (e.node n) (e.node m))
  | kind j n => .fact (j.kind (e.node n))
  | arity j n size => .fact (j.arity (e.node n) (e.number size))
  | link j m n => .fact (j.link (e.node m) (e.node n))
  | value v => .value (v.ground e)
  | atom a => .atom (e.name a)
  | val a v => .val (e.name a) (v.ground e)
  | holds n v => .holds (e.node n) (v.ground e)
  | contains root n => .contains (e.node root) (e.node n)
  | inconsistent id => .inconsistent (e.number id)

/-- A pattern is written with the predicate and as many arguments as the facts it stands
for. -/
theorem Pattern.predicate_of_ground {e : Binding} {p : Pattern} {fact : Fact}
    (h : p.ground e = .fact fact) :
    fact.predicate = p.predicate ∧ fact.arguments.length = p.arguments.length := by
  cases p with
  | kind j n =>
    cases h
    cases j <;> exact ⟨rfl, rfl⟩
  | arity j n size =>
    cases h
    cases j
    · exact ⟨show "num_conjuncts" = "num_" ++ "conjunct" ++ "s" by decide, rfl⟩
    · exact ⟨show "num_disjuncts" = "num_" ++ "disjunct" ++ "s" by decide, rfl⟩
  | link j m n =>
    cases h
    cases j
    · exact ⟨show "conjunct_of" = "conjunct" ++ "_of" by decide, rfl⟩
    · exact ⟨show "disjunct_of" = "disjunct" ++ "_of" by decide, rfl⟩
  | _ => cases h <;> exact ⟨rfl, rfl⟩

def Requirement.ground (e : Binding) : Requirement → Condition Node GroundAtom
  | present p => .present (p.ground e)
  | absent p => .absent (p.ground e)
  | count x ps size => .count (fun n => ps.map (Pattern.ground (e.putNode x n))) (e.number size)

def Conclusion.ground (e : Binding) : Conclusion → Head GroundAtom
  | atom p => .atom (p.ground e)
  | choice least most x p condition => .choice least most (Truth.all.map fun v =>
    (p.ground (e.putValue x v), [condition.ground (e.putValue x v)]))
  | falsity => .falsity

def GenericRule.ground (e : Binding) (r : GenericRule) : Rule Node GroundAtom :=
  ⟨r.head.ground e, r.body.map (Requirement.ground e)⟩

/-- The facts, what the values are, and the instances of the generic rules. -/
inductive Ground (p : Program) : Rule Node GroundAtom → Prop
  | fact {fact : Fact} : fact ∈ p.facts → Ground p ⟨.atom (.fact fact), []⟩
  | value {vs : List Truth} {v : Truth} : .values vs ∈ statements → v ∈ vs →
    Ground p ⟨.atom (.value v), []⟩
  | rule {r : GenericRule} : .rule r ∈ statements → ∀ e, Ground p (r.ground e)

/-- The ground rules of a program. -/
def rules (p : Program) : Set (Rule Node GroundAtom) := {r | p.Ground r}

/-- The ground rules that conclude something. -/
def definite (p : Program) : Set (Rule Node GroundAtom) := {r | p.Ground r ∧ r.head ≠ .falsity}

/-! ### The rules written out -/

/-- The ground rules that conclude an atom. A junction stands for the rules of
conjunctions and for those of disjunctions. -/
inductive Concludes (p : Program) : Rule Node GroundAtom → Prop
  | fact {fact : Fact} : fact ∈ p.facts → Concludes p ⟨.atom (.fact fact), []⟩
  /-- One of `value(t; f; b).` -/
  | value (v : Truth) : Concludes p ⟨.atom (.value v), []⟩
  /-- An instance of `atom(A) :- formula_is_atom(_, A).` -/
  | atom (n : Node) (a : String) :
    Concludes p ⟨.atom (.atom a), [.present (.fact (.isAtom n a))]⟩
  /-- An instance of `1 { val(A, V) : value(V) } 1 :- atom(A).` -/
  | choose (a : String) :
    Concludes p ⟨.choice 1 1 (Truth.all.map fun v => (.val a v, [.value v])), [.present (.atom a)]⟩
  /-- An instance of `holds(F, V) :- formula_is_atom(F, A), val(A, V).` -/
  | leaf (n : Node) (a : String) (v : Truth) :
    Concludes p ⟨.atom (.holds n v), [.present (.fact (.isAtom n a)), .present (.val a v)]⟩
  /-- An instance of `holds(F, t) :- formula_is_true(F).` -/
  | verum (n : Node) : Concludes p ⟨.atom (.holds n .t), [.present (.fact (.isTrue n))]⟩
  /-- An instance of `holds(F, f) :- formula_is_false(F).` -/
  | falsum (n : Node) : Concludes p ⟨.atom (.holds n .f), [.present (.fact (.isFalse n))]⟩
  /-- An instance of `holds(F, t) :- negation(F, G), holds(G, f).` for `f`, and of the
  two rules after it for `t` and `b`. -/
  | negation (n m : Node) (v : Truth) :
    Concludes p ⟨.atom (.holds n v.neg), [.present (.fact (.negation n m)), .present (.holds m v)]⟩
  /-- An instance of `holds(F, t) :- conjunction(F), num_conjuncts(F, N),
  #count { G : conjunct_of(G, F), holds(G, t) } = N.` or of its dual. -/
  | all (j : Junction) (n : Node) (size : Nat) :
    Concludes p ⟨.atom (.holds n j.unit), [.present (.fact (j.kind n)),
      .present (.fact (j.arity n size)),
      .count (fun m => [.fact (j.link m n), .holds m j.unit]) size]⟩
  /-- An instance of `holds(F, f) :- conjunction(F), conjunct_of(G, F), holds(G, f).` or
  of its dual. -/
  | any (j : Junction) (n m : Node) :
    Concludes p ⟨.atom (.holds n j.zero), [.present (.fact (j.kind n)),
      .present (.fact (j.link m n)), .present (.holds m j.zero)]⟩
  /-- An instance of `holds(F, b) :- conjunction(F), not holds(F, t), not holds(F, f).` or
  of its dual. -/
  | otherwise (j : Junction) (n : Node) :
    Concludes p ⟨.atom (.holds n .b), [.present (.fact (j.kind n)), .absent (.holds n .t),
      .absent (.holds n .f)]⟩
  /-- An instance of `contains(F, F) :- kb_formula(_, F).` -/
  | containsRoot (id : Nat) (n : Node) :
    Concludes p ⟨.atom (.contains n n), [.present (.fact (.kbFormula id n))]⟩
  /-- An instance of `contains(F, G) :- contains(F, H), negation(H, G).` -/
  | containsInner (root n m : Node) :
    Concludes p ⟨.atom (.contains root m), [.present (.contains root n),
      .present (.fact (.negation n m))]⟩
  /-- An instance of `contains(F, G) :- contains(F, H), conjunct_of(G, H).` or of its
  dual. -/
  | containsOperand (j : Junction) (root n m : Node) :
    Concludes p ⟨.atom (.contains root m), [.present (.contains root n),
      .present (.fact (j.link m n))]⟩
  /-- An instance of `f_inconsistent(I) :- kb_formula(I, F), contains(F, G),
  formula_is_atom(G, A), val(A, b).` -/
  | inconsistent (id : Nat) (root n : Node) (a : String) :
    Concludes p ⟨.atom (.inconsistent id), [.present (.fact (.kbFormula id root)),
      .present (.contains root n), .present (.fact (.isAtom n a)), .present (.val a .b)]⟩

/-- The instances of `:- kb_formula(_, F), holds(F, f).` -/
inductive Denies : Rule Node GroundAtom → Prop
  | refuse (id : Nat) (n : Node) :
    Denies ⟨.falsity, [.present (.fact (.kbFormula id n)), .present (.holds n .f)]⟩

theorem rule_mem_statements {g : GenericRule} : .rule g ∈ statements ↔
    g ∈ [GenericRule.atom, .choice, .leaf, .verum, .falsum, .negation .f, .negation .t,
      .negation .b, .all .conjunction, .any .conjunction, .otherwise .conjunction,
      .all .disjunction, .any .disjunction, .otherwise .disjunction, .denial, .containsRoot,
      .containsBelow (.negation "H" "G"), .containsBelow (.link .conjunction "G" "H"),
      .containsBelow (.link .disjunction "G" "H"), .inconsistent] := by
  simp [statements, blocks]

theorem GenericRule.ground_all (e : Binding) (j : Junction) : (all j).ground e =
    ⟨.atom (.holds (e.node "F") j.unit), [.present (.fact (j.kind (e.node "F"))),
      .present (.fact (j.arity (e.node "F") (e.number "N"))),
      .count (fun m => [.fact (j.link m (e.node "F")), .holds m j.unit]) (e.number "N")]⟩ := by
  simp [all, ground, Conclusion.ground, Requirement.ground, Pattern.ground, ValueTerm.ground,
    Binding.putNode]

theorem GenericRule.ground_choice (e : Binding) : choice.ground e =
    ⟨.choice 1 1 (Truth.all.map fun v => (.val (e.name "A") v, [.value v])),
      [.present (.atom (e.name "A"))]⟩ := by
  simp [choice, ground, Conclusion.ground, Requirement.ground, Pattern.ground, ValueTerm.ground,
    Binding.putValue]

/-- An instance of a generic rule is one of those written out. -/
theorem concludes_or_denies {p : Program} {g : GenericRule} (hg : .rule g ∈ statements)
    (e : Binding) : p.Concludes (g.ground e) ∨ Denies (g.ground e) := by
  have hg' := rule_mem_statements.mp hg
  simp only [List.mem_cons, List.not_mem_nil, or_false] at hg'
  rcases hg' with rfl | rfl | rfl | rfl | rfl | rfl | rfl | rfl | rfl | rfl | rfl | rfl | rfl |
    rfl | rfl | rfl | rfl | rfl | rfl | rfl
  · exact Or.inl (.atom (e.node "_") (e.name "A"))
  · rw [GenericRule.ground_choice]
    exact Or.inl (.choose (e.name "A"))
  · exact Or.inl (.leaf (e.node "F") (e.name "A") (e.value "V"))
  · exact Or.inl (.verum (e.node "F"))
  · exact Or.inl (.falsum (e.node "F"))
  · exact Or.inl (.negation (e.node "F") (e.node "G") .f)
  · exact Or.inl (.negation (e.node "F") (e.node "G") .t)
  · exact Or.inl (.negation (e.node "F") (e.node "G") .b)
  · rw [GenericRule.ground_all]
    exact Or.inl (.all .conjunction (e.node "F") (e.number "N"))
  · exact Or.inl (.any .conjunction (e.node "F") (e.node "G"))
  · exact Or.inl (.otherwise .conjunction (e.node "F"))
  · rw [GenericRule.ground_all]
    exact Or.inl (.all .disjunction (e.node "F") (e.number "N"))
  · exact Or.inl (.any .disjunction (e.node "F") (e.node "G"))
  · exact Or.inl (.otherwise .disjunction (e.node "F"))
  · exact Or.inr (.refuse (e.number "_") (e.node "F"))
  · exact Or.inl (.containsRoot (e.number "_") (e.node "F"))
  · exact Or.inl (.containsInner (e.node "F") (e.node "H") (e.node "G"))
  · exact Or.inl (.containsOperand .conjunction (e.node "F") (e.node "H") (e.node "G"))
  · exact Or.inl (.containsOperand .disjunction (e.node "F") (e.node "H") (e.node "G"))
  · exact Or.inl (.inconsistent (e.number "I") (e.node "F") (e.node "G") (e.name "A"))

/-- Puts one node for `F`, one for `H` and one for the other variables. -/
def Binding.of (f h other : Node) (a : String) (v : Truth) (k : Nat) : Binding where
  node x := if x = "F" then f else if x = "H" then h else other
  name _ := a
  value _ := v
  number _ := k

/-- What is written out is an instance. -/
theorem Concludes.ground {p : Program} {r : Rule Node GroundAtom} (h : p.Concludes r) :
    p.Ground r := by
  have hrule : ∀ g, .rule g ∈ statements → ∀ e : Binding, p.Ground (g.ground e) :=
    fun _ hg => .rule hg
  cases h with
  | fact hf => exact .fact hf
  | value v =>
    have hv : Statement.values Truth.all ∈ statements := by simp [statements, blocks]
    exact .value hv (by cases v <;> decide)
  | atom n a => exact hrule .atom (rule_mem_statements.mpr (by simp)) (.of n n n a .t 0)
  | choose a =>
    have h := hrule .choice (rule_mem_statements.mpr (by simp)) (.of ⟨0, 0⟩ ⟨0, 0⟩ ⟨0, 0⟩ a .t 0)
    rwa [GenericRule.ground_choice] at h
  | leaf n a v => exact hrule .leaf (rule_mem_statements.mpr (by simp)) (.of n n n a v 0)
  | verum n => exact hrule .verum (rule_mem_statements.mpr (by simp)) (.of n n n "" .t 0)
  | falsum n => exact hrule .falsum (rule_mem_statements.mpr (by simp)) (.of n n n "" .t 0)
  | negation n m v =>
    exact hrule (.negation v) (rule_mem_statements.mpr (by cases v <;> simp)) (.of n m m "" v 0)
  | all j n size =>
    have h := hrule (.all j) (rule_mem_statements.mpr (by cases j <;> simp)) (.of n n n "" .t size)
    rwa [GenericRule.ground_all] at h
  | any j n m =>
    exact hrule (.any j) (rule_mem_statements.mpr (by cases j <;> simp)) (.of n m m "" .t 0)
  | otherwise j n =>
    exact hrule (.otherwise j) (rule_mem_statements.mpr (by cases j <;> simp)) (.of n n n "" .t 0)
  | containsRoot id n =>
    exact hrule .containsRoot (rule_mem_statements.mpr (by simp)) (.of n n n "" .t id)
  | containsInner root n m =>
    exact hrule (.containsBelow (.negation "H" "G")) (rule_mem_statements.mpr (by simp))
      (.of root n m "" .t 0)
  | containsOperand j root n m =>
    exact hrule (.containsBelow (.link j "G" "H")) (rule_mem_statements.mpr (by cases j <;> simp))
      (.of root n m "" .t 0)
  | inconsistent id root n a =>
    exact hrule .inconsistent (rule_mem_statements.mpr (by simp)) (.of root n n a .t id)

theorem Denies.ground {p : Program} {r : Rule Node GroundAtom} (h : Denies r) : p.Ground r := by
  obtain ⟨id, n⟩ := h
  have hg : Statement.rule .denial ∈ statements := rule_mem_statements.mpr (by simp)
  exact .rule hg (.of n n n "" .t id)

theorem Concludes.head_ne {p : Program} {r : Rule Node GroundAtom} (h : p.Concludes r) :
    r.head ≠ .falsity := by
  cases h <;> exact nofun

/-- **The ground rules** either conclude or deny. -/
theorem ground_iff {p : Program} {r : Rule Node GroundAtom} :
    p.Ground r ↔ p.Concludes r ∨ Denies r := by
  constructor
  · intro h
    cases h with
    | fact hf => exact Or.inl (.fact hf)
    | value hvs hv => exact Or.inl (.value _)
    | rule hg e => exact concludes_or_denies hg e
  · intro h
    rcases h with h | h
    · exact h.ground
    · exact h.ground

/-- The rules that conclude something are those written out. -/
theorem definite_eq (p : Program) : p.definite = {r | p.Concludes r} := by
  ext r
  unfold definite
  rw [Set.mem_ofPred_eq, Set.mem_ofPred_eq, ground_iff]
  constructor
  · intro hr
    obtain ⟨h | ⟨id, n⟩, hne⟩ := hr
    · exact h
    · exact absurd rfl hne
  · exact fun h => ⟨Or.inl h, h.head_ne⟩

theorem rules_eq (p : Program) : p.rules = p.definite ∪ {r | Denies r} := by
  ext r
  rw [definite_eq]
  exact ground_iff

end Program
end LeastGlut
