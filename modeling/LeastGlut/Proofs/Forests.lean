/-
# The facts of a knowledge base form a forest

Each formula of the expanded knowledge base has a tree of nodes, numbered in
pre-order (`KnowledgeBase.nodes`). The facts declare these nodes one by one and in
this order, name no other, and say of each one what the subformula at its place
is; they tie every node but the roots to one node before it, and give a
conjunction or disjunction as many operands as its arity says
(`KnowledgeBase.facts_forest`).

Every fact is said by one node, and the places that two parts of a tree take do
not overlap, so no fact is given twice (`Skeleton.nodup_factsAt`) and no place is
that of a child of two nodes (`Skeleton.add_child_ne`).

Key definitions: `Formula.preorder`, `KnowledgeBase.nodes`, `Fact.nodes`,
`Fact.tie?`, `KnowledgeBase.Forest`.
-/
import LeastGlut.Proofs.Expansions
import Mathlib.Data.List.Nodup

namespace LeastGlut

/-! ### What a forest of facts is -/

namespace Formula

/-- The formula and what stands below it, a compound in front of its operands and the left
operand in front of the right one. -/
def preorder : Formula → List Formula
  | atom name => [atom name]
  | verum => [verum]
  | falsum => [falsum]
  | not inner => not inner :: inner.preorder
  | binary op lhs rhs => binary op lhs rhs :: (lhs.preorder ++ rhs.preorder)

/-- How far behind the formula its operands stand in pre-order. -/
def operandPlaces : Formula → List Nat
  | not _ => [1]
  | binary _ lhs _ => [1, lhs.size + 1]
  | _ => []

/-- The fact that says what a node is where the formula stands. -/
def definition (n : Node) : Formula → Fact
  | atom name => .isAtom n name
  | verum => .isTrue n
  | falsum => .isFalse n
  | not _ => .negation n (n.behind 1)
  | binary .and _ _ | binary .iff _ _ => .conjunction n
  | binary .or _ _ | binary .implies _ _ => .disjunction n

end Formula

namespace Fact

/-- The nodes that a fact names. -/
def nodes : Fact → List Node
  | kbFormula _ n | formula n | isAtom n _ | isTrue n | isFalse n => [n]
  | conjunction n | numConjuncts n _ | disjunction n | numDisjuncts n _ => [n]
  | negation n m | conjunctOf m n | disjunctOf m n => [n, m]

/-- The formula whose node the fact is about. -/
def owner : Fact → Nat
  | kbFormula id _ => id
  | formula n | isAtom n _ | isTrue n | isFalse n | negation n _ => n.formula
  | conjunction n | numConjuncts n _ | conjunctOf _ n => n.formula
  | disjunction n | numDisjuncts n _ | disjunctOf _ n => n.formula

def declared? : Fact → Option Node
  | formula n => some n
  | _ => none

/-- The node of which the fact says what it is. -/
def defined? : Fact → Option Node
  | isAtom n _ | isTrue n | isFalse n | negation n _ | conjunction n | disjunction n => some n
  | _ => none

/-- A node and its child that the fact ties to it. -/
def tie? : Fact → Option (Node × Node)
  | negation n m | conjunctOf m n | disjunctOf m n => some (n, m)
  | _ => none

end Fact

/-- The operand of the node that the fact names, if it names one of this kind. -/
def Junction.operand? : Junction → Node → Fact → Option Node
  | conjunction, n, .conjunctOf m p | disjunction, n, .disjunctOf m p => if p = n then some m else none
  | _, _, _ => none

namespace KnowledgeBase

/-- The nodes of every formula, numbered from zero in each. -/
def nodes (kb : KnowledgeBase) : List Node :=
  kb.formulas.zipIdx.flatMap fun (f, id) => (List.range f.size).map (Node.mk id)

/-- The formula at the place of a node. -/
def subformula? (kb : KnowledgeBase) (n : Node) : Option Formula :=
  (kb.formulas[n.formula]?).bind fun f => f.preorder[n.index]?

/-- Facts that show the formulas of a knowledge base as trees. -/
structure Forest (kb : KnowledgeBase) (facts : List Fact) : Prop where
  /-- No fact is given twice. -/
  nodup : facts.Nodup
  roots (id : Nat) (n : Node) : .kbFormula id n ∈ facts ↔ id < kb.size ∧ n = .root id
  /-- The nodes that are named are those of the formulas. -/
  named (n : Node) : (∃ fact ∈ facts, n ∈ fact.nodes) ↔ n ∈ kb.nodes
  /-- No fact names nodes of two formulas. -/
  apart : ∀ fact ∈ facts, ∀ n ∈ fact.nodes, ∀ m ∈ fact.nodes, n.formula = m.formula
  /-- Each node is declared once, in the order of the formulas and in pre-order. -/
  declared : facts.filterMap Fact.declared? = kb.nodes
  /-- Of each node one fact says what it is: the formula at its place in pre-order. -/
  defined : ∀ n ∈ kb.nodes, ∃ g, kb.subformula? n = some g ∧
    ∀ fact, fact ∈ facts ∧ fact.defined? = some n ↔ fact = g.definition n
  /-- One fact gives the arity of a conjunction or disjunction, which is the number of the facts
  that give it an operand; the operands differ. -/
  counted (j : Junction) (n : Node) : j.kind n ∈ facts → ∃ count,
    (∀ k, j.arity n k ∈ facts ↔ k = count) ∧
      (facts.filterMap (j.operand? n)).length = count ∧ (facts.filterMap (j.operand? n)).Nodup
  /-- The children of a node are the nodes of its operands. -/
  children (n m : Node) : (∃ fact ∈ facts, fact.tie? = some (n, m)) ↔
    ∃ g, kb.subformula? n = some g ∧ ∃ c ∈ g.operandPlaces, m = n.behind c
  /-- A node that is no root is the child that one fact ties to a node. -/
  tied : ∀ m ∈ kb.nodes, m.index ≠ 0 → ∃! fact, fact ∈ facts ∧ ∃ n, fact.tie? = some (n, m)
  /-- A child stands behind the node that it is tied to. -/
  behind : ∀ fact ∈ facts, ∀ n m, fact.tie? = some (n, m) → n.index < m.index

end KnowledgeBase

/-! ### Places in a tree -/

theorem Node.behind_zero (n : Node) : n.behind 0 = n := rfl

theorem Node.behind_one_behind (n : Node) : (n.behind 1).behind = n.behind ∘ Nat.succ := by
  funext k
  rw [behind_behind, Nat.add_comm]
  rfl

namespace Formula

theorem length_preorder (f : Formula) : f.preorder.length = f.size := by
  induction f with
  | atom name => rfl
  | verum => rfl
  | falsum => rfl
  | not inner ih =>
    rw [preorder, size, List.length_cons, ih, Nat.add_comm]
  | binary op lhs rhs ihl ihr =>
    rw [preorder, size, List.length_cons, List.length_append, ihl, ihr]
    omega

end Formula

namespace Skeleton

variable {s t u : Skeleton} {n m : Node} {fact : Fact}

theorem size_formula (s : Skeleton) : s.formula.size = s.size := by
  induction s with
  | atom name => rfl
  | verum => rfl
  | falsum => rfl
  | not inner ih =>
    rw [formula, Formula.size, size, ih, Nat.add_comm]
  | junction j lhs rhs ihl ihr =>
    cases j
    all_goals
      rw [formula, Formula.size, size, ihl, ihr]
      omega

/-- The places of a tree are those of its formula in pre-order. -/
theorem getElem?_preorder (s : Skeleton) (i : Nat) :
    s.formula.preorder[i]? = (s.at? i).map formula := by
  induction s generalizing i with
  | atom name => cases i <;> rfl
  | verum => cases i <;> rfl
  | falsum => cases i <;> rfl
  | not inner ih =>
    cases i with
    | zero => rfl
    | succ i => exact ih i
  | junction j lhs rhs ihl ihr =>
    have hlength : lhs.formula.preorder.length = lhs.size := by
      rw [Formula.length_preorder, size_formula]
    cases i with
    | zero => cases j <;> rfl
    | succ i =>
      have hsplit : (junction j lhs rhs).formula.preorder[i + 1]? =
          (lhs.formula.preorder ++ rhs.formula.preorder)[i]? := by
        cases j <;> rfl
      rw [hsplit]
      by_cases hi : i < lhs.size
      · rw [at?_left hi, ← ihl, List.getElem?_append_left (by omega)]
      · obtain ⟨k, rfl⟩ := Nat.exists_eq_add_of_le (Nat.le_of_not_lt hi)
        rw [at?_right, ← ihr, List.getElem?_append_right (by omega), hlength,
          Nat.add_sub_cancel_left]

theorem operandPlaces_formula (s : Skeleton) : s.formula.operandPlaces = s.children := by
  rcases s with _ | _ | _ | _ | ⟨_ | _, l, r⟩
  case junction.conjunction | junction.disjunction =>
    rw [formula, Formula.operandPlaces, size_formula, children]
  all_goals rfl

/-- No place is that of a child of two nodes. -/
theorem add_child_ne {p q c d : Nat} (hpq : p < q) (hp : s.at? p = some t) (hc : c ∈ t.children)
    (hq : s.at? q = some u) (hd : d ∈ u.children) : p + c ≠ q + d := by
  have hc' := child_lt_size hc
  have hd' := child_lt_size hd
  induction s generalizing p q with
  | atom | verum | falsum =>
    obtain ⟨q, rfl⟩ := Nat.exists_eq_succ_of_ne_zero (Nat.ne_zero_of_lt hpq)
    cases hq
  | not inner ih =>
    obtain ⟨q, rfl⟩ := Nat.exists_eq_succ_of_ne_zero (Nat.ne_zero_of_lt hpq)
    cases p with
    | zero =>
      obtain rfl : not inner = t := Option.some_inj.mp hp
      have hone : c = 1 := List.mem_singleton.mp hc
      omega
    | succ p =>
      have hne := ih (Nat.lt_of_succ_lt_succ hpq) hp hq
      omega
  | junction j lhs rhs ihl ihr =>
    obtain ⟨q, rfl⟩ := Nat.exists_eq_succ_of_ne_zero (Nat.ne_zero_of_lt hpq)
    cases p with
    | zero =>
      obtain rfl : junction j lhs rhs = t := Option.some_inj.mp hp
      -- The operands of the root stand at the two places where a part begins.
      have hfirst : c = 1 ∨ c = lhs.size + 1 := by simpa [children] using hc
      rcases at?_junction_cases hq with ⟨-, hql⟩ | ⟨k, rfl, -⟩
      · have hle := add_size_le hql
        omega
      · omega
    | succ p =>
      rcases at?_junction_cases hp with ⟨hlt, hpl⟩ | ⟨k, rfl, hpr⟩ <;>
        rcases at?_junction_cases hq with ⟨hlt', hql⟩ | ⟨k', rfl, hqr⟩
      · have hne := ihl (Nat.lt_of_succ_lt_succ hpq) hpl hql
        omega
      · have hle := add_size_le hpl
        omega
      · omega
      · have hne := ihr (show k < k' by omega) hpr hqr
        omega

/-! ### The facts of one tree -/

theorem subject?_of_mem_factsAt (h : fact ∈ s.factsAt n) :
    ∃ k < s.size, fact.subject? = some (n.behind k) := by
  obtain ⟨k, g, hg, hf⟩ := mem_factsAt.mp h
  exact ⟨k, lt_size hg, subject?_of_mem_sayings hf⟩

/-- What the root says is apart from the facts of a part behind it. -/
theorem ne_of_mem_sayings {fact' : Fact} {k : Nat} (h : fact ∈ s.sayings n)
    (h' : fact' ∈ t.factsAt (n.behind (k + 1))) : fact ≠ fact' := by
  rintro rfl
  obtain ⟨i, -, hi⟩ := subject?_of_mem_factsAt h'
  rw [subject?_of_mem_sayings h, Node.behind_behind, Option.some_inj] at hi
  have hzero : 0 = k + 1 + i := Node.behind_inj.mp hi
  omega

theorem nodup_sayings (s : Skeleton) (n : Node) : (s.sayings n).Nodup := by
  rcases s with _ | _ | _ | _ | ⟨j, l, r⟩
  case junction =>
    have hne := l.behind_one_ne n
    cases j <;> simp [sayings, Junction.head, Junction.link, hne]
  all_goals simp [sayings]

/-- **No fact of a tree is given twice.** Up to their order the facts are what the root says
and then the facts of its operands. -/
theorem nodup_factsAt (s : Skeleton) (n : Node) : (s.factsAt n).Nodup := by
  induction s generalizing n with
  | atom name => exact nodup_sayings (.atom name) n
  | verum => exact nodup_sayings .verum n
  | falsum => exact nodup_sayings .falsum n
  | not inner ih =>
    have hperm : ((not inner).factsAt n).Perm
        ((not inner).sayings n ++ inner.factsAt (n.behind 1)) := by
      apply List.Perm.cons
      exact List.perm_append_comm
    rw [hperm.nodup_iff, List.nodup_append]
    exact ⟨nodup_sayings _ n, ih _, fun _ h _ h' => ne_of_mem_sayings h h'⟩
  | junction j l r ihl ihr =>
    have hperm : ((junction j l r).factsAt n).Perm ((junction j l r).sayings n ++
        (l.factsAt (n.behind 1) ++ r.factsAt (n.behind (l.size + 1)))) := by
      rw [List.perm_iff_count]
      intro fact
      simp only [factsAt, sayings, List.count_append, List.count_cons, List.count_nil]
      omega
    have happart : ∀ a ∈ l.factsAt (n.behind 1), ∀ b ∈ r.factsAt (n.behind (l.size + 1)), a ≠ b := by
      rintro a ha _ hb rfl
      obtain ⟨i, hi, hsubject⟩ := subject?_of_mem_factsAt ha
      obtain ⟨k, -, hsubject'⟩ := subject?_of_mem_factsAt hb
      rw [hsubject, Node.behind_behind, Node.behind_behind, Option.some_inj, Node.behind_inj]
        at hsubject'
      omega
    rw [hperm.nodup_iff, List.nodup_append]
    refine ⟨nodup_sayings _ n, List.nodup_append.mpr ⟨ihl _, ihr _, happart⟩, fun a ha b hb => ?_⟩
    rcases List.mem_append.mp hb with hb | hb
    · exact ne_of_mem_sayings ha hb
    · exact ne_of_mem_sayings ha hb

/-- The nodes are declared in pre-order. -/
theorem filterMap_declared_factsAt (s : Skeleton) (n : Node) :
    (s.factsAt n).filterMap Fact.declared? = (List.range s.size).map n.behind := by
  induction s generalizing n with
  | atom name => rfl
  | verum => rfl
  | falsum => rfl
  | not inner ih =>
    rw [factsAt, size, List.range_succ_eq_map, List.map_cons, List.map_map, ← Node.behind_one_behind,
      ← ih]
    simp [Fact.declared?, Node.behind_zero]
  | junction j l r ihl ihr =>
    have hhead : (j.head n).filterMap Fact.declared? = [] := by cases j <;> rfl
    have hlink : ∀ m, [j.link m n].filterMap Fact.declared? = [] := by
      intro m
      cases j <;> rfl
    have hright : (n.behind (l.size + 1)).behind = n.behind ∘ Nat.succ ∘ (l.size + ·) := by
      funext k
      rw [Node.behind_behind, Nat.add_right_comm]
      rfl
    have htail : (j.head n ++ l.factsAt (n.behind 1) ++ [j.link (n.behind 1) n] ++
        r.factsAt (n.behind (l.size + 1)) ++ [j.link (n.behind (l.size + 1)) n]).filterMap
          Fact.declared? =
        (List.range l.size).map (n.behind ∘ Nat.succ) ++
          (List.range r.size).map (n.behind ∘ Nat.succ ∘ (l.size + ·)) := by
      simp only [List.filterMap_append, hhead, hlink, ihl, ihr, Node.behind_one_behind, hright,
        List.nil_append, List.append_nil]
    rw [factsAt, size, List.range_succ_eq_map, List.range_add, List.map_cons, List.map_map,
      List.map_append, List.map_map, Function.comp_assoc, ← htail]
    rfl

/-- What a node says names the node and its children. -/
theorem mem_nodes_of_mem_sayings (h : fact ∈ s.sayings n) (hm : m ∈ fact.nodes) :
    m = n ∨ ∃ c ∈ s.children, m = n.behind c := by
  rcases s with _ | _ | _ | _ | ⟨_ | _, _, _⟩ <;>
    simp only [sayings, Junction.head, Junction.link, List.cons_append, List.nil_append,
      List.mem_cons, List.not_mem_nil, or_false] at h
  case atom | verum | falsum | not =>
    rcases h with rfl | rfl <;> simp_all [Fact.nodes, children]
  case junction.conjunction | junction.disjunction =>
    rcases h with rfl | rfl | rfl | rfl | rfl <;> simp_all [Fact.nodes, children]
    all_goals tauto

/-- A node says one thing of what it is. -/
theorem mem_sayings_and_defined_iff : fact ∈ s.sayings n ∧ fact.defined? = some n ↔
    fact = s.formula.definition n := by
  rcases s with _ | _ | _ | _ | ⟨_ | _, _, _⟩ <;>
    simp only [sayings, Junction.head, Junction.link, List.cons_append, List.nil_append,
      List.mem_cons, List.not_mem_nil, or_false, formula, Formula.definition]
  all_goals
    constructor
    · rintro ⟨h, hdefined⟩
      cases fact <;> simp_all [Fact.defined?]
    · rintro rfl
      simp [Fact.defined?]

end Skeleton

namespace Fact

variable {fact : Fact} {n m : Node}

theorem owner_of_subject? (h : fact.subject? = some n) : fact.owner = n.formula := by
  cases fact <;> simp_all [subject?, owner]

theorem subject?_of_defined? (h : fact.defined? = some n) : fact.subject? = some n := by
  cases fact <;> simp_all [subject?, defined?]

theorem tie?_eq_some_iff :
    fact.tie? = some (n, m) ↔ fact = .negation n m ∨ ∃ j : Junction, fact = j.link m n := by
  constructor
  · intro h
    cases fact with
    | negation => simp_all [tie?]
    | conjunctOf => exact Or.inr ⟨.conjunction, by simp_all [tie?, Junction.link]⟩
    | disjunctOf => exact Or.inr ⟨.disjunction, by simp_all [tie?, Junction.link]⟩
    | _ => cases h
  · rintro (rfl | ⟨_ | _, rfl⟩) <;> rfl

end Fact

theorem Junction.operand?_eq_some_iff {j : Junction} {fact : Fact} {n m : Node} :
    j.operand? n fact = some m ↔ fact = j.link m n := by
  cases j <;> cases fact <;> simp [operand?, link]
  all_goals exact and_comm

namespace KnowledgeBase

variable {kb : KnowledgeBase} {n m : Node} {fact fact' : Fact} {j : Junction}

/-! ### The nodes -/

theorem mem_nodes : n ∈ kb.nodes ↔ ∃ f, kb.formulas[n.formula]? = some f ∧ n.index < f.size := by
  simp only [nodes, List.mem_flatMap, List.mem_zipIdx_iff_getElem?, List.mem_map, List.mem_range]
  constructor
  · rintro ⟨⟨f, id⟩, hf, i, hi, rfl⟩
    exact ⟨f, hf, hi⟩
  · intro h
    obtain ⟨f, hf, hi⟩ := h
    exact ⟨(f, n.formula), hf, n.index, hi, rfl⟩

theorem subformula?_expand (kb : KnowledgeBase) (n : Node) :
    kb.expand.subformula? n = (kb.node? n).map Skeleton.formula := by
  unfold subformula? node? expand
  rw [List.getElem?_map]
  cases kb.formulas[n.formula]? with
  | none => rfl
  | some f =>
    rw [Option.map_some, Option.bind_some, Option.bind_some, ← Formula.formula_skeleton]
    exact Skeleton.getElem?_preorder _ _

theorem mem_nodes_iff_subformula? : n ∈ kb.nodes ↔ ∃ g, kb.subformula? n = some g := by
  rw [mem_nodes]
  unfold subformula?
  simp only [Option.bind_eq_some_iff, ← Formula.length_preorder]
  constructor
  · intro h
    obtain ⟨f, hf, hi⟩ := h
    exact ⟨_, f, hf, List.getElem?_eq_getElem hi⟩
  · intro h
    obtain ⟨g, f, hf, hg⟩ := h
    exact ⟨f, hf, (List.getElem?_eq_some_iff.mp hg).1⟩

theorem mem_nodes_expand : n ∈ kb.expand.nodes ↔ ∃ g, kb.node? n = some g := by
  rw [mem_nodes_iff_subformula?, subformula?_expand]
  simp

/-! ### The facts of all formulas -/

theorem owner_of_mem_ofFormula {id : Nat} {f : Formula} (h : fact ∈ Fact.ofFormula id f) :
    fact.owner = id := by
  rw [Skeleton.ofFormula_eq] at h
  rcases List.mem_cons.mp h with rfl | h
  · rfl
  · obtain ⟨k, -, hk⟩ := Skeleton.subject?_of_mem_factsAt h
    exact Fact.owner_of_subject? hk

theorem le_owner_of_mem_factsFrom {fs : List Formula} {id : Nat}
    (h : fact ∈ Program.factsFrom id fs) : id ≤ fact.owner := by
  induction fs generalizing id with
  | nil => cases h
  | cons f fs ih =>
    rcases List.mem_append.mp h with h | h
    · exact Nat.le_of_eq (owner_of_mem_ofFormula h).symm
    · exact Nat.le_of_succ_le (ih h)

theorem nodup_ofFormula (id : Nat) (f : Formula) : (Fact.ofFormula id f).Nodup := by
  rw [Skeleton.ofFormula_eq, List.nodup_cons]
  refine ⟨fun h => ?_, Skeleton.nodup_factsAt _ _⟩
  obtain ⟨k, -, hk⟩ := Skeleton.subject?_of_mem_factsAt h
  cases hk

theorem nodup_factsFrom (fs : List Formula) (id : Nat) : (Program.factsFrom id fs).Nodup := by
  induction fs generalizing id with
  | nil => exact List.nodup_nil
  | cons f fs ih =>
    rw [Program.factsFrom, List.nodup_append]
    refine ⟨nodup_ofFormula id f, ih (id + 1), ?_⟩
    rintro fact h _ h' rfl
    have howner := owner_of_mem_ofFormula h
    have hle := le_owner_of_mem_factsFrom h'
    omega

theorem nodup_facts (kb : KnowledgeBase) : kb.facts.Nodup := nodup_factsFrom kb.formulas 0

/-- What a fact names are nodes of the formula that owns it. -/
theorem node?_of_mem_nodes (h : fact ∈ kb.facts) (hm : m ∈ fact.nodes) :
    (∃ g, kb.node? m = some g) ∧ m.formula = fact.owner := by
  rcases mem_facts.mp h with ⟨id, hid, rfl⟩ | ⟨n, g, hg, hf⟩
  · obtain rfl : m = .root id := List.mem_singleton.mp hm
    exact ⟨⟨_, node?_root (List.getElem?_eq_getElem hid)⟩, rfl⟩
  · rw [Fact.owner_of_subject? (Skeleton.subject?_of_mem_sayings hf)]
    rcases Skeleton.mem_nodes_of_mem_sayings hf hm with rfl | ⟨c, hc, rfl⟩
    · exact ⟨⟨g, hg⟩, rfl⟩
    · obtain ⟨hformula, -, hnode⟩ := IsChild.lt ⟨g, hg, c, hc, rfl⟩
      exact ⟨hnode, hformula⟩

theorem filterMap_declared_ofFormula (id : Nat) (f : Formula) :
    (Fact.ofFormula id f).filterMap Fact.declared? =
      (List.range f.expandIff.expandImplies.size).map (Node.mk id) := by
  have hplace : (Node.root id).behind = Node.mk id := by
    funext k
    rw [Node.behind, Node.root, Nat.zero_add]
  rw [Skeleton.ofFormula_eq, ← Formula.formula_skeleton, Skeleton.size_formula, ← hplace]
  exact Skeleton.filterMap_declared_factsAt _ _

theorem filterMap_declared_factsFrom (fs : List Formula) (id : Nat) :
    (Program.factsFrom id fs).filterMap Fact.declared? =
      ((fs.map fun f => f.expandIff.expandImplies).zipIdx id).flatMap
        fun (f, id) => (List.range f.size).map (Node.mk id) := by
  induction fs generalizing id with
  | nil => rfl
  | cons f fs ih =>
    rw [Program.factsFrom, List.filterMap_append, ih, filterMap_declared_ofFormula]
    rfl

/-! ### Operands and children -/

theorem mem_filterMap_operand : m ∈ kb.facts.filterMap (j.operand? n) ↔ j.link m n ∈ kb.facts := by
  simp [List.mem_filterMap, Junction.operand?_eq_some_iff]

theorem nodup_filterMap_operand (kb : KnowledgeBase) (j : Junction) (n : Node) :
    (kb.facts.filterMap (j.operand? n)).Nodup := by
  apply (nodup_facts kb).filterMap
  intro fact fact' m h h'
  rw [Junction.operand?_eq_some_iff.mp h, Junction.operand?_eq_some_iff.mp h']

/-- A junction has two operands, the nodes at which its parts begin. -/
theorem length_filterMap_operand {l r : Skeleton} (h : kb.node? n = some (.junction j l r)) :
    (kb.facts.filterMap (j.operand? n)).length = 2 := by
  have hpair : [n.behind 1, n.behind (l.size + 1)].Nodup := by simp [l.behind_one_ne n]
  have hperm : (kb.facts.filterMap (j.operand? n)).Perm [n.behind 1, n.behind (l.size + 1)] := by
    rw [List.perm_ext_iff_of_nodup (nodup_filterMap_operand kb j n) hpair]
    intro m
    rw [mem_filterMap_operand, link_mem]
    simp [h]
  exact hperm.length_eq

theorem isChild_iff_tie : kb.IsChild n m ↔ ∃ fact ∈ kb.facts, fact.tie? = some (n, m) := by
  simp only [isChild_iff, Fact.tie?_eq_some_iff]
  constructor
  · rintro (h | ⟨j, h⟩)
    · exact ⟨_, h, Or.inl rfl⟩
    · exact ⟨_, h, Or.inr ⟨j, rfl⟩⟩
  · rintro ⟨fact, h, rfl | ⟨j, rfl⟩⟩
    · exact Or.inl h
    · exact Or.inr ⟨j, h⟩

/-- A node is the child of one node at most. -/
theorem IsChild.unique {n' : Node} (h : kb.IsChild n m) (h' : kb.IsChild n' m) : n = n' := by
  obtain ⟨g, hg, c, hc, hm⟩ := h
  obtain ⟨g', hg', c', hc', hm'⟩ := h'
  obtain ⟨hformula, hplace⟩ := Node.mk.inj (hm.symm.trans hm')
  obtain ⟨f, hf, hat⟩ := Option.bind_eq_some_iff.mp hg
  obtain ⟨f', hf', hat'⟩ := Option.bind_eq_some_iff.mp hg'
  rw [← hformula, hf, Option.some_inj] at hf'
  rw [← hf'] at hat'
  have hindex : n.index = n'.index := by
    by_contra hne
    rcases Nat.lt_or_gt_of_ne hne with hlt | hlt
    · exact Skeleton.add_child_ne hlt hat hc hat' hc' hplace
    · exact Skeleton.add_child_ne hlt hat' hc' hat hc hplace.symm
  obtain ⟨id, i⟩ := n
  obtain ⟨id', i'⟩ := n'
  exact congrArg₂ Node.mk hformula hindex

/-- A node and its child are tied by one fact at most: what the node is gives its kind. -/
theorem eq_of_tie (h : fact ∈ kb.facts) (h' : fact' ∈ kb.facts) (ht : fact.tie? = some (n, m))
    (ht' : fact'.tie? = some (n, m)) : fact = fact' := by
  rcases Fact.tie?_eq_some_iff.mp ht with rfl | ⟨j, rfl⟩ <;>
    rcases Fact.tie?_eq_some_iff.mp ht' with rfl | ⟨j', rfl⟩
  · rfl
  · obtain ⟨g, hg, -⟩ := negation_mem.mp h
    obtain ⟨l, r, hg', -⟩ := link_mem.mp h'
    rw [hg] at hg'
    cases hg'
  · obtain ⟨l, r, hg, -⟩ := link_mem.mp h
    obtain ⟨g, hg', -⟩ := negation_mem.mp h'
    rw [hg] at hg'
    cases hg'
  · obtain ⟨l, r, hg, -⟩ := link_mem.mp h
    obtain ⟨l', r', hg', -⟩ := link_mem.mp h'
    rw [hg] at hg'
    cases hg'
    rfl

theorem existsUnique_tie (hm : ∃ g, kb.node? m = some g) (hroot : m.index ≠ 0) :
    ∃! fact, fact ∈ kb.facts ∧ ∃ n, fact.tie? = some (n, m) := by
  obtain ⟨g, hg⟩ := hm
  have hne : m ≠ .root m.formula := fun h => hroot (congrArg Node.index h)
  obtain ⟨n, hn⟩ := (root_or_child hg).2.resolve_left hne
  obtain ⟨fact, hf, ht⟩ := isChild_iff_tie.mp hn
  refine ⟨fact, ⟨hf, n, ht⟩, ?_⟩
  rintro fact' ⟨hf', n', ht'⟩
  obtain rfl : n' = n := (isChild_iff_tie.mpr ⟨fact', hf', ht'⟩).unique hn
  exact eq_of_tie hf' hf ht' ht

/-- Of a node one fact says what it is. -/
theorem mem_facts_and_defined_iff {g : Skeleton} (h : kb.node? n = some g) :
    fact ∈ kb.facts ∧ fact.defined? = some n ↔ fact = g.formula.definition n := by
  rw [← Skeleton.mem_sayings_and_defined_iff]
  apply and_congr_left
  intro hdefined
  rw [mem_facts_iff (Fact.subject?_of_defined? hdefined) fun _ => Iff.rfl, h]
  simp

/-- **The facts of a knowledge base form a forest**: the trees of its formulas, when their
equivalences and implications are expanded. -/
theorem facts_forest (kb : KnowledgeBase) : kb.expand.Forest (Program.ofKnowledgeBase kb).facts where
  nodup := nodup_facts kb
  roots id n := by
    have hsize : kb.expand.size = kb.size := List.length_map _
    rw [hsize]
    exact kbFormula_mem
  named n := by
    rw [mem_nodes_expand]
    constructor
    · intro h
      obtain ⟨fact, hf, hn⟩ := h
      exact (node?_of_mem_nodes hf hn).1
    · intro h
      exact ⟨.formula n, formula_mem.mpr h, List.mem_singleton.mpr rfl⟩
  apart fact hf n hn m hm := by
    rw [(node?_of_mem_nodes hf hn).2, (node?_of_mem_nodes hf hm).2]
  declared := filterMap_declared_factsFrom kb.formulas 0
  defined n hn := by
    obtain ⟨g, hg⟩ := mem_nodes_expand.mp hn
    refine ⟨g.formula, ?_, fun fact => mem_facts_and_defined_iff hg⟩
    rw [subformula?_expand, hg, Option.map_some]
  counted j n hj := by
    obtain ⟨l, r, hg⟩ := kind_mem.mp hj
    refine ⟨2, fun k => ?_, length_filterMap_operand hg, nodup_filterMap_operand kb j n⟩
    show j.arity n k ∈ kb.facts ↔ _
    rw [arity_mem]
    simp [hg]
  children n m := by
    rw [subformula?_expand]
    refine isChild_iff_tie.symm.trans ?_
    simp [IsChild, Skeleton.operandPlaces_formula]
  tied m hm hroot := existsUnique_tie (mem_nodes_expand.mp hm) hroot
  behind fact hf n m ht := (isChild_iff_tie.mpr ⟨fact, hf, ht⟩).lt.2.1

end KnowledgeBase
end LeastGlut
