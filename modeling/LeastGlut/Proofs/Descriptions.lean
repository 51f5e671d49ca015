/-
# What facts say about formulas

A formula is described as a tree of negations, conjunctions and disjunctions
(`Formula.skeleton`), which has its value and its atoms. The facts of a tree are
those that each node says of itself and its children (`Skeleton.sayings`), and
nothing else (`Skeleton.mem_factsAt`). So the facts of a knowledge base can
be read off the tree at each node (`KnowledgeBase.node?`): which kind it is of,
how many operands it has and where they stand.

Key definitions: `Skeleton`, `Formula.skeleton`, `Skeleton.at?`,
`Skeleton.sayings`, `Skeleton.factsAt`, `KnowledgeBase.node?`.
-/
import LeastGlut.Program.Facts
import LeastGlut.Proofs.Valuations
import Mathlib.Tactic.Tauto

namespace LeastGlut

/-- A formula in negations, conjunctions and disjunctions. -/
inductive Skeleton
  | atom (name : String)
  | verum
  | falsum
  | not (inner : Skeleton)
  | junction (j : Junction) (lhs rhs : Skeleton)

/-- The value of a node from those of its operands. -/
def Junction.apply : Junction → Truth → Truth → Truth
  | conjunction, x, y => x.meet y
  | disjunction, x, y => x.join y

/-- The tree that the facts of a formula describe. -/
def Formula.skeleton : Formula → Skeleton
  | .atom name => .atom name
  | .verum => .verum
  | .falsum => .falsum
  | .not inner => .not inner.skeleton
  | .binary .and lhs rhs => .junction .conjunction lhs.skeleton rhs.skeleton
  | .binary .or lhs rhs => .junction .disjunction lhs.skeleton rhs.skeleton
  | .binary .implies lhs rhs => .junction .disjunction (.not lhs.skeleton) rhs.skeleton
  | .binary .iff lhs rhs =>
    .junction .conjunction (.junction .disjunction (.not lhs.skeleton) rhs.skeleton)
      (.junction .disjunction (.not rhs.skeleton) lhs.skeleton)

/-- The node some places behind another one. -/
def Node.behind (n : Node) (k : Nat) : Node := ⟨n.formula, n.index + k⟩

theorem Node.behind_behind (n : Node) (i k : Nat) : (n.behind i).behind k = n.behind (i + k) := by
  simp only [Node.behind, Nat.add_assoc]

theorem Node.behind_inj {n : Node} {i k : Nat} : n.behind i = n.behind k ↔ i = k := by
  simp [Node.behind]

namespace Skeleton

def eval (x : String → Truth) : Skeleton → Truth
  | atom name => x name
  | verum => .t
  | falsum => .f
  | not inner => (inner.eval x).neg
  | junction j lhs rhs => j.apply (lhs.eval x) (rhs.eval x)

/-- The atom at each leaf that holds one. -/
def leaves : Skeleton → List String
  | atom name => [name]
  | verum => []
  | falsum => []
  | not inner => inner.leaves
  | junction _ lhs rhs => lhs.leaves ++ rhs.leaves

/-- The number of nodes. -/
def size : Skeleton → Nat
  | atom _ => 1
  | verum => 1
  | falsum => 1
  | not inner => inner.size + 1
  | junction _ lhs rhs => lhs.size + rhs.size + 1

/-- The tree at a place in pre-order. -/
def at? : Skeleton → Nat → Option Skeleton
  | s, 0 => some s
  | not inner, i + 1 => inner.at? i
  | junction _ lhs rhs, i + 1 => if i < lhs.size then lhs.at? i else rhs.at? (i - lhs.size)
  | _, _ + 1 => none

/-- How far behind its own place the operands of the root stand. -/
def children : Skeleton → List Nat
  | not _ => [1]
  | junction _ lhs _ => [1, lhs.size + 1]
  | _ => []

/-- Facts that describe a node, given the next free place in pre-order. -/
def describe : Skeleton → Fact.Describer
  | atom name => fun node next => ([.isAtom node name], next)
  | verum => fun node next => ([.isTrue node], next)
  | falsum => fun node next => ([.isFalse node], next)
  | not inner => Fact.describeNot inner.describe
  | junction j lhs rhs => Fact.describeJunction j lhs.describe rhs.describe

/-- What a node says of itself and its children. -/
def sayings (n : Node) : Skeleton → List Fact
  | atom name => [.formula n, .isAtom n name]
  | verum => [.formula n, .isTrue n]
  | falsum => [.formula n, .isFalse n]
  | not _ => [.formula n, .negation n (n.behind 1)]
  | junction j lhs _ =>
    .formula n :: j.head n ++ [j.link (n.behind 1) n, j.link (n.behind (lhs.size + 1)) n]

variable {s g : Skeleton} {i k : Nat} {n : Node} {fact : Fact}

/-! ### The tree of a formula -/

theorem eval_skeleton (x : String → Truth) (f : Formula) : f.skeleton.eval x = f.eval x := by
  induction f with
  | atom name => rfl
  | verum => rfl
  | falsum => rfl
  | not inner ih => simp only [Formula.skeleton, eval, Formula.eval, ih]
  | binary op lhs rhs ihl ihr =>
    cases op <;>
      simp only [Formula.skeleton, eval, Formula.eval, Junction.apply, Connective.apply, ihl, ihr]

theorem mem_leaves_skeleton {a : String} {f : Formula} : a ∈ f.skeleton.leaves ↔ a ∈ f.leaves := by
  induction f with
  | atom name => rfl
  | verum => rfl
  | falsum => rfl
  | not inner ih => exact ih
  | binary op lhs rhs ihl ihr =>
    cases op <;> simp [Formula.skeleton, leaves, Formula.leaves, ihl, ihr]
    tauto

theorem describe_skeleton (f : Formula) : Fact.describe f = f.skeleton.describe := by
  induction f with
  | atom name => rfl
  | verum => rfl
  | falsum => rfl
  | not inner ih => simp only [Fact.describe, Formula.skeleton, describe, ih]
  | binary op lhs rhs ihl ihr =>
    cases op <;>
      simp only [Fact.describe, Fact.describeImplies, Formula.skeleton, describe, ihl, ihr]

/-! ### Places in pre-order -/

theorem size_pos (s : Skeleton) : 0 < s.size := by
  cases s <;> simp [size]

theorem at?_left {j : Junction} {l r : Skeleton} (h : i < l.size) :
    (junction j l r).at? (i + 1) = l.at? i := if_pos h

theorem at?_right (j : Junction) (l r : Skeleton) (k : Nat) :
    (junction j l r).at? (l.size + k + 1) = r.at? k := by
  have hnot : ¬l.size + k < l.size := by omega
  simp only [at?]
  rw [if_neg hnot, Nat.add_sub_cancel_left]

/-- A place behind the root is one in the left operand, or behind all of these one in the right
operand. -/
theorem at?_junction_cases {j : Junction} {l r : Skeleton}
    (h : (junction j l r).at? (i + 1) = some g) :
    (i < l.size ∧ l.at? i = some g) ∨ ∃ k, i = l.size + k ∧ r.at? k = some g := by
  by_cases hi : i < l.size
  · rw [at?_left hi] at h
    exact Or.inl ⟨hi, h⟩
  · obtain ⟨k, rfl⟩ := Nat.exists_eq_add_of_le (Nat.le_of_not_lt hi)
    rw [at?_right] at h
    exact Or.inr ⟨k, rfl, h⟩

/-- The operands of a junction stand at two nodes. -/
theorem behind_one_ne (l : Skeleton) (n : Node) : n.behind 1 ≠ n.behind (l.size + 1) := by
  have hpos := l.size_pos
  rw [Ne, Node.behind_inj]
  omega

theorem add_size_le (h : s.at? i = some g) : i + g.size ≤ s.size := by
  induction s generalizing i with
  | atom name => cases i <;> simp_all [at?]
  | verum => cases i <;> simp_all [at?]
  | falsum => cases i <;> simp_all [at?]
  | not inner ih =>
    cases i with
    | zero => simp_all [at?]
    | succ i =>
      have hi := ih h
      simp only [size]
      omega
  | junction j lhs rhs ihl ihr =>
    cases i with
    | zero => simp_all [at?]
    | succ i =>
      simp only [size]
      rcases at?_junction_cases h with ⟨-, hl⟩ | ⟨k, rfl, hr⟩
      · have hle := ihl hl
        omega
      · have hle := ihr hr
        omega

theorem lt_size (h : s.at? i = some g) : i < s.size := by
  have hle := add_size_le h
  have hpos := g.size_pos
  omega

/-- A place in a part of a tree is a place in the tree. -/
theorem at?_add (h : s.at? i = some g) (hk : k < g.size) : s.at? (i + k) = g.at? k := by
  induction s generalizing i with
  | atom name => cases i <;> simp_all [at?]
  | verum => cases i <;> simp_all [at?]
  | falsum => cases i <;> simp_all [at?]
  | not inner ih =>
    cases i with
    | zero => simp_all [at?]
    | succ i =>
      rw [Nat.add_right_comm]
      exact ih h
  | junction j lhs rhs ihl ihr =>
    cases i with
    | zero => simp_all [at?]
    | succ i =>
      rw [Nat.add_right_comm]
      rcases at?_junction_cases h with ⟨-, hl⟩ | ⟨m, rfl, hr⟩
      · have hle := add_size_le hl
        rw [at?_left (by omega)]
        exact ihl hl
      · rw [Nat.add_assoc lhs.size, at?_right]
        exact ihr hr

/-- Every place but the first is that of a child. -/
theorem exists_parent (h : s.at? (i + 1) = some g) :
    ∃ p t, s.at? p = some t ∧ p ≤ i ∧ ∃ c ∈ t.children, p + c = i + 1 := by
  induction s generalizing i with
  | atom name => cases h
  | verum => cases h
  | falsum => cases h
  | not inner ih =>
    cases i with
    | zero => exact ⟨0, _, rfl, Nat.le_refl 0, 1, by simp [children], rfl⟩
    | succ i =>
      obtain ⟨p, t, ht, hp, c, hc, hpc⟩ := ih h
      exact ⟨p + 1, t, ht, by omega, c, hc, by omega⟩
  | junction j lhs rhs ihl ihr =>
    rcases at?_junction_cases h with ⟨hi, hl⟩ | ⟨k, rfl, hr⟩
    · cases i with
      | zero => exact ⟨0, _, rfl, Nat.le_refl 0, 1, by simp [children], rfl⟩
      | succ i =>
        obtain ⟨p, t, ht, hp, c, hc, hpc⟩ := ihl hl
        refine ⟨p + 1, t, ?_, by omega, c, hc, by omega⟩
        rw [at?_left (by omega)]
        exact ht
    · cases k with
      | zero => exact ⟨0, _, rfl, Nat.zero_le _, lhs.size + 1, by simp [children], by omega⟩
      | succ k =>
        obtain ⟨p, t, ht, hp, c, hc, hpc⟩ := ihr hr
        refine ⟨lhs.size + p + 1, t, ?_, by omega, c, hc, by omega⟩
        rw [at?_right]
        exact ht

theorem child_lt_size {c : Nat} (hc : c ∈ s.children) : 0 < c ∧ c < s.size := by
  cases s with
  | atom name => cases hc
  | verum => cases hc
  | falsum => cases hc
  | not inner =>
    have hpos := inner.size_pos
    simp only [children, List.mem_singleton] at hc
    simp only [size]
    omega
  | junction j lhs rhs =>
    have hl := lhs.size_pos
    have hr := rhs.size_pos
    simp only [children, List.mem_cons, List.not_mem_nil, or_false] at hc
    simp only [size]
    omega

theorem mem_leaves_iff {a : String} : a ∈ s.leaves ↔ ∃ i, s.at? i = some (.atom a) := by
  induction s with
  | atom name =>
    constructor
    · intro h
      unfold leaves at h
      rw [List.mem_singleton] at h
      exact ⟨0, by rw [h]; rfl⟩
    · intro hp
      obtain ⟨i, hi⟩ := hp
      cases i with
      | zero => simpa [at?, leaves, eq_comm] using hi
      | succ i => cases hi
  | verum => simp only [leaves, List.not_mem_nil, false_iff]; rintro ⟨_ | i, hi⟩ <;> cases hi
  | falsum => simp only [leaves, List.not_mem_nil, false_iff]; rintro ⟨_ | i, hi⟩ <;> cases hi
  | not inner ih =>
    unfold leaves
    rw [ih]
    constructor
    · intro hp
      obtain ⟨i, hi⟩ := hp
      exact ⟨i + 1, hi⟩
    · intro hp
      obtain ⟨_ | i, hi⟩ := hp
      · cases hi
      · exact ⟨i, hi⟩
  | junction j lhs rhs ihl ihr =>
    unfold leaves
    rw [List.mem_append, ihl, ihr]
    constructor
    · intro hp
      rcases hp with ⟨i, hi⟩ | ⟨i, hi⟩
      · exact ⟨i + 1, (at?_left (lt_size hi)).trans hi⟩
      · exact ⟨lhs.size + i + 1, (at?_right _ _ _ _).trans hi⟩
    · intro hp
      obtain ⟨_ | i, hi⟩ := hp
      · cases hi
      · rcases at?_junction_cases hi with ⟨-, hl⟩ | ⟨k, -, hr⟩
        · exact Or.inl ⟨i, hl⟩
        · exact Or.inr ⟨k, hr⟩

/-! ### The facts of a tree -/

/-- Some node of the tree whose root stands at `n` says the fact. -/
def Says (s : Skeleton) (n : Node) (fact : Fact) : Prop :=
  ∃ i g, s.at? i = some g ∧ fact ∈ g.sayings (n.behind i)

theorem says_leaf (h : ∀ i, s.at? (i + 1) = none) : s.Says n fact ↔ fact ∈ s.sayings n := by
  constructor
  · intro hp
    obtain ⟨i, g, hg, hf⟩ := hp
    cases i with
    | zero =>
      obtain rfl : s = g := by simpa [at?] using hg
      exact hf
    | succ i =>
      rw [h] at hg
      cases hg
  · exact fun hf => ⟨0, s, by simp [at?], hf⟩

theorem says_not : (not s).Says n fact ↔
    fact ∈ (not s).sayings n ∨ s.Says (n.behind 1) fact := by
  constructor
  · intro h
    obtain ⟨i, g, hg, hf⟩ := h
    cases i with
    | zero =>
      obtain rfl : not s = g := by simpa [at?] using hg
      exact Or.inl hf
    | succ i =>
      refine Or.inr ⟨i, g, hg, ?_⟩
      rwa [Node.behind_behind, Nat.add_comm]
  · intro h
    rcases h with hf | ⟨i, g, hg, hf⟩
    · exact ⟨0, _, rfl, hf⟩
    · refine ⟨i + 1, g, hg, ?_⟩
      rwa [Node.behind_behind, Nat.add_comm] at hf

theorem says_junction {j : Junction} {l r : Skeleton} : (junction j l r).Says n fact ↔
    fact ∈ (junction j l r).sayings n ∨ l.Says (n.behind 1) fact ∨
      r.Says (n.behind (l.size + 1)) fact := by
  constructor
  · intro h
    obtain ⟨i, g, hg, hf⟩ := h
    cases i with
    | zero =>
      obtain rfl : junction j l r = g := by simpa [at?] using hg
      exact Or.inl hf
    | succ i =>
      rcases at?_junction_cases hg with ⟨-, hl⟩ | ⟨k, rfl, hr⟩
      · refine Or.inr (Or.inl ⟨i, g, hl, ?_⟩)
        rwa [Node.behind_behind, Nat.add_comm]
      · refine Or.inr (Or.inr ⟨k, g, hr, ?_⟩)
        rwa [Node.behind_behind, Nat.add_right_comm]
  · intro h
    rcases h with hf | ⟨i, g, hg, hf⟩ | ⟨i, g, hg, hf⟩
    · exact ⟨0, _, rfl, hf⟩
    · refine ⟨i + 1, g, (at?_left (lt_size hg)).trans hg, ?_⟩
      rwa [Node.behind_behind, Nat.add_comm] at hf
    · refine ⟨l.size + i + 1, g, (at?_right _ _ _ _).trans hg, ?_⟩
      rwa [Node.behind_behind, Nat.add_right_comm] at hf

/-- The facts of the tree whose root stands at a node, in the order in which they are given. -/
def factsAt (n : Node) : Skeleton → List Fact
  | atom name => [.formula n, .isAtom n name]
  | verum => [.formula n, .isTrue n]
  | falsum => [.formula n, .isFalse n]
  | not inner => .formula n :: (inner.factsAt (n.behind 1) ++ [.negation n (n.behind 1)])
  | junction j lhs rhs =>
    .formula n :: (j.head n ++ lhs.factsAt (n.behind 1) ++ [j.link (n.behind 1) n] ++
      rhs.factsAt (n.behind (lhs.size + 1)) ++ [j.link (n.behind (lhs.size + 1)) n])

/-- The places that a tree takes are consecutive. -/
theorem declare_describe (s : Skeleton) (n : Node) :
    Fact.declare s.describe n.formula n.index = (n, s.factsAt n, n.index + s.size) := by
  induction s generalizing n with
  | atom name => rfl
  | verum => rfl
  | falsum => rfl
  | not inner ih =>
    have hd : Fact.declare inner.describe n.formula (n.index + 1) =
        (n.behind 1, inner.factsAt (n.behind 1), n.index + 1 + inner.size) := ih (n.behind 1)
    have heq : n.index + 1 + inner.size = n.index + (inner.size + 1) := by omega
    unfold Fact.declare describe Fact.describeNot size
    rw [← heq]
    simp only [hd, factsAt]
  | junction j l r ihl ihr =>
    have heq : n.index + 1 + l.size = n.index + (l.size + 1) := by omega
    have hl : Fact.declare l.describe n.formula (n.index + 1) =
        (n.behind 1, l.factsAt (n.behind 1), n.index + (l.size + 1)) := heq ▸ ihl (n.behind 1)
    have hr : Fact.declare r.describe n.formula (n.index + (l.size + 1)) =
        (n.behind (l.size + 1), r.factsAt (n.behind (l.size + 1)), n.index + (l.size + 1) + r.size) :=
      ihr (n.behind (l.size + 1))
    have hsize : n.index + (l.size + 1) + r.size = n.index + (l.size + r.size + 1) := by omega
    rw [Fact.declare, describe, Fact.describeJunction, size, ← hsize]
    simp only [hl, hr, factsAt]

/-- **The facts of a tree** are what its nodes say. -/
theorem mem_factsAt : fact ∈ s.factsAt n ↔ s.Says n fact := by
  induction s generalizing n with
  | atom name =>
    rw [says_leaf fun _ => rfl]
    rfl
  | verum =>
    rw [says_leaf fun _ => rfl]
    rfl
  | falsum =>
    rw [says_leaf fun _ => rfl]
    rfl
  | not inner ih =>
    rw [says_not, ← ih]
    simp only [factsAt, sayings, List.mem_cons, List.mem_append, List.not_mem_nil, or_false]
    tauto
  | junction j l r ihl ihr =>
    rw [says_junction, ← ihl, ← ihr]
    simp only [factsAt, sayings, List.mem_cons, List.mem_append, List.not_mem_nil, or_false]
    tauto

theorem ofFormula_eq (id : Nat) (f : Formula) :
    Fact.ofFormula id f = .kbFormula id (.root id) :: f.skeleton.factsAt (.root id) := by
  have hd : Fact.declare f.skeleton.describe id 0 =
      (.root id, f.skeleton.factsAt (.root id), 0 + f.skeleton.size) := declare_describe _ (.root id)
  unfold Fact.ofFormula
  rw [describe_skeleton]
  simp only [hd]

end Skeleton

/-- The fact that a node is of the kind. -/
def Junction.kind : Junction → Node → Fact
  | conjunction => .conjunction
  | disjunction => .disjunction

/-- The fact that a node of the kind has so many operands. -/
def Junction.arity : Junction → Node → Nat → Fact
  | conjunction => .numConjuncts
  | disjunction => .numDisjuncts

theorem Junction.head_eq (j : Junction) (n : Node) : j.head n = [j.kind n, j.arity n 2] := by
  cases j <;> rfl

/-- The node that a fact is about; the fact that names a root is about the formula. -/
def Fact.subject? : Fact → Option Node
  | kbFormula _ _ => none
  | formula n | isAtom n _ | isTrue n | isFalse n | negation n _ => some n
  | conjunction n | numConjuncts n _ | conjunctOf _ n => some n
  | disjunction n | numDisjuncts n _ | disjunctOf _ n => some n

theorem Skeleton.subject?_of_mem_sayings {g : Skeleton} {n : Node} {fact : Fact}
    (h : fact ∈ g.sayings n) : fact.subject? = some n := by
  rcases g with _ | _ | _ | _ | ⟨_ | _⟩ <;>
    simp only [sayings, Junction.head, Junction.link, List.cons_append, List.nil_append,
      List.mem_cons, List.not_mem_nil, or_false] at h
  case atom | verum | falsum | not => rcases h with rfl | rfl <;> rfl
  case junction.conjunction | junction.disjunction =>
    rcases h with rfl | rfl | rfl | rfl | rfl <;> rfl

namespace KnowledgeBase

variable {kb : KnowledgeBase} {n m : Node}

/-- The tree at a node. -/
def node? (kb : KnowledgeBase) (n : Node) : Option Skeleton :=
  (kb.formulas[n.formula]?).bind fun f => f.skeleton.at? n.index

def facts (kb : KnowledgeBase) : List Fact := (Program.ofKnowledgeBase kb).facts

theorem mem_factsFrom {id : Nat} {fs : List Formula} {fact : Fact} :
    fact ∈ Program.factsFrom id fs ↔ ∃ k f, fs[k]? = some f ∧
      (fact = .kbFormula (id + k) (.root (id + k)) ∨
        f.skeleton.Says (.root (id + k)) fact) := by
  induction fs generalizing id with
  | nil => simp [Program.factsFrom]
  | cons f fs ih =>
    unfold Program.factsFrom
    rw [Skeleton.ofFormula_eq, List.mem_append, List.mem_cons, Skeleton.mem_factsAt, ih]
    constructor
    · intro hp
      rcases hp with h | ⟨k, f', hk, h⟩
      · exact ⟨0, f, rfl, h⟩
      · refine ⟨k + 1, f', hk, ?_⟩
        rwa [← Nat.add_assoc, Nat.add_right_comm]
    · intro hp
      obtain ⟨k, f', hk, h⟩ := hp
      cases k with
      | zero =>
        obtain rfl : f = f' := Option.some_inj.mp hk
        exact Or.inl h
      | succ k =>
        refine Or.inr ⟨k, f', hk, ?_⟩
        rwa [← Nat.add_assoc, Nat.add_right_comm] at h

/-- **The facts of a knowledge base** name the root of each formula, and are otherwise
what its nodes say. -/
theorem mem_facts {fact : Fact} : fact ∈ kb.facts ↔
    (∃ id < kb.size, fact = .kbFormula id (.root id)) ∨
      ∃ n g, kb.node? n = some g ∧ fact ∈ g.sayings n := by
  unfold facts Program.ofKnowledgeBase
  rw [mem_factsFrom]
  simp only [Nat.zero_add]
  constructor
  · intro hp
    obtain ⟨id, f, hf, h | ⟨i, g, hg, h⟩⟩ := hp
    · exact Or.inl ⟨id, (List.getElem?_eq_some_iff.mp hf).1, h⟩
    · refine Or.inr ⟨(Node.root id).behind i, g, ?_, h⟩
      simp only [node?, Node.root, Node.behind, Nat.zero_add, hf, Option.bind_some, hg]
  · intro hp
    rcases hp with ⟨id, hid, h⟩ | ⟨n, g, hg, h⟩
    · exact ⟨id, _, List.getElem?_eq_getElem hid, Or.inl h⟩
    · obtain ⟨f, hf, hg⟩ := Option.bind_eq_some_iff.mp hg
      refine ⟨n.formula, f, hf, Or.inr ⟨n.index, g, hg, ?_⟩⟩
      simpa only [Node.root, Node.behind, Nat.zero_add] using h

/-! ### What is said of a node -/

theorem kbFormula_mem {id : Nat} : .kbFormula id n ∈ kb.facts ↔ id < kb.size ∧ n = .root id := by
  rw [mem_facts]
  constructor
  · intro hp
    rcases hp with ⟨i, hi, h⟩ | ⟨m, g, -, h⟩
    · cases h
      exact ⟨hi, rfl⟩
    · have hs := Skeleton.subject?_of_mem_sayings h
      cases hs
  · intro hp
    obtain ⟨hi, rfl⟩ := hp
    exact Or.inl ⟨id, hi, rfl⟩

/-- A fact about a node is said by the tree at that node. -/
theorem mem_facts_iff {fact : Fact} (hn : fact.subject? = some n) {Q : Skeleton → Prop}
    (hQ : ∀ g, fact ∈ g.sayings n ↔ Q g) : fact ∈ kb.facts ↔ ∃ g, kb.node? n = some g ∧ Q g := by
  rw [mem_facts]
  constructor
  · intro hp
    rcases hp with ⟨i, -, rfl⟩ | ⟨m, g, hg, h⟩
    · cases hn
    · obtain rfl : m = n := by
        have hs := Skeleton.subject?_of_mem_sayings h
        rw [hn] at hs
        exact (Option.some_inj.mp hs).symm
      exact ⟨g, hg, (hQ g).mp h⟩
  · intro hp
    obtain ⟨g, hg, h⟩ := hp
    exact Or.inr ⟨n, g, hg, (hQ g).mpr h⟩

theorem formula_mem : .formula n ∈ kb.facts ↔ ∃ g, kb.node? n = some g := by
  rw [mem_facts_iff rfl (Q := fun _ => True) fun g => by cases g <;> simp [Skeleton.sayings]]
  simp

theorem isAtom_mem {a : String} : .isAtom n a ∈ kb.facts ↔ kb.node? n = some (.atom a) := by
  rw [mem_facts_iff rfl (Q := (· = .atom a)) fun g => ?_]
  · simp
  · rcases g with _ | _ | _ | _ | ⟨_ | _⟩ <;>
      simp [Skeleton.sayings, Junction.head, Junction.link, eq_comm]

theorem isTrue_mem : .isTrue n ∈ kb.facts ↔ kb.node? n = some .verum := by
  rw [mem_facts_iff rfl (Q := (· = .verum)) fun g => ?_]
  · simp
  · rcases g with _ | _ | _ | _ | ⟨_ | _⟩ <;>
      simp [Skeleton.sayings, Junction.head, Junction.link]

theorem isFalse_mem : .isFalse n ∈ kb.facts ↔ kb.node? n = some .falsum := by
  rw [mem_facts_iff rfl (Q := (· = .falsum)) fun g => ?_]
  · simp
  · rcases g with _ | _ | _ | _ | ⟨_ | _⟩ <;>
      simp [Skeleton.sayings, Junction.head, Junction.link]

theorem negation_mem :
    .negation n m ∈ kb.facts ↔ ∃ g, kb.node? n = some (.not g) ∧ m = n.behind 1 := by
  rw [mem_facts_iff rfl (Q := fun g => ∃ h, g = .not h ∧ m = n.behind 1) fun g => ?_]
  · constructor
    · intro hp
      obtain ⟨_, hg, h, rfl, hm⟩ := hp
      exact ⟨h, hg, hm⟩
    · intro hp
      obtain ⟨h, hg, hm⟩ := hp
      exact ⟨_, hg, h, rfl, hm⟩
  · rcases g with _ | _ | _ | _ | ⟨_ | _⟩ <;>
      simp [Skeleton.sayings, Junction.head, Junction.link]

variable {j : Junction}

theorem junction_mem {fact : Fact} (hn : fact.subject? = some n) {Q : Skeleton → Prop}
    (hQ : ∀ l r, fact ∈ (Skeleton.junction j l r).sayings n ↔ Q l)
    (hno : ∀ g : Skeleton, fact ∈ g.sayings n → ∃ l r, g = .junction j l r) :
    fact ∈ kb.facts ↔ ∃ l r, kb.node? n = some (.junction j l r) ∧ Q l := by
  rw [mem_facts_iff hn (Q := fun g => ∃ l r, g = .junction j l r ∧ Q l) fun g => ?_]
  · constructor
    · intro hp
      obtain ⟨_, hg, l, r, rfl, h⟩ := hp
      exact ⟨l, r, hg, h⟩
    · intro hp
      obtain ⟨l, r, hg, h⟩ := hp
      exact ⟨_, hg, l, r, rfl, h⟩
  · constructor
    · intro h
      obtain ⟨l, r, rfl⟩ := hno g h
      exact ⟨l, r, rfl, (hQ l r).mp h⟩
    · intro hp
      obtain ⟨l, r, rfl, h⟩ := hp
      exact (hQ l r).mpr h

theorem kind_mem : j.kind n ∈ kb.facts ↔ ∃ l r, kb.node? n = some (.junction j l r) := by
  have hn : (j.kind n).subject? = some n := by cases j <;> rfl
  rw [junction_mem (j := j) (Q := fun _ => True) hn (fun l r => ?_) fun g h => ?_]
  · simp
  · simp [Skeleton.sayings, Junction.head_eq]
  · rcases g with _ | _ | _ | _ | ⟨_ | _⟩ <;> cases j <;>
      simp_all [Skeleton.sayings, Junction.head, Junction.link, Junction.kind]

theorem arity_mem {k : Nat} :
    j.arity n k ∈ kb.facts ↔ ∃ l r, kb.node? n = some (.junction j l r) ∧ k = 2 := by
  refine junction_mem (Q := fun _ => k = 2) (by cases j <;> rfl) (fun l r => ?_) fun g h => ?_
  · cases j <;> simp [Skeleton.sayings, Junction.head, Junction.link, Junction.arity]
  · rcases g with _ | _ | _ | _ | ⟨_ | _⟩ <;> cases j <;>
      simp_all [Skeleton.sayings, Junction.head, Junction.link, Junction.arity]

theorem link_mem : j.link m n ∈ kb.facts ↔ ∃ l r, kb.node? n = some (.junction j l r) ∧
    (m = n.behind 1 ∨ m = n.behind (l.size + 1)) := by
  refine junction_mem (Q := fun l => m = n.behind 1 ∨ m = n.behind (l.size + 1))
    (by cases j <;> rfl) (fun l r => ?_) fun g h => ?_
  · cases j <;> simp [Skeleton.sayings, Junction.head, Junction.link]
  · rcases g with _ | _ | _ | _ | ⟨_ | _⟩ <;> cases j <;>
      simp_all [Skeleton.sayings, Junction.head, Junction.link]

/-! ### Nodes -/

theorem node?_root {id : Nat} {f : Formula} (h : kb.formulas[id]? = some f) :
    kb.node? (.root id) = some f.skeleton := by
  simp only [node?, Node.root, h, Option.bind_some, Skeleton.at?]

theorem node?_behind {g : Skeleton} {k : Nat} (h : kb.node? n = some g) (hk : k < g.size) :
    kb.node? (n.behind k) = g.at? k := by
  obtain ⟨f, hf, hg⟩ := Option.bind_eq_some_iff.mp h
  simp only [node?, Node.behind, hf, Option.bind_some]
  exact Skeleton.at?_add hg hk

theorem node?_not {g : Skeleton} (h : kb.node? n = some (.not g)) :
    kb.node? (n.behind 1) = some g := by
  have hpos := g.size_pos
  rw [node?_behind h (by simp only [Skeleton.size]; omega)]
  simp only [Skeleton.at?]

theorem node?_left {l r : Skeleton} (h : kb.node? n = some (.junction j l r)) :
    kb.node? (n.behind 1) = some l := by
  have hpos := l.size_pos
  rw [node?_behind h (by simp only [Skeleton.size]; omega), Skeleton.at?_left hpos]
  simp only [Skeleton.at?]

theorem node?_right {l r : Skeleton} (h : kb.node? n = some (.junction j l r)) :
    kb.node? (n.behind (l.size + 1)) = some r := by
  have hpos := r.size_pos
  have hzero : (Skeleton.junction j l r).at? (l.size + 1) = r.at? 0 := Skeleton.at?_right j l r 0
  rw [node?_behind h (by simp only [Skeleton.size]; omega), hzero]
  simp only [Skeleton.at?]

/-- One node stands right below the other. -/
def IsChild (kb : KnowledgeBase) (n m : Node) : Prop :=
  ∃ g, kb.node? n = some g ∧ ∃ c ∈ g.children, m = n.behind c

theorem isChild_iff :
    kb.IsChild n m ↔ .negation n m ∈ kb.facts ∨ ∃ j : Junction, j.link m n ∈ kb.facts := by
  simp only [IsChild, negation_mem, link_mem]
  constructor
  · intro hp
    obtain ⟨g, hg, c, hc, rfl⟩ := hp
    cases g with
    | atom name => cases hc
    | verum => cases hc
    | falsum => cases hc
    | not inner => exact Or.inl ⟨inner, hg, by rw [List.mem_singleton.mp hc]⟩
    | junction j l r =>
      simp only [Skeleton.children, List.mem_cons, List.not_mem_nil, or_false] at hc
      exact Or.inr ⟨j, l, r, hg, hc.imp (fun h => by rw [h]) fun h => by rw [h]⟩
  · intro hp
    rcases hp with ⟨g, hg, rfl⟩ | ⟨j, l, r, hg, rfl | rfl⟩
    · exact ⟨_, hg, 1, by simp [Skeleton.children], rfl⟩
    · exact ⟨_, hg, 1, by simp [Skeleton.children], rfl⟩
    · exact ⟨_, hg, l.size + 1, by simp [Skeleton.children], rfl⟩

/-- A child stands in the same formula, farther behind. -/
theorem IsChild.lt (h : kb.IsChild n m) :
    m.formula = n.formula ∧ n.index < m.index ∧ ∃ g, kb.node? m = some g := by
  obtain ⟨g, hg, c, hc, rfl⟩ := h
  have hc' := Skeleton.child_lt_size hc
  refine ⟨rfl, Nat.lt_add_of_pos_right hc'.1, ?_⟩
  cases g with
  | atom name => cases hc
  | verum => cases hc
  | falsum => cases hc
  | not inner =>
    rw [List.mem_singleton.mp hc]
    exact ⟨_, node?_not hg⟩
  | junction j l r =>
    simp only [Skeleton.children, List.mem_cons, List.not_mem_nil, or_false] at hc
    rcases hc with rfl | rfl
    · exact ⟨_, node?_left hg⟩
    · exact ⟨_, node?_right hg⟩

/-- Every node is a root or a child. -/
theorem root_or_child {g : Skeleton} (h : kb.node? m = some g) :
    m.formula < kb.size ∧ (m = .root m.formula ∨ ∃ n, kb.IsChild n m) := by
  obtain ⟨f, hf, hg⟩ := Option.bind_eq_some_iff.mp h
  refine ⟨(List.getElem?_eq_some_iff.mp hf).1, ?_⟩
  obtain ⟨id, i⟩ := m
  cases i with
  | zero => exact Or.inl rfl
  | succ i =>
    obtain ⟨p, t, ht, -, c, hc, hpc⟩ := Skeleton.exists_parent hg
    refine Or.inr ⟨⟨id, p⟩, t, ?_, c, hc, ?_⟩
    · simp only [node?, hf, Option.bind_some]
      exact ht
    · simp only [Node.behind, hpc]

theorem mem_atoms_iff {a : String} : a ∈ kb.atoms ↔ ∃ n, kb.node? n = some (.atom a) := by
  rw [mem_atoms]
  constructor
  · intro h
    obtain ⟨f, hf, ha⟩ := h
    obtain ⟨id, hid⟩ := List.mem_iff_getElem?.mp hf
    obtain ⟨i, hi⟩ := Skeleton.mem_leaves_iff.mp (Skeleton.mem_leaves_skeleton.mpr ha)
    exact ⟨⟨id, i⟩, Option.bind_eq_some_iff.mpr ⟨f, hid, hi⟩⟩
  · intro h
    obtain ⟨n, hn⟩ := h
    obtain ⟨f, hf, hi⟩ := Option.bind_eq_some_iff.mp hn
    exact ⟨f, List.mem_of_getElem? hf,
      Skeleton.mem_leaves_skeleton.mp (Skeleton.mem_leaves_iff.mpr ⟨_, hi⟩)⟩

end KnowledgeBase
end LeastGlut
