/-
# The answer sets of a program

No fact ties a node to itself or to one before it, so the ground rules that
apply conclude from lower to higher (`KnowledgeBase.stratified`): from an atom's
value to a leaf, from the operands to a node, from a node to what stands below
it.

For every choice of values there is one answer set of the rules without the
denial. In it each node has the value of its tree and no other, the nodes of a
formula are those contained in its root, and the inconsistent formulas are those
that hold a glutted atom (`KnowledgeBase.answer`). The denial leaves those in
which no root is false.

Key definitions: `KnowledgeBase.answer`, `KnowledgeBase.Chooses`,
`KnowledgeBase.rank`, `KnowledgeBase.Reads`.
-/
import LeastGlut.Proofs.Grounding
import Mathlib.Data.Prod.Lex

namespace LeastGlut

open AnswerSets

/-- How far the predicate of an atom is from the facts. -/
@[simp] def GroundAtom.level : GroundAtom → Nat
  | fact _ => 0
  | value _ => 0
  | atom _ => 1
  | val _ _ => 2
  | holds _ _ => 3
  | contains _ _ => 4
  | inconsistent _ => 5

namespace Junction

theorem apply_eq_iff (j : Junction) (x y v : Truth) : j.apply x y = v ↔
    v = j.unit ∧ x = j.unit ∧ y = j.unit ∨ v = j.zero ∧ (x = j.zero ∨ y = j.zero) ∨
      v = .b ∧ j.apply x y ≠ .t ∧ j.apply x y ≠ .f := by
  cases j <;> cases x <;> cases y <;> cases v <;> decide

end Junction

namespace KnowledgeBase

variable {kb : KnowledgeBase} {x : String → Truth} {I : Set GroundAtom}

/-- The ground rules of the knowledge base's program that conclude an atom. -/
def conclusions (kb : KnowledgeBase) : Set (Rule Node GroundAtom) :=
  {r | (Program.ofKnowledgeBase kb).Concludes r}

/-- What the rules conclude from a choice of values. -/
def answer (kb : KnowledgeBase) (x : String → Truth) : Set GroundAtom := fun
  | .fact fact => fact ∈ kb.facts
  | .value _ => True
  | .atom a => a ∈ kb.atoms
  | .val a v => a ∈ kb.atoms ∧ x a = v
  | .holds n v => ∃ g, kb.node? n = some g ∧ g.eval x = v
  | .contains root n => root = .root n.formula ∧ ∃ g, kb.node? n = some g
  | .inconsistent id => id ∈ kb.glutted x

/-- The atoms of the knowledge base have in `I` just the values that `x` gives them. -/
def Chooses (kb : KnowledgeBase) (I : Set GroundAtom) (x : String → Truth) : Prop :=
  ∀ a ∈ kb.atoms, ∀ v, .val a v ∈ I ↔ x a = v

theorem holds_mem_answer {n : Node} {g : Skeleton} (h : kb.node? n = some g) {v : Truth} :
    .holds n v ∈ kb.answer x ↔ g.eval x = v := by
  constructor
  · intro hp
    obtain ⟨g', hg', hv⟩ := hp
    rw [h, Option.some_inj] at hg'
    rw [hg']
    exact hv
  · exact fun hv => ⟨g, h, hv⟩

theorem glutted_mem_iff {id : Nat} :
    id ∈ kb.glutted x ↔ ∃ f, kb.formulas[id]? = some f ∧ f.glutted x := by
  unfold glutted
  rw [List.mem_filter, List.mem_range, Option.any_eq_true]
  constructor
  · intro h
    obtain ⟨-, f, hf, hg⟩ := h
    exact ⟨f, hf, hg⟩
  · intro h
    obtain ⟨f, hf, hg⟩ := h
    exact ⟨(List.getElem?_eq_some_iff.mp hf).1, f, hf, hg⟩

/-- A formula holds a glutted atom when one of its leaves does. -/
theorem glutted_mem_iff_node {id : Nat} : id ∈ kb.glutted x ↔
    ∃ (n : Node) (a : String), n.formula = id ∧ kb.node? n = some (.atom a) ∧ x a = .b := by
  rw [glutted_mem_iff]
  constructor
  · intro h
    obtain ⟨f, hf, hg⟩ := h
    obtain ⟨a, ha, hb⟩ := Formula.glutted_iff.mp hg
    obtain ⟨i, hi⟩ := Skeleton.mem_leaves_iff.mp (Skeleton.mem_leaves_skeleton.mpr ha)
    exact ⟨⟨id, i⟩, a, rfl, Option.bind_eq_some_iff.mpr ⟨f, hf, hi⟩, hb⟩
  · intro h
    obtain ⟨n, a, rfl, hn, hb⟩ := h
    obtain ⟨f, hf, hi⟩ := Option.bind_eq_some_iff.mp hn
    have ha := Skeleton.mem_leaves_skeleton.mp (Skeleton.mem_leaves_iff.mpr ⟨_, hi⟩)
    exact ⟨f, hf, Formula.glutted_iff.mpr ⟨a, ha, hb⟩⟩

/-! ### Counting operands -/

theorem encard_pair_eq_two_iff {m m' : Node} (hne : m ≠ m') {Q : Node → Prop} :
    {n | (n = m ∨ n = m') ∧ Q n}.encard = 2 ↔ Q m ∧ Q m' := by
  constructor
  · intro h
    have hone : ∀ {k k' : Node}, ¬Q k → {n | (n = k ∨ n = k') ∧ Q n}.encard ≤ 1 := by
      intro k k' hk
      rw [Set.encard_le_one_iff]
      rintro a b ⟨ha, hqa⟩ ⟨hb, hqb⟩
      have ha' := ha.resolve_left fun h => hk (h ▸ hqa)
      have hb' := hb.resolve_left fun h => hk (h ▸ hqb)
      rw [ha', hb']
    have htwo : ¬(2 : ENat) ≤ 1 := by decide
    refine ⟨by_contra fun hm => htwo (h ▸ hone hm), by_contra fun hm => htwo ?_⟩
    have hswap : {n | (n = m ∨ n = m') ∧ Q n} = {n | (n = m' ∨ n = m) ∧ Q n} := by
      ext n
      simp only [Set.mem_ofPred_eq, or_comm]
    rw [← h, hswap]
    exact hone hm
  · intro hp
    obtain ⟨hm, hm'⟩ := hp
    have hset : {n | (n = m ∨ n = m') ∧ Q n} = {m, m'} := by
      ext n
      simp only [Set.mem_ofPred_eq, Set.mem_insert_iff, Set.mem_singleton_iff]
      constructor
      · exact And.left
      · intro hp
        rcases hp with rfl | rfl
        · exact ⟨Or.inl rfl, hm⟩
        · exact ⟨Or.inr rfl, hm'⟩
    rw [hset, Set.encard_pair hne]

/-- **The count of the operands with a value** is the arity when both have it. -/
theorem encard_operands_eq_two_iff {n : Node} {j : Junction} {l r : Skeleton}
    (h : kb.node? n = some (.junction j l r)) (v : Truth) :
    (tuples (fun m => [.fact (j.link m n), .holds m v]) (kb.answer x)).encard = 2 ↔
      l.eval x = v ∧ r.eval x = v := by
  have hne := l.behind_one_ne n
  have hset : tuples (fun m => [.fact (j.link m n), .holds m v]) (kb.answer x) =
      {m | (m = n.behind 1 ∨ m = n.behind (l.size + 1)) ∧ .holds m v ∈ kb.answer x} := by
    ext m
    have hlink : GroundAtom.fact (j.link m n) ∈ kb.answer x ↔
        m = n.behind 1 ∨ m = n.behind (l.size + 1) := by
      show j.link m n ∈ kb.facts ↔ _
      rw [link_mem]
      constructor
      · intro hp
        obtain ⟨l', r', h', hm⟩ := hp
        rw [h] at h'
        cases h'
        exact hm
      · exact fun hm => ⟨l, r, h, hm⟩
    simp [tuples, hlink]
  rw [hset, encard_pair_eq_two_iff hne, holds_mem_answer (node?_left h),
    holds_mem_answer (node?_right h)]

/-! ### The answer is a model -/

theorem model_answer : ∀ r ∈ kb.conclusions,
    r.Sat (kb.answer x) (kb.answer x) := by
  intro r hr ha
  simp only [Rule.Applies] at ha
  cases hr with
  | fact h => exact h
  | value v => trivial
  | atom n a =>
    have hn := isAtom_mem.mp (ha _ List.mem_cons_self)
    exact mem_atoms_iff.mpr ⟨n, hn⟩
  | choose a =>
    have hm : a ∈ kb.atoms := ha _ List.mem_cons_self
    have hset : offered (Truth.all.map fun v => (GroundAtom.val a v, [.value v])) (kb.answer x) ∩
        kb.answer x = {.val a (x a)} := by
      ext b
      simp only [Set.mem_inter_iff, Set.mem_singleton_iff]
      constructor
      · intro hp
        obtain ⟨⟨o, ho, rfl, -⟩, hb⟩ := hp
        obtain ⟨v, -, rfl⟩ := List.mem_map.mp ho
        rw [hb.2]
      · rintro rfl
        refine ⟨⟨_, List.mem_map.mpr ⟨x a, ?_, rfl⟩, rfl, fun c hc => ?_⟩, hm, rfl⟩
        · cases x a <;> decide
        · rw [List.mem_singleton.mp hc]
          trivial
    refine ⟨fun b _ => Classical.em _, ?_, ?_⟩ <;> rw [hset, Set.encard_singleton] <;> rfl
  | leaf n a v =>
    have hn := isAtom_mem.mp (ha _ List.mem_cons_self)
    have hv : a ∈ kb.atoms ∧ x a = v := ha _ (List.mem_cons_of_mem _ List.mem_cons_self)
    exact (holds_mem_answer hn).mpr hv.2
  | verum n => exact (holds_mem_answer (isTrue_mem.mp (ha _ List.mem_cons_self))).mpr rfl
  | falsum n => exact (holds_mem_answer (isFalse_mem.mp (ha _ List.mem_cons_self))).mpr rfl
  | negation n m v =>
    obtain ⟨g, hg, rfl⟩ := negation_mem.mp (ha _ List.mem_cons_self)
    have hm := ha _ (List.mem_cons_of_mem _ List.mem_cons_self)
    have hv := (holds_mem_answer (node?_not hg)).mp hm
    refine (holds_mem_answer hg).mpr ?_
    unfold Skeleton.eval
    rw [hv]
  | all j n size =>
    simp only [List.forall_mem_cons, Condition.Sat] at ha
    obtain ⟨hk, hs, hc, -⟩ := ha
    obtain ⟨l, r, hg, rfl⟩ := arity_mem.mp hs
    obtain ⟨hl, hr⟩ := (encard_operands_eq_two_iff hg j.unit).mp hc.1
    refine (holds_mem_answer hg).mpr ?_
    unfold Skeleton.eval
    rw [hl, hr]
    cases j <;> rfl
  | any j n m =>
    simp only [List.forall_mem_cons, Condition.Sat] at ha
    obtain ⟨-, hlink, hv, -⟩ := ha
    obtain ⟨l, r, hg, hm⟩ := link_mem.mp hlink
    have hzero : l.eval x = j.zero ∨ r.eval x = j.zero := by
      rcases hm with rfl | rfl
      · exact Or.inl ((holds_mem_answer (node?_left hg)).mp hv)
      · exact Or.inr ((holds_mem_answer (node?_right hg)).mp hv)
    refine (holds_mem_answer hg).mpr ?_
    exact (Junction.apply_eq_iff _ _ _ _).mpr (Or.inr (Or.inl ⟨rfl, hzero⟩))
  | otherwise j n =>
    simp only [List.forall_mem_cons, Condition.Sat] at ha
    obtain ⟨hk, ht, hf, -⟩ := ha
    obtain ⟨l, r, hg⟩ := kind_mem.mp hk
    rw [holds_mem_answer hg] at ht hf
    refine (holds_mem_answer hg).mpr ?_
    revert ht hf
    cases Skeleton.eval x (.junction j l r) <;> simp
  | containsRoot id n =>
    obtain ⟨hid, rfl⟩ := kbFormula_mem.mp (ha _ List.mem_cons_self)
    exact ⟨rfl, _, node?_root (List.getElem?_eq_getElem hid)⟩
  | containsInner root n m =>
    simp only [List.forall_mem_cons, Condition.Sat] at ha
    obtain ⟨⟨hroot, -⟩, hneg, -⟩ := ha
    obtain ⟨hf, -, hm⟩ := (isChild_iff.mpr (Or.inl hneg)).lt
    exact ⟨hf ▸ hroot, hm⟩
  | containsOperand j root n m =>
    simp only [List.forall_mem_cons, Condition.Sat] at ha
    obtain ⟨⟨hroot, -⟩, hlink, -⟩ := ha
    obtain ⟨hf, -, hm⟩ := (isChild_iff.mpr (Or.inr ⟨j, hlink⟩)).lt
    exact ⟨hf ▸ hroot, hm⟩
  | inconsistent id root n a =>
    simp only [List.forall_mem_cons, Condition.Sat] at ha
    obtain ⟨hroot, ⟨hcontains, -⟩, hatom, ⟨-, hb⟩, -⟩ := ha
    obtain ⟨-, rfl⟩ := kbFormula_mem.mp hroot
    have hf : id = n.formula := congrArg Node.formula hcontains
    exact glutted_mem_iff_node.mpr ⟨n, a, hf.symm, isAtom_mem.mp hatom, hb⟩

/-! ### The answer is supported -/

theorem supported_holds {n : Node} {g : Skeleton} (hg : kb.node? n = some g) :
    Supported kb.conclusions (kb.answer x) (.holds n (g.eval x)) := by
  cases g with
  | atom a =>
    refine supported_of_atom (.leaf n a (x a)) ?_
    simp only [List.forall_mem_cons, Condition.Sat]
    exact ⟨isAtom_mem.mpr hg, ⟨mem_atoms_iff.mpr ⟨n, hg⟩, rfl⟩, List.forall_mem_nil _⟩
  | verum =>
    exact supported_of_atom (.verum n) (List.forall_mem_singleton.mpr (isTrue_mem.mpr hg))
  | falsum =>
    exact supported_of_atom (.falsum n) (List.forall_mem_singleton.mpr (isFalse_mem.mpr hg))
  | not inner =>
    refine supported_of_atom (.negation n (n.behind 1) (inner.eval x)) ?_
    simp only [List.forall_mem_cons, Condition.Sat]
    exact ⟨negation_mem.mpr ⟨inner, hg, rfl⟩, ⟨inner, node?_not hg, rfl⟩, List.forall_mem_nil _⟩
  | junction j l r =>
    have hk : .fact (j.kind n) ∈ kb.answer x := kind_mem.mpr ⟨l, r, hg⟩
    have hcases := (Junction.apply_eq_iff j (l.eval x) (r.eval x) _).mp rfl
    unfold Skeleton.eval
    rcases hcases with ⟨hv, hl, hr⟩ | ⟨hv, hz⟩ | ⟨hv, ht, hf⟩
    · have hc := (encard_operands_eq_two_iff hg j.unit).mpr ⟨hl, hr⟩
      rw [hv]
      refine supported_of_atom (.all j n 2) ?_
      simp only [List.forall_mem_cons, Condition.Sat]
      exact ⟨hk, arity_mem.mpr ⟨l, r, hg, rfl⟩, ⟨hc, hc⟩, List.forall_mem_nil _⟩
    · rw [hv]
      rcases hz with hl | hr
      · refine supported_of_atom (.any j n (n.behind 1)) ?_
        simp only [List.forall_mem_cons, Condition.Sat]
        exact ⟨hk, link_mem.mpr ⟨l, r, hg, Or.inl rfl⟩, ⟨l, node?_left hg, hl⟩,
          List.forall_mem_nil _⟩
      · refine supported_of_atom (.any j n (n.behind (l.size + 1))) ?_
        simp only [List.forall_mem_cons, Condition.Sat]
        exact ⟨hk, link_mem.mpr ⟨l, r, hg, Or.inr rfl⟩, ⟨r, node?_right hg, hr⟩,
          List.forall_mem_nil _⟩
    · rw [hv]
      refine supported_of_atom (.otherwise j n) ?_
      simp only [List.forall_mem_cons, Condition.Sat, holds_mem_answer hg]
      exact ⟨hk, ht, hf, List.forall_mem_nil _⟩

theorem supported_contains {n : Node} {g : Skeleton} (hg : kb.node? n = some g) :
    Supported kb.conclusions (kb.answer x)
      (.contains (.root n.formula) n) := by
  obtain ⟨hlt, hroot | ⟨m, hm⟩⟩ := root_or_child hg
  · rw [← hroot]
    refine supported_of_atom (.containsRoot n.formula n) (List.forall_mem_singleton.mpr ?_)
    exact kbFormula_mem.mpr ⟨hlt, hroot⟩
  · have hcontains : .contains (.root n.formula) m ∈ kb.answer x := by
      obtain ⟨g', hg', -⟩ := id hm
      rw [hm.lt.1]
      exact ⟨rfl, g', hg'⟩
    rcases isChild_iff.mp hm with hneg | ⟨j, hlink⟩
    · refine supported_of_atom (.containsInner _ m n) ?_
      simp only [List.forall_mem_cons, Condition.Sat]
      exact ⟨hcontains, hneg, List.forall_mem_nil _⟩
    · refine supported_of_atom (.containsOperand j _ m n) ?_
      simp only [List.forall_mem_cons, Condition.Sat]
      exact ⟨hcontains, hlink, List.forall_mem_nil _⟩

theorem supported_answer : ∀ a ∈ kb.answer x,
    Supported kb.conclusions (kb.answer x) a := by
  intro a ha
  cases a with
  | fact fact => exact supported_of_atom (.fact ha) (List.forall_mem_nil _)
  | value v => exact supported_of_atom (.value v) (List.forall_mem_nil _)
  | atom a =>
    obtain ⟨n, hn⟩ := mem_atoms_iff.mp ha
    exact supported_of_atom (.atom n a) (List.forall_mem_singleton.mpr (isAtom_mem.mpr hn))
  | val a v =>
    refine ⟨_, .choose a, List.forall_mem_singleton.mpr ha.1, ?_⟩
    refine ⟨(.val a v, [.value v]), List.mem_map.mpr ⟨v, ?_, rfl⟩, rfl, ?_⟩
    · cases v <;> decide
    · exact List.forall_mem_singleton.mpr trivial
  | holds n v =>
    obtain ⟨g, hg, rfl⟩ := ha
    exact supported_holds hg
  | contains root n =>
    obtain ⟨rfl, g, hg⟩ := ha
    exact supported_contains hg
  | inconsistent id =>
    obtain ⟨n, a, rfl, hn, hb⟩ := glutted_mem_iff_node.mp ha
    obtain ⟨hlt, -⟩ := root_or_child hn
    refine supported_of_atom (.inconsistent n.formula (.root n.formula) n a) ?_
    simp only [List.forall_mem_cons, Condition.Sat]
    exact ⟨kbFormula_mem.mpr ⟨hlt, rfl⟩, ⟨rfl, _, hn⟩, isAtom_mem.mpr hn,
      ⟨mem_atoms_iff.mpr ⟨n, hn⟩, hb⟩, List.forall_mem_nil _⟩

/-! ### Ranks -/

/-- The number of nodes at and below a node. -/
def sizeAt (kb : KnowledgeBase) (n : Node) : Nat := ((kb.node? n).map Skeleton.size).getD 0

theorem IsChild.sizeAt_lt {n m : Node} (h : kb.IsChild n m) : kb.sizeAt m < kb.sizeAt n := by
  obtain ⟨g, hg, c, hc, rfl⟩ := h
  unfold sizeAt
  cases g with
  | atom name => cases hc
  | verum => cases hc
  | falsum => cases hc
  | not inner =>
    rw [List.mem_singleton.mp hc, hg, node?_not hg]
    exact Nat.lt_succ_self _
  | junction j l r =>
    simp only [Skeleton.children, List.mem_cons, List.not_mem_nil, or_false] at hc
    rcases hc with rfl | rfl
    · rw [hg, node?_left hg]
      simp only [Option.map_some, Option.getD_some, Skeleton.size]
      omega
    · rw [hg, node?_right hg]
      simp only [Option.map_some, Option.getD_some, Skeleton.size]
      omega

/-- The place of an atom among those of its predicate. A node takes the value `b` after the
other two. -/
def place (kb : KnowledgeBase) : GroundAtom → Nat
  | .holds n v => 2 * kb.sizeAt n + if v = .b then 1 else 0
  | .contains _ n => n.index
  | _ => 0

def rank (kb : KnowledgeBase) (a : GroundAtom) : ℕ ×ₗ ℕ := toLex (a.level, kb.place a)

theorem rank_lt_of_level {a b : GroundAtom} (h : a.level < b.level) : kb.rank a < kb.rank b :=
  Prod.Lex.toLex_lt_toLex.mpr (Or.inl h)

theorem rank_lt_of_place {a b : GroundAtom} (h : a.level = b.level) (hp : kb.place a < kb.place b) :
    kb.rank a < kb.rank b :=
  Prod.Lex.toLex_lt_toLex.mpr (Or.inr ⟨h, hp⟩)

theorem rank_holds_lt {n m : Node} (h : kb.IsChild n m) (v w : Truth) :
    kb.rank (.holds m v) < kb.rank (.holds n w) := by
  have hlt := h.sizeAt_lt
  refine rank_lt_of_place rfl ?_
  simp only [place]
  split <;> split <;> omega

theorem rank_holds_b {n : Node} {v : Truth} (hv : v ≠ .b) :
    kb.rank (.holds n v) < kb.rank (.holds n .b) := by
  refine rank_lt_of_place rfl ?_
  simp only [place, if_neg hv, if_true]
  omega

theorem rank_contains_lt {n m : Node} (h : kb.IsChild n m) (root : Node) :
    kb.rank (.contains root n) < kb.rank (.contains root m) :=
  rank_lt_of_place rfl h.lt.2.1

/-- **The rules conclude from lower to higher** when the facts are those of the knowledge
base: only these tie a node to its operands. -/
theorem stratified (hI : ∀ fact, .fact fact ∈ I → fact ∈ kb.facts) :
    Stratified kb.rank kb.conclusions I where
  body := by
    intro r hr ha a ho
    simp only [Rule.Applies] at ha
    cases hr with
    | fact h => exact List.forall_mem_nil _
    | value v => exact List.forall_mem_nil _
    | atom n b =>
      obtain rfl : _ = a := ho
      exact List.forall_mem_singleton.mpr (rank_lt_of_level (by simp))
    | choose b =>
      obtain ⟨o, ho, rfl, -⟩ := ho
      obtain ⟨v, -, rfl⟩ := List.mem_map.mp ho
      exact List.forall_mem_singleton.mpr (rank_lt_of_level (by simp))
    | leaf n b v =>
      obtain rfl : _ = a := ho
      simp only [List.forall_mem_cons, Condition.Below]
      exact ⟨rank_lt_of_level (by simp),
        rank_lt_of_level (by simp), List.forall_mem_nil _⟩
    | verum n =>
      obtain rfl : _ = a := ho
      exact List.forall_mem_singleton.mpr (rank_lt_of_level (by simp))
    | falsum n =>
      obtain rfl : _ = a := ho
      exact List.forall_mem_singleton.mpr (rank_lt_of_level (by simp))
    | negation n m v =>
      obtain rfl : _ = a := ho
      have hchild := isChild_iff.mpr (Or.inl (hI _ (ha _ List.mem_cons_self)))
      simp only [List.forall_mem_cons, Condition.Below]
      exact ⟨rank_lt_of_level (by simp), rank_holds_lt hchild _ _,
        List.forall_mem_nil _⟩
    | all j n size =>
      obtain rfl : _ = a := ho
      simp only [List.forall_mem_cons, Condition.Below]
      refine ⟨rank_lt_of_level (by simp),
        rank_lt_of_level (by simp), fun m => ?_, List.forall_mem_nil _⟩
      have hfact : kb.rank (.fact (j.link m n)) < kb.rank (.holds n j.unit) :=
        rank_lt_of_level (by simp)
      by_cases hlink : .fact (j.link m n) ∈ I
      · have hchild := isChild_iff.mpr (Or.inr ⟨j, hI _ hlink⟩)
        exact Or.inl ⟨hfact, rank_holds_lt hchild _ _, List.forall_mem_nil _⟩
      · exact Or.inr ⟨_, List.mem_cons_self, hfact, hlink⟩
    | any j n m =>
      obtain rfl : _ = a := ho
      have hlink := ha _ (List.mem_cons_of_mem _ List.mem_cons_self)
      have hchild := isChild_iff.mpr (Or.inr ⟨j, hI _ hlink⟩)
      simp only [List.forall_mem_cons, Condition.Below]
      exact ⟨rank_lt_of_level (by simp),
        rank_lt_of_level (by simp), rank_holds_lt hchild _ _,
        List.forall_mem_nil _⟩
    | otherwise j n =>
      obtain rfl : _ = a := ho
      simp only [List.forall_mem_cons, Condition.Below]
      exact ⟨rank_lt_of_level (by simp), rank_holds_b (by decide),
        rank_holds_b (by decide), List.forall_mem_nil _⟩
    | containsRoot id n =>
      obtain rfl : _ = a := ho
      exact List.forall_mem_singleton.mpr (rank_lt_of_level (by simp))
    | containsInner root n m =>
      obtain rfl : _ = a := ho
      have hneg := ha _ (List.mem_cons_of_mem _ List.mem_cons_self)
      have hchild := isChild_iff.mpr (Or.inl (hI _ hneg))
      simp only [List.forall_mem_cons, Condition.Below]
      exact ⟨rank_contains_lt hchild root, rank_lt_of_level (by simp),
        List.forall_mem_nil _⟩
    | containsOperand j root n m =>
      obtain rfl : _ = a := ho
      have hlink := ha _ (List.mem_cons_of_mem _ List.mem_cons_self)
      have hchild := isChild_iff.mpr (Or.inr ⟨j, hI _ hlink⟩)
      simp only [List.forall_mem_cons, Condition.Below]
      exact ⟨rank_contains_lt hchild root, rank_lt_of_level (by simp),
        List.forall_mem_nil _⟩
    | inconsistent id root n b =>
      obtain rfl : _ = a := ho
      simp only [List.forall_mem_cons, Condition.Below]
      refine ⟨?_, ?_, ?_, ?_, List.forall_mem_nil _⟩ <;>
        exact rank_lt_of_level (by simp)
  offers := by
    intro r hr least most offers hh o ho c hc
    cases hr with
    | choose b =>
      cases hh
      obtain ⟨v, -, rfl⟩ := List.mem_map.mp ho
      rw [List.mem_singleton.mp hc]
      exact rank_lt_of_level (by simp)
    | _ => cases hh

/-! ### The answer sets -/

variable (hI : IsAnswerSet kb.conclusions I)
include hI

theorem fact_mem_iff {fact : Fact} : .fact fact ∈ I ↔ fact ∈ kb.facts := by
  constructor
  · intro h
    obtain ⟨r, hr, -, ho⟩ := hI.supported h
    cases hr with
    | fact hf =>
      cases ho
      exact hf
    | choose a =>
      obtain ⟨o, hmem, he, -⟩ := ho
      obtain ⟨v, -, rfl⟩ := List.mem_map.mp hmem
      cases he
    | _ => cases ho
  · exact fun h => hI.model _ (.fact h) (List.forall_mem_nil _)

theorem atom_mem_iff {a : String} : .atom a ∈ I ↔ a ∈ kb.atoms := by
  rw [mem_atoms_iff]
  constructor
  · intro h
    obtain ⟨r, hr, hb, ho⟩ := hI.supported h
    simp only [Rule.Applies] at hb
    cases hr with
    | atom n b =>
      cases ho
      exact ⟨n, isAtom_mem.mp ((fact_mem_iff hI).mp (hb _ List.mem_cons_self))⟩
    | choose b =>
      obtain ⟨o, hmem, he, -⟩ := ho
      obtain ⟨v, -, rfl⟩ := List.mem_map.mp hmem
      cases he
    | _ => cases ho
  · intro hp
    obtain ⟨n, hn⟩ := hp
    have hfact := (fact_mem_iff hI).mpr (isAtom_mem.mpr hn)
    exact hI.model _ (.atom n a) (List.forall_mem_singleton.mpr hfact)

theorem mem_atoms_of_val_mem {a : String} {v : Truth} (h : .val a v ∈ I) : a ∈ kb.atoms := by
  obtain ⟨r, hr, hb, ho⟩ := hI.supported h
  simp only [Rule.Applies] at hb
  cases hr with
  | choose b =>
    obtain ⟨o, hmem, he, -⟩ := ho
    obtain ⟨w, -, rfl⟩ := List.mem_map.mp hmem
    cases he
    exact (atom_mem_iff hI).mp (hb _ List.mem_cons_self)
  | _ => cases ho

/-- **An atom takes one value.** -/
theorem exists_val_mem_iff {a : String} (h : a ∈ kb.atoms) :
    ∃ v, ∀ w, .val a w ∈ I ↔ v = w := by
  have hsat := hI.model _ (.choose a) (List.forall_mem_singleton.mpr ((atom_mem_iff hI).mpr h))
  obtain ⟨-, hleast, hmost⟩ := hsat
  obtain ⟨b, hb⟩ := Set.encard_eq_one.mp (le_antisymm hmost hleast)
  have hval : ∀ w, .val a w ∈ I ↔ .val a w = b := fun w => by
    have hw : .val a w ∈ offered (Truth.all.map fun v => (GroundAtom.val a v, [.value v])) I := by
      refine ⟨_, List.mem_map.mpr ⟨w, ?_, rfl⟩, rfl, List.forall_mem_singleton.mpr ?_⟩
      · cases w <;> decide
      · exact hI.model _ (.value w) (List.forall_mem_nil _)
    rw [← Set.mem_singleton_iff, ← hb]
    exact ⟨fun hm => ⟨hw, hm⟩, And.right⟩
  have hmem : b ∈ offered (Truth.all.map fun v => (GroundAtom.val a v, [.value v])) I ∩ I := by
    rw [hb]
    exact rfl
  obtain ⟨⟨o, ho, rfl, -⟩, -⟩ := hmem
  obtain ⟨v, -, rfl⟩ := List.mem_map.mp ho
  refine ⟨v, fun w => (hval w).trans ?_⟩
  rw [GroundAtom.val.injEq]
  exact ⟨fun he => he.2.symm, fun he => ⟨rfl, he.symm⟩⟩

theorem exists_chooses : ∃ x, kb.Chooses I x := by
  have hval : ∀ a, ∃ v, a ∈ kb.atoms → ∀ w, .val a w ∈ I ↔ v = w := fun a => by
    by_cases ha : a ∈ kb.atoms
    · obtain ⟨v, hv⟩ := exists_val_mem_iff hI ha
      exact ⟨v, fun _ => hv⟩
    · exact ⟨.t, fun h => absurd h ha⟩
  choose x hx using hval
  exact ⟨x, hx⟩

/-- **What is chosen determines the answer set.** -/
theorem eq_answer (hx : kb.Chooses I x) : I = kb.answer x := by
  have hfacts : ∀ fact, .fact fact ∈ I → fact ∈ kb.facts := fun fact => (fact_mem_iff hI).mp
  refine eq_of_supported hI.model (fun a ha => hI.supported ha) (stratified hfacts) model_answer
    supported_answer (stratified fun _ h => h) ?_
  intro r hr least most offers hh o ho
  cases hr with
  | choose a =>
    cases hh
    obtain ⟨v, -, rfl⟩ := List.mem_map.mp ho
    constructor
    · intro h
      have ha := mem_atoms_of_val_mem hI h
      exact ⟨ha, (hx a ha v).mp h⟩
    · exact fun h => (hx a h.1 v).mpr h.2
  | _ => cases hh

omit hI

theorem isAnswerSet_answer : IsAnswerSet kb.conclusions (kb.answer x) :=
  isAnswerSet_of_supported model_answer supported_answer (stratified fun _ h => h)

theorem chooses_answer : kb.Chooses (kb.answer x) x := fun _ ha _ =>
  ⟨And.right, fun h => ⟨ha, h⟩⟩

/-- What an answer set says of the knowledge base under a valuation. -/
structure Reads (kb : KnowledgeBase) (I : Set GroundAtom) (x : String → Truth) : Prop where
  chosen : kb.Chooses I x
  node : ∀ n, .formula n ∈ kb.facts → ∃! v, .holds n v ∈ I
  root : ∀ id f, kb.formulas[id]? = some f → ∀ v, .holds (.root id) v ∈ I ↔ f.eval x = v
  inconsistent : ∀ id, .inconsistent id ∈ I ↔ ∃ f, kb.formulas[id]? = some f ∧ f.glutted x

theorem root_mem_answer {id : Nat} {f : Formula} (h : kb.formulas[id]? = some f) (v : Truth) :
    .holds (.root id) v ∈ kb.answer x ↔ f.eval x = v := by
  rw [holds_mem_answer (node?_root h), Skeleton.eval_skeleton]

theorem reads_answer : kb.Reads (kb.answer x) x where
  chosen := chooses_answer
  node n hn := by
    obtain ⟨g, hg⟩ := formula_mem.mp hn
    exact ⟨g.eval x, (holds_mem_answer hg).mpr rfl, fun v hv => ((holds_mem_answer hg).mp hv).symm⟩
  root id f hf v := root_mem_answer hf v
  inconsistent id := glutted_mem_iff

theorem denied_answer : (∃ r, Program.Denies r ∧ r.Applies (kb.answer x) (kb.answer x)) ↔
    ¬kb.Designates x := by
  simp only [Designates, not_forall]
  constructor
  · intro h
    obtain ⟨r, ⟨id, n⟩, ha⟩ := h
    simp only [Rule.Applies, List.forall_mem_cons, Condition.Sat] at ha
    obtain ⟨hroot, hf, -⟩ := ha
    obtain ⟨hid, rfl⟩ := kbFormula_mem.mp hroot
    have hget := List.getElem?_eq_getElem hid
    refine ⟨kb.formulas[id], List.getElem_mem hid, ?_⟩
    rw [(root_mem_answer hget .f).mp hf]
    decide
  · intro h
    obtain ⟨f, hf, hd⟩ := h
    obtain ⟨id, hid⟩ := List.mem_iff_getElem?.mp hf
    have hroot := kbFormula_mem.mpr ⟨(List.getElem?_eq_some_iff.mp hid).1, rfl⟩
    refine ⟨_, .refuse id (.root id), ?_⟩
    simp only [Rule.Applies, List.forall_mem_cons, Condition.Sat]
    refine ⟨hroot, (root_mem_answer hid .f).mpr ?_, List.forall_mem_nil _⟩
    revert hd
    cases f.eval x <;> decide

/-- An answer set of all rules is what is concluded from a valuation that designates the
knowledge base. -/
theorem isAnswerSet_rules_iff : IsAnswerSet (Program.ofKnowledgeBase kb).rules I ↔
    ∃ x, kb.Designates x ∧ I = kb.answer x := by
  rw [Program.rules_eq, Program.definite_eq,
    isAnswerSet_union_falsity (by rintro r ⟨id, n⟩; rfl)]
  constructor
  · intro h
    obtain ⟨hI, hno⟩ := h
    obtain ⟨x, hx⟩ := exists_chooses hI
    obtain rfl := eq_answer hI hx
    refine ⟨x, by_contra fun hd => ?_, rfl⟩
    obtain ⟨r, hr, ha⟩ := denied_answer.mpr hd
    exact hno r hr ha
  · rintro ⟨x, hd, rfl⟩
    exact ⟨isAnswerSet_answer, fun r hr ha => denied_answer.mp ⟨r, hr, ha⟩ hd⟩

/-- **The answer sets of a program are the valuations that designate its knowledge base.**
Without the denial there is one answer set for each choice of values. -/
theorem answerSets_spec (kb : KnowledgeBase) :
    (∀ x, ∃ I, IsAnswerSet (Program.ofKnowledgeBase kb).definite I ∧ kb.Reads I x ∧
      ∀ J, IsAnswerSet (Program.ofKnowledgeBase kb).definite J → kb.Chooses J x → J = I) ∧
    ∀ I, IsAnswerSet (Program.ofKnowledgeBase kb).rules I ↔
      IsAnswerSet (Program.ofKnowledgeBase kb).definite I ∧
        ∃ x, kb.Chooses I x ∧ kb.Designates x := by
  have hdefinite : (Program.ofKnowledgeBase kb).definite = kb.conclusions := Program.definite_eq _
  rw [Program.rules_eq, hdefinite]
  refine ⟨fun x => ⟨kb.answer x, isAnswerSet_answer, reads_answer, fun J => eq_answer⟩, fun I => ?_⟩
  rw [isAnswerSet_union_falsity (by rintro r ⟨id, n⟩; rfl)]
  apply and_congr_right
  intro hI
  constructor
  · intro hno
    obtain ⟨x, hx⟩ := exists_chooses hI
    rw [eq_answer hI hx] at hno
    refine ⟨x, hx, by_contra fun hd => ?_⟩
    obtain ⟨r, hr, ha⟩ := denied_answer.mpr hd
    exact hno r hr ha
  · rintro ⟨x, hx, hd⟩ r hr ha
    rw [eq_answer hI hx] at ha
    exact denied_answer.mp ⟨r, hr, ha⟩ hd

end KnowledgeBase
end LeastGlut
