/-
# Facts determine the expanded formulas

The facts of a formula describe what is left of it when its equivalences and
implications are expanded: the tree that is described, read as a formula, is that
expansion (`Formula.formula_skeleton`), and the expansion is described by the same
facts as the formula itself (`Program.ofKnowledgeBase_expand`).

Nothing else is lost. A node's facts say of which kind it is, and its operands
stand behind it at places that follow from the sizes of the trees there, so the
same facts describe the same trees (`KnowledgeBase.node?_eq_some_of_facts`).

Key definitions: `Skeleton.formula`, `KnowledgeBase.expand`.
-/
import LeastGlut.NormalForm
import LeastGlut.Proofs.Descriptions

namespace LeastGlut

/-- The tree as a formula. -/
def Skeleton.formula : Skeleton → Formula
  | atom name => .atom name
  | verum => .verum
  | falsum => .falsum
  | not inner => .not inner.formula
  | junction .conjunction lhs rhs => .and lhs.formula rhs.formula
  | junction .disjunction lhs rhs => .or lhs.formula rhs.formula

namespace Formula

theorem skeleton_formula (s : Skeleton) : s.formula.skeleton = s := by
  induction s with
  | atom name => rfl
  | verum => rfl
  | falsum => rfl
  | not inner ih => rw [Skeleton.formula, skeleton, ih]
  | junction j lhs rhs ihl ihr => cases j <;> rw [Skeleton.formula, skeleton, ihl, ihr]

/-- **What the facts of a formula describe is its expansion.** -/
theorem formula_skeleton (f : Formula) : f.skeleton.formula = f.expandIff.expandImplies := by
  induction f with
  | atom name => rfl
  | verum => rfl
  | falsum => rfl
  | not inner ih => rw [skeleton, Skeleton.formula, ih, expandIff, expandImplies]
  | binary op lhs rhs ihl ihr =>
    cases op <;> simp only [skeleton, Skeleton.formula, ihl, ihr, expandIff, expandImplies]

theorem skeleton_expand (f : Formula) : f.expandIff.expandImplies.skeleton = f.skeleton := by
  rw [← formula_skeleton, skeleton_formula]

end Formula

/-- The knowledge base without equivalences and implications. -/
def KnowledgeBase.expand (kb : KnowledgeBase) : KnowledgeBase :=
  ⟨kb.formulas.map fun f => f.expandIff.expandImplies⟩

namespace Program

theorem ofFormula_expand (id : Nat) (f : Formula) :
    Fact.ofFormula id f.expandIff.expandImplies = Fact.ofFormula id f := by
  rw [Skeleton.ofFormula_eq, Skeleton.ofFormula_eq, Formula.skeleton_expand]

/-- **The expansion of a knowledge base has the same facts.** -/
theorem ofKnowledgeBase_expand (kb : KnowledgeBase) :
    ofKnowledgeBase kb.expand = ofKnowledgeBase kb := by
  have hfrom : ∀ (fs : List Formula) (id : Nat),
      factsFrom id (fs.map fun f => f.expandIff.expandImplies) = factsFrom id fs := by
    intro fs
    induction fs with
    | nil => exact fun _ => rfl
    | cons f fs ih =>
      intro id
      rw [List.map_cons, factsFrom, factsFrom, ofFormula_expand, ih]
  exact congrArg Program.mk (hfrom kb.formulas 0)

end Program

namespace KnowledgeBase

variable {kb kb' : KnowledgeBase}

/-! ### What the same facts describe -/

/-- A tree that stands at a node of the one knowledge base stands there in the other, when
what the facts of the one say the facts of the other say too. The induction is on the tree:
its facts give the kind of the node, and the trees of its operands the places behind it. -/
theorem node?_eq_some_of_facts (h : ∀ fact ∈ kb.facts, fact ∈ kb'.facts) {n : Node} {g : Skeleton}
    (hg : kb.node? n = some g) : kb'.node? n = some g := by
  induction g generalizing n with
  | atom name => exact isAtom_mem.mp (h _ (isAtom_mem.mpr hg))
  | verum => exact isTrue_mem.mp (h _ (isTrue_mem.mpr hg))
  | falsum => exact isFalse_mem.mp (h _ (isFalse_mem.mpr hg))
  | not inner ih =>
    have hneg : Fact.negation n (n.behind 1) ∈ kb'.facts := h _ (negation_mem.mpr ⟨inner, hg, rfl⟩)
    obtain ⟨inner', hg', -⟩ := negation_mem.mp hneg
    have hinner : kb'.node? (n.behind 1) = some inner := ih (node?_not hg)
    have heq : inner' = inner := Option.some_inj.mp ((node?_not hg').symm.trans hinner)
    rw [hg', heq]
  | junction j l r ihl ihr =>
    have hkind : j.kind n ∈ kb'.facts := h _ (kind_mem.mpr ⟨l, r, hg⟩)
    obtain ⟨l', r', hg'⟩ := kind_mem.mp hkind
    have hleft : kb'.node? (n.behind 1) = some l := ihl (node?_left hg)
    have hl : l' = l := Option.some_inj.mp ((node?_left hg').symm.trans hleft)
    rw [hl] at hg'
    have hright : kb'.node? (n.behind (l.size + 1)) = some r := ihr (node?_right hg)
    have hr : r' = r := Option.some_inj.mp ((node?_right hg').symm.trans hright)
    rw [hg', hr]

theorem size_le_of_facts (h : ∀ fact ∈ kb.facts, fact ∈ kb'.facts) : kb.size ≤ kb'.size := by
  apply Nat.le_of_not_lt
  intro hlt
  have hroot : Fact.kbFormula kb'.size (.root kb'.size) ∈ kb.facts := kbFormula_mem.mpr ⟨hlt, rfl⟩
  exact Nat.lt_irrefl _ (kbFormula_mem.mp (h _ hroot)).1

/-- Facts that are the same in any order describe the same trees. -/
theorem map_skeleton_of_facts (h : ∀ fact, fact ∈ kb.facts ↔ fact ∈ kb'.facts) :
    kb.formulas.map Formula.skeleton = kb'.formulas.map Formula.skeleton := by
  have hle : kb.size ≤ kb'.size := size_le_of_facts fun fact => (h fact).mp
  have hge : kb'.size ≤ kb.size := size_le_of_facts fun fact => (h fact).mpr
  apply List.ext_getElem
  · rw [List.length_map, List.length_map]
    exact Nat.le_antisymm hle hge
  · intro id hid hid'
    rw [List.length_map] at hid hid'
    rw [List.getElem_map, List.getElem_map]
    have hroot : kb.node? (.root id) = some kb.formulas[id].skeleton :=
      node?_root (List.getElem?_eq_getElem hid)
    have hroot' : kb'.node? (.root id) = some kb'.formulas[id].skeleton :=
      node?_root (List.getElem?_eq_getElem hid')
    have hkept := node?_eq_some_of_facts (fun fact => (h fact).mp) hroot
    exact Option.some_inj.mp (hkept.symm.trans hroot')

theorem expand_eq_of_facts (h : ∀ fact, fact ∈ kb.facts ↔ fact ∈ kb'.facts) :
    kb.expand.formulas = kb'.expand.formulas := by
  have hformula : (fun f : Formula => f.expandIff.expandImplies) = Skeleton.formula ∘ Formula.skeleton :=
    funext fun f => f.formula_skeleton.symm
  unfold expand
  rw [hformula, ← List.map_map, ← List.map_map, map_skeleton_of_facts h]

/-- **The facts agree with the expansions and lose nothing else.** A knowledge base has the
facts of its expansion, and two have the same facts just when they have the same expansion. -/
theorem facts_eq_iff_expand_eq :
    (∀ kb, Program.ofKnowledgeBase kb = Program.ofKnowledgeBase kb.expand) ∧
    ∀ kb kb', (Program.ofKnowledgeBase kb).facts = (Program.ofKnowledgeBase kb').facts ↔
      kb.expand.formulas = kb'.expand.formulas := by
  refine ⟨fun kb => (Program.ofKnowledgeBase_expand kb).symm, fun kb kb' => ⟨fun h => ?_, fun h => ?_⟩⟩
  · have hmem : ∀ fact, fact ∈ kb.facts ↔ fact ∈ kb'.facts := by
      intro fact
      unfold facts
      rw [h]
    exact expand_eq_of_facts hmem
  · have hexpand : kb.expand = kb'.expand := congrArg KnowledgeBase.mk h
    rw [← Program.ofKnowledgeBase_expand kb, hexpand, Program.ofKnowledgeBase_expand]

end KnowledgeBase
end LeastGlut
