/-
# Valuations

A value is the set of Booleans it admits: `t` admits only true, `f` only
false, and a glut both. A connective acts on values as it acts on the Booleans
they admit, each operand choosing for itself (`Connective.admits_apply`), so a
compound admits just the results of such choices, and a choice of fewer
Booleans below gives fewer above (`Connective.admits_apply_mono`), up to the
whole formula (`Formula.admits_eval_mono`).

A valuation of the atoms designates a knowledge base when no formula is false
under it; its cost is the number of formulas that hold a glutted atom. If any
does, so does the one with gluts only (`KnowledgeBase.Designates.gluts`).

Key definitions: `Truth.admits`, `Connective.onBools`, `Formula.glutted`,
`KnowledgeBase.Designates`, `KnowledgeBase.glutted`.
-/
import LeastGlut.KnowledgeBase

namespace LeastGlut

namespace Truth

/-- Whether a Boolean is among those that a value stands for. -/
def admits : Truth → Bool → Bool
  | t, p => p
  | f, p => !p
  | b, _ => true

/-- The value that admits one Boolean only. -/
def ofBool (p : Bool) : Truth := if p then t else f

theorem forall_iff {P : Truth → Prop} : (∀ x, P x) ↔ P t ∧ P f ∧ P b := by
  constructor
  · intro h
    exact ⟨h t, h f, h b⟩
  · rintro ⟨ht, hf, hb⟩ (_ | _ | _) <;> assumption

theorem designated_eq_admits (x : Truth) : x.designated = x.admits true := by
  cases x <;> rfl

theorem admits_iff (x : Truth) (p : Bool) : x.admits p ↔ x = b ∨ x = ofBool p := by
  cases x <;> cases p <;> decide

theorem admits_neg (x : Truth) (p : Bool) : x.neg.admits p = x.admits !p := by
  cases x <;> cases p <;> rfl

@[simp] theorem admits_ofBool (p q : Bool) : (ofBool p).admits q = (p == q) := by
  cases p <;> cases q <;> rfl

@[simp] theorem neg_neg (x : Truth) : x.neg.neg = x := by
  cases x <;> rfl

end Truth

namespace Connective

/-- What a connective makes of two Booleans. -/
def onBools : Connective → Bool → Bool → Bool
  | and, p, q => p && q
  | or, p, q => p || q
  | implies, p, q => !p || q
  | iff, p, q => p == q

/-- **A connective acts on values as on the Booleans they admit.** -/
theorem admits_apply (op : Connective) (x y : Truth) (p : Bool) :
    (op.apply x y).admits p ↔ ∃ q r, x.admits q ∧ y.admits r ∧ op.onBools q r = p := by
  cases op <;> cases x <;> cases y <;> cases p <;> decide

theorem admits_apply_mono {op : Connective} {x x' y y' : Truth}
    (hx : ∀ p, x.admits p → x'.admits p) (hy : ∀ p, y.admits p → y'.admits p) {p : Bool}
    (h : (op.apply x y).admits p) : (op.apply x' y').admits p := by
  obtain ⟨q, r, hq, hr, hp⟩ := (admits_apply op x y p).mp h
  exact (admits_apply op x' y' p).mpr ⟨q, r, hx q hq, hy r hr, hp⟩

end Connective

namespace Formula

/-- Whether an atom of the formula is a glut. -/
def glutted (x : String → Truth) (f : Formula) : Bool := f.atoms.any fun a => x a = .b

theorem mem_atoms {f : Formula} {a : String} : a ∈ f.atoms ↔ a ∈ f.leaves := List.mem_eraseDups

theorem glutted_iff {x : String → Truth} {f : Formula} :
    f.glutted x ↔ ∃ a ∈ f.leaves, x a = .b := by
  simp [glutted, mem_atoms]

/-- The value depends on the values of the atoms only. -/
theorem eval_congr {x y : String → Truth} {f : Formula} (h : ∀ a ∈ f.leaves, x a = y a) :
    f.eval x = f.eval y := by
  induction f with
  | atom name => exact h name (List.mem_singleton.mpr rfl)
  | verum => rfl
  | falsum => rfl
  | not inner ih => simp only [eval, ih h]
  | binary op lhs rhs ihl ihr =>
    simp only [leaves, List.mem_append] at h
    simp only [eval, ihl fun a ha => h a (Or.inl ha), ihr fun a ha => h a (Or.inr ha)]

/-- **The more Booleans the atoms admit, the more the formula does.** -/
theorem admits_eval_mono {x y : String → Truth} {f : Formula}
    (h : ∀ a ∈ f.leaves, ∀ p, (x a).admits p → (y a).admits p) {p : Bool}
    (hp : (f.eval x).admits p) : (f.eval y).admits p := by
  induction f generalizing p with
  | atom name => exact h name (List.mem_singleton.mpr rfl) p hp
  | verum => exact hp
  | falsum => exact hp
  | not inner ih =>
    unfold eval at hp ⊢
    rw [Truth.admits_neg] at hp ⊢
    exact ih h hp
  | binary op lhs rhs ihl ihr =>
    obtain ⟨hl, hr⟩ := List.forall_mem_append.mp h
    exact Connective.admits_apply_mono (fun _ => ihl hl) (fun _ => ihr hr) hp

theorem glutted_congr {x y : String → Truth} {f : Formula} (h : ∀ a ∈ f.leaves, x a = y a) :
    f.glutted x = f.glutted y := by
  rw [Bool.eq_iff_iff, glutted_iff, glutted_iff]
  constructor
  · intro hp
    obtain ⟨a, ha, hb⟩ := hp
    exact ⟨a, ha, (h a ha) ▸ hb⟩
  · intro hp
    obtain ⟨a, ha, hb⟩ := hp
    exact ⟨a, ha, (h a ha).trans hb⟩

end Formula

namespace KnowledgeBase

variable {kb : KnowledgeBase}

/-- No formula is false. -/
def Designates (kb : KnowledgeBase) (x : String → Truth) : Prop :=
  ∀ f ∈ kb.formulas, (f.eval x).designated

instance (x : String → Truth) : Decidable (kb.Designates x) :=
  inferInstanceAs (Decidable (∀ f ∈ kb.formulas, _))

/-- The formulas that hold a glutted atom, by identifier, in ascending order. -/
def glutted (kb : KnowledgeBase) (x : String → Truth) : List Nat :=
  (List.range kb.size).filter fun id => (kb.formulas[id]?).any (Formula.glutted x)

theorem mem_atoms {a : String} : a ∈ kb.atoms ↔ ∃ f ∈ kb.formulas, a ∈ f.leaves := by
  simp [atoms, List.mem_flatMap]

theorem designates_congr {x y : String → Truth} (h : ∀ a ∈ kb.atoms, x a = y a) :
    kb.Designates x ↔ kb.Designates y := by
  have hf : ∀ f ∈ kb.formulas, f.eval x = f.eval y := fun f hf =>
    Formula.eval_congr fun a ha => h a (mem_atoms.mpr ⟨f, hf, ha⟩)
  constructor
  · intro hx f hm
    rw [← hf f hm]
    exact hx f hm
  · intro hy f hm
    rw [hf f hm]
    exact hy f hm

/-- If any valuation designates the knowledge base, the one with gluts only does. -/
theorem Designates.gluts {x : String → Truth} (hx : kb.Designates x) :
    kb.Designates fun _ => .b := by
  intro f hf
  have hd := hx f hf
  rw [Truth.designated_eq_admits] at hd ⊢
  exact Formula.admits_eval_mono (fun _ _ _ _ => rfl) hd

theorem glutted_congr {x y : String → Truth} (h : ∀ a ∈ kb.atoms, x a = y a) :
    kb.glutted x = kb.glutted y := by
  apply List.filter_congr
  intro id _
  cases hid : kb.formulas[id]? with
  | none => rfl
  | some f =>
    exact Formula.glutted_congr fun a ha => h a (mem_atoms.mpr ⟨f, List.mem_of_getElem? hid, ha⟩)

end KnowledgeBase
end LeastGlut
