/-
# Gluts only lose information

A glut says less than either Boolean value: it admits both. In this order,
which is not that of the chain `f < b < t` in which meet and join are taken,
every connective is monotone, so every formula is. A value that is no glut
therefore stays when gluts among the atoms are resolved, in whatever way
(`Formula.eval_eq_of_resolved`), and making gluts of atoms leaves a formula its
value or makes it a glut (`Formula.eval_withGluts`).

Key definitions: `withGluts`.
-/
import LeastGlut.Proofs.Conservativity
import Mathlib.Data.Set.Defs

namespace LeastGlut

/-- The valuation with the atoms of a set made gluts. -/
def withGluts (s : Set String) [DecidablePred (· ∈ s)] (v : String → Truth) (a : String) : Truth :=
  if a ∈ s then .b else v a

namespace Truth

/-- The Booleans that a value admits are among those of another just when it is the same
value, unless the other is a glut. -/
theorem forall_admits_iff (x y : Truth) :
    (∀ p, y.admits p → x.admits p) ↔ (x ≠ b → y = x) := by
  cases x <;> cases y <;> decide

theorem ofBool_eq_t {x : Truth} (h : x ≠ b) : ofBool (x = t) = x := by
  cases x with
  | t => rfl
  | f => rfl
  | b => exact absurd rfl h

end Truth

namespace Formula

variable {f : Formula} {v w : String → Truth}

/-- **A value that is no glut stays** when the gluts among the atoms are resolved. -/
theorem eval_eq_of_resolved (h : ∀ a ∈ f.leaves, v a ≠ .b → w a = v a) (hf : f.eval v ≠ .b) :
    f.eval w = f.eval v := by
  have hatoms : ∀ a ∈ f.leaves, ∀ p, (w a).admits p → (v a).admits p := fun a ha =>
    (Truth.forall_admits_iff (v a) (w a)).mpr (h a ha)
  have heval : ∀ p, (f.eval w).admits p → (f.eval v).admits p := fun _ => admits_eval_mono hatoms
  exact (Truth.forall_admits_iff _ _).mp heval hf

/-- Making gluts of atoms leaves the value, or makes a glut of it. -/
theorem eval_withGluts (f : Formula) (s : Set String) [DecidablePred (· ∈ s)]
    (v : String → Truth) : f.eval (withGluts s v) = f.eval v ∨ f.eval (withGluts s v) = .b := by
  by_cases hf : f.eval (withGluts s v) = .b
  · exact Or.inr hf
  · refine Or.inl (eval_eq_of_resolved (fun a _ ha => ?_) hf).symm
    unfold withGluts at ha ⊢
    split
    · rename_i hs
      exact absurd (if_pos hs) ha
    · rfl

theorem eval_eq_isTrue (h : ∀ a ∈ f.leaves, v a ≠ .b) :
    f.eval v = .ofBool (f.isTrue fun a => v a = .t) := by
  rw [← eval_ofBool]
  exact eval_congr fun a ha => (Truth.ofBool_eq_t (h a ha)).symm

/-- **Gluts only lose information.** A value that is no glut stands under every valuation
that differs in gluts of the first alone. So no formula turns from designated to false as
atoms become gluts, whichever they are, and a formula with no glutted atom has its Boolean
value. -/
theorem gluts_lose_information (f : Formula) :
    (∀ v w : String → Truth, (∀ a ∈ f.atoms, v a ≠ .b → w a = v a) → f.eval v ≠ .b →
      f.eval w = f.eval v) ∧
    (∀ (s : Set String) [DecidablePred (· ∈ s)] (v : String → Truth), (f.eval v).designated →
      f.eval (withGluts s v) ≠ .f) ∧
    ∀ v : String → Truth, (∀ a ∈ f.atoms, v a ≠ .b) →
      f.eval v = .ofBool (f.isTrue fun a => v a = .t) := by
  simp only [mem_atoms]
  refine ⟨fun v w => eval_eq_of_resolved, fun s _ v hd => ?_, fun v => eval_eq_isTrue⟩
  rcases eval_withGluts f s v with heq | hb
  · rw [heq]
    intro hf
    rw [hf] at hd
    cases hd
  · rw [hb]
    decide

/-- The glut `B` has no say: `A` alone makes the conjunction false. -/
theorem gluts_lose_information_masked :
    let f : Formula := .iff (.and (.atom "A") (.not (.atom "B"))) .falsum
    let v : String → Truth := fun a => if a = "B" then .b else .f
    let w : String → Truth := fun _ => .f
    ((∀ a ∈ f.atoms, v a ≠ .b → w a = v a) ∧ f.eval v ≠ .b ∧ f.eval w = f.eval v) ∧
    ((f.eval w).designated ∧ f.eval (withGluts {a | a = "A"} w) ≠ .f) ∧
    (∀ a ∈ f.atoms, w a ≠ .b) ∧ f.eval w = .ofBool (f.isTrue fun a => w a = .t) := by
  intro f v w
  obtain ⟨hresolved, hgluts, hclassical⟩ := gluts_lose_information f
  have hvw : ∀ a ∈ f.atoms, v a ≠ .b → w a = v a := by decide
  have hv : f.eval v ≠ .b := by decide
  have hw : (f.eval w).designated := by decide
  have hatoms : ∀ a ∈ f.atoms, w a ≠ .b := by decide
  exact ⟨⟨hvw, hv, hresolved v w hvw hv⟩, ⟨hw, hgluts _ w hw⟩, hatoms, hclassical w hatoms⟩

end Formula
end LeastGlut
