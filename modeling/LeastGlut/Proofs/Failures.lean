/-
# When there is no solution

Gluts admit both Booleans, so a formula that some valuation designates is
designated when every atom is a glut (`KnowledgeBase.Designates.gluts`). Whether
the hard clauses of an encoding have a model is therefore settled by one
valuation, formula by formula (`KnowledgeBase.exists_model_iff`,
`KnowledgeBase.not_exists_designates_iff`), and solving fails just when a
formula is false under it.

Key definitions: `Formula.hasConstant`, `KnowledgeBase.Unsatisfiable`.
-/
import LeastGlut.Proofs.Mirrors
import Mathlib.Algebra.Order.BigOperators.Group.List
import Mathlib.Algebra.Order.Group.Nat
import Mathlib.Data.List.Perm.Subperm

namespace LeastGlut

namespace Formula

/-- Whether one of the two constants occurs. -/
def hasConstant : Formula → Bool
  | atom _ => false
  | verum => true
  | falsum => true
  | not inner => inner.hasConstant
  | binary _ lhs rhs => lhs.hasConstant || rhs.hasConstant

/-- Connectives make only gluts of gluts. -/
theorem eval_gluts {f : Formula} (h : f.hasConstant = false) : f.eval (fun _ => .b) = .b := by
  induction f with
  | atom name => rfl
  | verum => cases h
  | falsum => cases h
  | not inner ih =>
    unfold eval
    rw [ih h]
    rfl
  | binary op lhs rhs ihl ihr =>
    obtain ⟨hl, hr⟩ := Bool.or_eq_false_iff.mp h
    unfold eval
    rw [ihl hl, ihr hr]
    cases op <;> rfl

end Formula

namespace KnowledgeBase

variable {kb : KnowledgeBase} {form : ClauseForm} {hard : List Clause} {oracle : Oracle}

theorem not_exists_designates_iff :
    (¬∃ x, kb.Designates x) ↔ ∃ f ∈ kb.formulas, f.eval (fun _ => .b) = .f := by
  have hgluts : (∃ x, kb.Designates x) ↔ kb.Designates fun _ => .b :=
    ⟨fun h => h.elim fun _ hx => hx.gluts, fun hx => ⟨_, hx⟩⟩
  have hfalse : ∀ x : Truth, ¬x.designated ↔ x = .f := by simp [Truth.forall_iff, Truth.designated]
  rw [hgluts]
  simp only [Designates, not_forall, exists_prop, hfalse]

/-- There is an encoding, and no assignment makes all its hard clauses hold. -/
def Unsatisfiable (kb : KnowledgeBase) (form : ClauseForm) : Prop :=
  ∃ e, kb.encode form = .ok e ∧ ¬∃ v, ∀ c ∈ e.clauses.hard, c.holds v

/-- **The hard clauses have a model** just when some valuation designates the knowledge
base. -/
theorem exists_model_iff (h : kb.namedCount < 2 ^ 31) {hi : Nat}
    (hp : kb.table.Projection kb.namedCount hi hard
      fun v => ∀ p ∈ kb.formulas.zip kb.flags, kb.table.Told p.1 p.2 v) :
    (∃ v, ∀ c ∈ (kb.encodingOf form hard).clauses.hard, c.holds v) ↔ ∃ x, kb.Designates x := by
  constructor
  · intro hm
    obtain ⟨v, hv⟩ := hm
    have hfits := (exists_holds_iff_fits h hp).mp ⟨v, fun _ _ => rfl, hv⟩
    exact ⟨_, hfits.designated⟩
  · intro hm
    obtain ⟨x, hx⟩ := hm
    have hfits : (kb.encodingOf form hard).Fits kb (kb.assigning x) := fits_assigning h hx
    obtain ⟨w, -, hw⟩ := (exists_holds_iff_fits h hp).mpr hfits
    exact ⟨w, hw⟩

theorem unsatisfiable_iff_not_designates (h : kb.identCount form < 2 ^ 31) :
    kb.Unsatisfiable form ↔ ¬∃ x, kb.Designates x := by
  obtain ⟨hard, he, hp⟩ := exists_encode kb form h
  have hmodel : (∃ v, ∀ c ∈ (kb.encodingOf form hard).clauses.hard, c.holds v) ↔
      ∃ x, kb.Designates x := exists_model_iff (namedCount_lt h) hp
  constructor
  · intro hu
    obtain ⟨e, he', hv⟩ := hu
    obtain rfl := Except.ok.inj (he.symm.trans he')
    rwa [hmodel] at hv
  · intro hx
    exact ⟨_, he, by rwa [hmodel]⟩

/-- A formula alone needs no more identifiers. -/
theorem identCount_singleton_le {f : Formula} (hf : f ∈ kb.formulas) (form : ClauseForm) :
    KnowledgeBase.identCount ⟨[f]⟩ form ≤ kb.identCount form := by
  have hatoms : (KnowledgeBase.atoms ⟨[f]⟩).length ≤ kb.atoms.length := by
    refine ((nodup_atoms ⟨[f]⟩).subperm fun a ha => ?_).length_le
    obtain ⟨g, hg, hag⟩ := mem_atoms.mp ha
    obtain rfl := List.mem_singleton.mp hg
    exact mem_atoms.mpr ⟨g, hf, hag⟩
  have hsize : 0 < kb.size := List.length_pos_of_mem hf
  have hcompounds : f.compounds ≤ (kb.formulas.map Formula.compounds).sum :=
    List.single_le_sum (fun _ _ => Nat.zero_le _) _ (List.mem_map_of_mem hf)
  have hone : KnowledgeBase.size ⟨[f]⟩ = 1 := rfl
  cases form <;>
    simp only [identCount, namedCount, hone, List.map_singleton, List.sum_singleton] <;> omega

/-- Without a model, solving fails in the engine. -/
theorem Unsatisfiable.solveClausesBy_eq_error (hu : kb.Unsatisfiable form) (ho : oracle.Lawful)
    (h : kb.identCount form < 2 ^ 31) :
    ∃ failure, kb.solveClausesBy oracle form = .error (.solver failure) := by
  obtain ⟨hard, he, hp⟩ := exists_encode kb form h
  obtain ⟨e, he', hnone⟩ := hu
  obtain rfl := Except.ok.inj (he.symm.trans he')
  exact exists_solveClausesBy_eq_error ho he (numbered_encodingOf h hp.within).proper
    (not_exists.mp hnone)

end KnowledgeBase
end LeastGlut
