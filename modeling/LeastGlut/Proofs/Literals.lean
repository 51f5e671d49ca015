/-
# Literals and the variables they are of

Identifiers below `2 ^ 31` are their own literals (`Literal.of_of_inRange`),
and every integer but zero is a literal whose opposite holds when it does not.
A word is of no identifier past `2 ^ 31`, and of that one in one way only
(`Literal.natAbs_of_le`, `Literal.of_two_pow`).
Clauses over the first variables do not see the others
(`Clause.Within.holds_congr`).

Key definitions: `Ident.InRange`, `Ident.Upto`, `Clause.Within`, `Agree`.
-/
import LeastGlut.Clause
import Mathlib.Algebra.Ring.Int.Defs
import Mathlib.Algebra.Ring.Nat

namespace LeastGlut

/-! ### Literals in range -/

/-- A positive identifier whose literals do not wrap round. -/
def Ident.InRange (i : Nat) : Prop := 0 < i ∧ i < 2 ^ 31

namespace Literal

theorem word_of_natAbs_lt {l : Int} (h : l.natAbs < 2 ^ 31) : word l = l :=
  Int.bmod_eq_of_le (by omega) (by omega)

theorem of_of_inRange {i : Nat} (h : Ident.InRange i) (p : Bool) :
    of i p = if p then (i : Int) else -(i : Int) := by
  obtain ⟨h0, h1⟩ := h
  have hw : word i = i := word_of_natAbs_lt (by omega)
  have hn : word (-(i : Int)) = -(i : Int) := word_of_natAbs_lt (by omega)
  cases p
  · simpa [of, flip, hw] using hn
  · simpa [of] using hw

theorem natAbs_of {i : Nat} (h : Ident.InRange i) (p : Bool) : (of i p).natAbs = i := by
  rw [of_of_inRange h]
  cases p <;> simp

theorem of_pos_iff {i : Nat} (h : Ident.InRange i) (p : Bool) : 0 < of i p ↔ p = true := by
  rw [of_of_inRange h]
  obtain ⟨h0, -⟩ := h
  cases p with
  | false => simp
  | true => simpa using h0

@[simp] theorem holds_of {i : Nat} (h : Ident.InRange i) (v : Ident → Bool) (p : Bool) :
    (of i p).holds v = (v i == p) := by
  simp [holds, natAbs_of h, of_pos_iff h]

/-! ### The least word -/

theorem bmod_bounds (n : Int) :
    -(2 ^ 31) ≤ n.bmod 4294967296 ∧ n.bmod 4294967296 < 2 ^ 31 :=
  ⟨Int.le_bmod (by decide), Int.bmod_lt (by decide)⟩

/-- A word is in range with its opposite, or it is the least one. -/
theorem eq_neg_of_word {l : Int} (h : word l = l) (hl : 2 ^ 31 ≤ l.natAbs) : l = -(2 ^ 31) := by
  obtain ⟨hlow, hhigh⟩ := bmod_bounds l
  rw [show l.bmod 4294967296 = l from h] at hlow hhigh
  omega

/-- No literal is of an identifier past the words. -/
theorem natAbs_of_le (i : Nat) (p : Bool) : (of i p).natAbs ≤ 2 ^ 31 := by
  have hword : ∀ n, (word n).natAbs ≤ 2 ^ 31 := fun n => by
    obtain ⟨hlow, hhigh⟩ := bmod_bounds n
    unfold word
    omega
  unfold of
  split
  · exact hword _
  · exact hword _

/-- The identifier one past the range has a single literal, the least word. -/
theorem of_two_pow (p : Bool) : of (2 ^ 31) p = -(2 ^ 31) := by
  cases p <;> decide

/-- The literals of an identifier are the identifier and its negative as long as words
hold one of them. -/
theorem of_eq_or {i : Nat} (h0 : 0 < i) (hi : i ≤ 2 ^ 31) (p : Bool) :
    of i p = i ∨ of i p = -(i : Int) := by
  rcases Nat.lt_or_eq_of_le hi with hlt | rfl
  · rw [of_of_inRange ⟨h0, hlt⟩]
    cases p <;> simp
  · exact Or.inr (of_two_pow p)

/-! ### Opposites -/

theorem holds_neg {l : Int} (hl : l ≠ 0) (v : Ident → Bool) :
    Literal.holds v (-l) = !Literal.holds v l := by
  have hd : decide (0 < -l) = !decide (0 < l) := by
    by_cases h : 0 < l
    · simp [h, show ¬l < 0 by omega]
    · simp [h, show l < 0 by omega]
  unfold holds
  rw [Int.natAbs_neg, hd]
  cases v l.natAbs <;> cases decide (0 < l) <;> rfl

theorem holds_ofNat {i : Nat} (hi : 0 < i) (v : Ident → Bool) :
    Literal.holds v (i : Int) = v i := by
  unfold holds
  rw [Int.natAbs_natCast, decide_eq_true (Int.natCast_pos.mpr hi)]
  cases v i <;> rfl

theorem holds_neg_ofNat (i : Nat) (v : Ident → Bool) :
    Literal.holds v (-(i : Int)) = !v i := by
  have hd : decide (0 < -(i : Int)) = false := decide_eq_false (by omega)
  unfold holds
  rw [Int.natAbs_neg, Int.natAbs_natCast, hd]
  cases v i <;> rfl

end Literal

/-! ### Clauses over the first variables -/

/-- An identifier among the first `n`. -/
def Ident.Upto (n i : Nat) : Prop := 0 < i ∧ i ≤ n

theorem Ident.Upto.mono {m n i : Nat} (h : Upto m i) (hmn : m ≤ n) : Upto n i :=
  ⟨h.1, Nat.le_trans h.2 hmn⟩

theorem Ident.Upto.inRange {n i : Nat} (h : Upto n i) (hn : n < 2 ^ 31) : InRange i :=
  ⟨h.1, Nat.lt_of_le_of_lt h.2 hn⟩

/-- Every literal is of a variable among the first `n`. -/
def Clause.Within (n : Nat) (c : Clause) : Prop := ∀ l ∈ c, Ident.Upto n (Int.natAbs l)

/-- The assignments give the first `n` variables the same values. -/
def Agree (n : Nat) (v w : Ident → Bool) : Prop := ∀ i, Ident.Upto n i → w i = v i

theorem Agree.mono {m n : Nat} {v w : Ident → Bool} (h : Agree n v w) (hmn : m ≤ n) : Agree m v w :=
  fun i hi => h i (hi.mono hmn)

theorem Agree.trans {n : Nat} {u v w : Ident → Bool} (h : Agree n u v) (h' : Agree n v w) :
    Agree n u w := fun i hi => (h' i hi).trans (h i hi)

theorem Clause.Within.mono {m n : Nat} {c : Clause} (h : c.Within m) (hmn : m ≤ n) : c.Within n :=
  fun l hl => (h l hl).mono hmn

theorem Clause.holds_congr {c : Clause} {v w : Ident → Bool}
    (h : ∀ l ∈ c, w (Int.natAbs l) = v (Int.natAbs l)) : c.holds w = c.holds v := by
  rw [Bool.eq_iff_iff, Clause.holds, Clause.holds, List.any_eq_true, List.any_eq_true]
  refine exists_congr fun l => and_congr_right fun hl => ?_
  unfold Literal.holds
  rw [h l hl]

theorem Clause.Within.holds_congr {n : Nat} {c : Clause} (h : c.Within n) {v w : Ident → Bool}
    (hvw : Agree n v w) : c.holds w = c.holds v := Clause.holds_congr fun l hl => hvw _ (h l hl)

end LeastGlut
