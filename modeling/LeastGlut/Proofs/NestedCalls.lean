/-
# Rewriting that calls itself on what it has made

Negations can be moved down by rewriting alone: a negated conjunction becomes a disjunction
of negations, which are moved down in turn, and an implication or an equivalence is first
expanded as a whole, with all below it. Disjunctions can be distributed by rewriting alone:
the operands are distributed, a conjunction among them is taken apart, and the disjunctions
made with its conjuncts are distributed in turn. Either calls itself on formulas that may be
larger than the one it is given, so that it ends cannot be seen from its form.

Both are followed here with a bound on the calls that are open at once
(`Formula.nnfWithin`, `Formula.distributeWithin`). They end, and the bounds are low: three
calls for each level of the formula, and two, to move negations down
(`Formula.nnfWithin_of_depth`), and one for each node to distribute
(`Formula.distributeWithin_of_size`). An expansion leaves nothing to be expanded below it,
and what is distributed is left as it is and not deeper than the formula is large
(`Formula.depth_distribute_lt`), though its size may be exponential
(`Formula.length_conjuncts_distribute_choices`). Where they end, they come to `Formula.nnf`
and `Formula.distribute`, and never to anything else.

Key definitions: `Formula.nnfWithin`, `Formula.distributeWithin`.
-/
import LeastGlut.Proofs.Flattening
import Mathlib.Algebra.Ring.Nat

namespace LeastGlut
namespace Formula

/-- Moves negations down, with at most `n` calls open at once; nothing if these do not
suffice. -/
def nnfWithin : Nat → Formula → Option Formula
  | 0, _ => none
  | _ + 1, atom name => some (atom name)
  | _ + 1, verum => some verum
  | _ + 1, falsum => some falsum
  | _ + 1, not (atom name) => some (not (atom name))
  | _ + 1, not verum => some falsum
  | _ + 1, not falsum => some verum
  | n + 1, not (not inner) => nnfWithin n inner
  | n + 1, not (binary .and lhs rhs) =>
    return or (← nnfWithin n (not lhs)) (← nnfWithin n (not rhs))
  | n + 1, not (binary .or lhs rhs) =>
    return and (← nnfWithin n (not lhs)) (← nnfWithin n (not rhs))
  | n + 1, not (binary op lhs rhs) =>
    nnfWithin n (not (binary op lhs rhs).expandIff.expandImplies)
  | n + 1, binary .and lhs rhs => return and (← nnfWithin n lhs) (← nnfWithin n rhs)
  | n + 1, binary .or lhs rhs => return or (← nnfWithin n lhs) (← nnfWithin n rhs)
  | n + 1, binary op lhs rhs => nnfWithin n (binary op lhs rhs).expandIff.expandImplies

/-- The join of two formulas, with `again` for the disjunctions that are made when a conjunction
is taken apart. -/
def joinBy (again : Formula → Option Formula) : Formula → Formula → Option Formula
  | binary .and a b, r => return and (← again (or a r)) (← again (or b r))
  | l, binary .and a b => return and (← again (or l a)) (← again (or l b))
  | l, r => some (or l r)

/-- Distributes disjunctions over the conjunctions below them, with at most `n` calls open at
once; nothing if these do not suffice. -/
def distributeWithin : Nat → Formula → Option Formula
  | 0, _ => none
  | n + 1, binary .or lhs rhs => do
    let l ← distributeWithin n lhs
    let r ← distributeWithin n rhs
    joinBy (distributeWithin n) l r
  | n + 1, binary .and lhs rhs =>
    return and (← distributeWithin n lhs) (← distributeWithin n rhs)
  | _ + 1, f => some f

variable {f g l r l' r' : Formula} {n : Nat}

/-- Two operands that both come to something. -/
theorem exists_of_operands {x y : Option Formula} {k : Formula → Formula → Formula}
    (h : (do return k (← x) (← y)) = some g) : ∃ a b, x = some a ∧ y = some b ∧ g = k a b := by
  obtain ⟨a, ha, h⟩ := Option.bind_eq_some_iff.mp h
  obtain ⟨b, hb, h⟩ := Option.bind_eq_some_iff.mp h
  exact ⟨a, b, ha, hb, (Option.some.inj h).symm⟩

/-! ### Moving negations down -/

theorem nnfWithin_and (hl : nnfWithin n l = some l') (hr : nnfWithin n r = some r') :
    nnfWithin (n + 1) (and l r) = some (and l' r') := by
  rw [nnfWithin, hl, hr]
  rfl

theorem nnfWithin_or (hl : nnfWithin n l = some l') (hr : nnfWithin n r = some r') :
    nnfWithin (n + 1) (or l r) = some (or l' r') := by
  rw [nnfWithin, hl, hr]
  rfl

theorem nnfWithin_not_and (hl : nnfWithin n (not l) = some l')
    (hr : nnfWithin n (not r) = some r') :
    nnfWithin (n + 1) (not (and l r)) = some (or l' r') := by
  rw [nnfWithin, hl, hr]
  rfl

theorem nnfWithin_not_or (hl : nnfWithin n (not l) = some l')
    (hr : nnfWithin n (not r) = some r') :
    nnfWithin (n + 1) (not (or l r)) = some (and l' r') := by
  rw [nnfWithin, hl, hr]
  rfl

theorem nnfWithin_not_not (hf : nnfWithin n f = some g) :
    nnfWithin (n + 1) (not (not f)) = some g := hf

/-- No expansion is left in an expanded formula, so a connective takes at most three calls: an
equivalence below a negation is split twice, and then the negation of its negated operand
cancels. -/
theorem nnfWithin_expanded (f : Formula) (h : 3 * f.depth + 1 ≤ n) :
    nnfWithin n f.expandIff.expandImplies = some (f.signed true) ∧
    nnfWithin n (not f.expandIff.expandImplies) = some (f.signed false) := by
  induction f generalizing n with
  | atom name | verum | falsum =>
    obtain ⟨m, rfl⟩ : ∃ m, n = m + 1 := ⟨n - 1, by omega⟩
    exact ⟨rfl, rfl⟩
  | not inner ih =>
    simp only [depth] at h
    obtain ⟨m, rfl⟩ : ∃ m, n = m + 1 := ⟨n - 1, by omega⟩
    exact ⟨(ih (by omega)).2, nnfWithin_not_not (ih (by omega)).1⟩
  | binary op lhs rhs ihl ihr =>
    simp only [depth] at h
    obtain ⟨m, rfl⟩ : ∃ m, n = m + 3 := ⟨n - 3, by omega⟩
    -- an operand is reached after one, two or three calls
    have hl := fun k (hk : m ≤ k) => ihl (n := k) (by omega)
    have hr := fun k (hk : m ≤ k) => ihr (n := k) (by omega)
    obtain ⟨hl0, -⟩ := hl m (by omega)
    obtain ⟨hr0, -⟩ := hr m (by omega)
    obtain ⟨hl1, hl1'⟩ := hl (m + 1) (by omega)
    obtain ⟨hr1, hr1'⟩ := hr (m + 1) (by omega)
    obtain ⟨hl2, hl2'⟩ := hl (m + 2) (by omega)
    obtain ⟨hr2, hr2'⟩ := hr (m + 2) (by omega)
    cases op with
    | and => exact ⟨nnfWithin_and hl2 hr2, nnfWithin_not_and hl2' hr2'⟩
    | or => exact ⟨nnfWithin_or hl2 hr2, nnfWithin_not_or hl2' hr2'⟩
    | implies => exact ⟨nnfWithin_or hl2' hr2, nnfWithin_not_or (nnfWithin_not_not hl1) hr2'⟩
    | iff =>
      exact ⟨nnfWithin_and (nnfWithin_or hl1' hr1) (nnfWithin_or hr1' hl1),
        nnfWithin_not_and (nnfWithin_not_or (nnfWithin_not_not hl0) hr1')
          (nnfWithin_not_or (nnfWithin_not_not hr0) hl1')⟩

/-- One call more expands the first implication or equivalence on each path. -/
theorem nnfWithin_signed (f : Formula) (h : 3 * f.depth + 2 ≤ n) :
    nnfWithin n f = some (f.signed true) ∧ nnfWithin n (not f) = some (f.signed false) := by
  induction f generalizing n with
  | atom name | verum | falsum =>
    obtain ⟨m, rfl⟩ : ∃ m, n = m + 1 := ⟨n - 1, by omega⟩
    exact ⟨rfl, rfl⟩
  | not inner ih =>
    simp only [depth] at h
    obtain ⟨m, rfl⟩ : ∃ m, n = m + 1 := ⟨n - 1, by omega⟩
    exact ⟨(ih (by omega)).2, nnfWithin_not_not (ih (by omega)).1⟩
  | binary op lhs rhs ihl ihr =>
    obtain ⟨m, rfl⟩ : ∃ m, n = m + 1 := ⟨n - 1, by omega⟩
    have hexpanded := nnfWithin_expanded (binary op lhs rhs) (n := m) (by omega)
    simp only [depth] at h
    obtain ⟨hl, hl'⟩ := ihl (n := m) (by omega)
    obtain ⟨hr, hr'⟩ := ihr (n := m) (by omega)
    cases op with
    | and => exact ⟨nnfWithin_and hl hr, nnfWithin_not_and hl' hr'⟩
    | or => exact ⟨nnfWithin_or hl hr, nnfWithin_not_or hl' hr'⟩
    | implies | iff => exact hexpanded

/-- **Moving negations down comes to an end**, with three calls open for each level of the formula
and two more. -/
theorem nnfWithin_of_depth (f : Formula) (h : 3 * f.depth + 2 ≤ n) :
    nnfWithin n f = some f.nnf := (nnfWithin_signed f h).1

/-- If the calls suffice, they come to the negation normal form. -/
theorem eq_nnf_of_nnfWithin (h : nnfWithin n f = some g) : g = f.nnf := by
  fun_induction nnfWithin n f generalizing g with
  | case1 f => cases h
  | case2 | case3 | case4 | case5 | case6 | case7 => exact (Option.some.inj h).symm
  | case8 n inner ih => exact ih h
  | case9 n lhs rhs ihl ihr | case10 n lhs rhs ihl ihr | case12 n lhs rhs ihl ihr
  | case13 n lhs rhs ihl ihr =>
    obtain ⟨a, b, ha, hb, rfl⟩ := exists_of_operands h
    rw [ihl ha, ihr hb]
    rfl
  | case11 n op lhs rhs hand hor ih =>
    rw [ih h, nnf, nnf, signed, signed_expandImplies, signed_expandIff]
    rfl
  | case14 n op lhs rhs hand hor ih => rw [ih h, nnf_expandImplies_expandIff]

/-- **Moving negations down needs no expansion before it.** By rewriting it comes to an end on
every formula, wherever its implications and equivalences stand, with no more calls open at
once than three for each level and two; on the expanded formula it ends within the same bound
and at the same tree. However many calls it is given, it comes to no other. In that tree
only atoms are negated, and only conjunctions and disjunctions join. -/
theorem nnfWithin_eq_nnf (f : Formula) :
    (∀ n, 3 * f.depth + 2 ≤ n → nnfWithin n f = some f.nnf ∧
      nnfWithin n f.expandIff.expandImplies = some f.nnf) ∧
    (∀ n g, nnfWithin n f = some g → g = f.nnf) ∧
    f.expandIff.expandImplies.nnf = f.nnf ∧ IsNnf f.nnf := by
  refine ⟨fun n hn => ⟨nnfWithin_of_depth f hn, ?_⟩, fun n g h => eq_nnf_of_nnfWithin h,
    nnf_expandImplies_expandIff f, isNnf_signed f true⟩
  exact (nnfWithin_expanded f (by omega)).1

/-- An equivalence below a negation, with an implication below it: five calls are not enough. -/
theorem nnfWithin_eq_nnf_equivalence :
    let f := not (iff (implies (atom "A") (atom "B")) (not (atom "C")))
    let g := or (and (or (not (atom "A")) (atom "B")) (atom "C"))
      (and (not (atom "C")) (and (atom "A") (not (atom "B"))))
    nnfWithin 5 f = none ∧ nnfWithin 11 f = some g ∧
    nnfWithin 11 f.expandIff.expandImplies = some g := by
  intro f g
  obtain ⟨hends, -⟩ := nnfWithin_eq_nnf f
  obtain ⟨h, hexpanded⟩ := hends 11 (by decide)
  exact ⟨rfl, h, hexpanded⟩

/-! ### Distributing -/

theorem distributeWithin_and (hl : distributeWithin n l = some l')
    (hr : distributeWithin n r = some r') :
    distributeWithin (n + 1) (and l r) = some (and l' r') := by
  rw [distributeWithin, hl, hr]
  rfl

theorem distributeWithin_or (hl : distributeWithin n l = some l')
    (hr : distributeWithin n r = some r') :
    distributeWithin (n + 1) (or l r) = joinBy (distributeWithin n) l' r' := by
  rw [distributeWithin, hl, hr]
  rfl

section

variable {again : Formula → Option Formula} {a b : Formula}

theorem joinBy_left (ha : again (or a r) = some f) (hb : again (or b r) = some g) :
    joinBy again (and a b) r = some (and f g) := by
  rw [joinBy, ha, hb]
  rfl

theorem joinBy_right (hl : ∀ a b, l ≠ and a b) (ha : again (or l a) = some f)
    (hb : again (or l b) = some g) : joinBy again l (and a b) = some (and f g) := by
  rw [joinBy.eq_2 again l a b hl, ha, hb]
  rfl

theorem joinBy_of_ne_and (hl : ∀ a b, l ≠ and a b) (hr : ∀ a b, r ≠ and a b) :
    joinBy again l r = some (or l r) := joinBy.eq_3 again l r hl hr

end

/-- A disjunction that is left as it is has operands that are left as they are. -/
theorem operands_of_distribute_or (h : (or l r).distribute = or l r) :
    l.distribute = l ∧ r.distribute = r ∧ (∀ a b, l ≠ and a b) ∧ ∀ a b, r ≠ and a b := by
  rw [distribute_or] at h
  split at h
  · cases h
  · cases h
  · next hand hright =>
    obtain ⟨-, hl, hr⟩ := binary.inj h
    exact ⟨hl, hr, fun a b heq => hand a b (hl.trans heq), fun a b heq => hright a b (hr.trans heq)⟩

/-- A distributed formula is gone over once, and left as it is. -/
theorem distributeWithin_of_distributed (hf : f.distribute = f) (h : f.depth + 1 ≤ n) :
    distributeWithin n f = some f := by
  induction f generalizing n with
  | atom name | verum | falsum | not inner ih =>
    obtain ⟨m, rfl⟩ : ∃ m, n = m + 1 := ⟨n - 1, by omega⟩
    rfl
  | binary op lhs rhs ihl ihr =>
    simp only [depth] at h
    obtain ⟨m, rfl⟩ : ∃ m, n = m + 1 := ⟨n - 1, by omega⟩
    cases op with
    | and =>
      obtain ⟨-, hl, hr⟩ := binary.inj hf
      exact distributeWithin_and (ihl hl (by omega)) (ihr hr (by omega))
    | or =>
      obtain ⟨hl, hr, hand, hright⟩ := operands_of_distribute_or hf
      rw [distributeWithin_or (ihl hl (by omega)) (ihr hr (by omega))]
      exact joinBy_of_ne_and hand hright
    | implies | iff => rfl

/-- Distributed operands of a call come back as they are. -/
theorem exists_operandsWithin (hl : l.distribute = l) (hr : r.distribute = r)
    (h : l.depth + r.depth + 2 ≤ n) :
    ∃ m, n = m + 1 ∧ distributeWithin m l = some l ∧ distributeWithin m r = some r :=
  ⟨n - 1, by omega, distributeWithin_of_distributed hl (by omega),
    distributeWithin_of_distributed hr (by omega)⟩

theorem distributeWithin_joinRight (hl : l.distribute = l) (hand : ∀ a b, l ≠ and a b)
    (hr : r.distribute = r) (h : l.depth + r.depth + 2 ≤ n) :
    distributeWithin n (or l r) = some (joinRight l r) := by
  fun_induction joinRight l r generalizing n with
  | case1 a b iha ihb =>
    obtain ⟨m, rfl, hleft, hright⟩ := exists_operandsWithin hl hr h
    obtain ⟨-, ha, hb⟩ := binary.inj hr
    simp only [depth] at h
    rw [distributeWithin_or hleft hright]
    exact joinBy_right hand (iha ha (by omega)) (ihb hb (by omega))
  | case2 r hrand =>
    obtain ⟨m, rfl, hleft, hright⟩ := exists_operandsWithin hl hr h
    rw [distributeWithin_or hleft hright]
    exact joinBy_of_ne_and hand hrand

/-- The calls that a disjunction of distributed operands opens are on disjunctions with a conjunct
in place of one operand. A conjunct is less deep by one, and it is distributed too, so it is
not gone over at more length than its depth, however large it is. -/
theorem distributeWithin_join (hl : l.distribute = l) (hr : r.distribute = r)
    (h : l.depth + r.depth + 2 ≤ n) : distributeWithin n (or l r) = some (join l r) := by
  fun_induction join l r generalizing n with
  | case1 a b r iha ihb =>
    obtain ⟨m, rfl, hleft, hright⟩ := exists_operandsWithin hl hr h
    obtain ⟨-, ha, hb⟩ := binary.inj hl
    simp only [depth] at h
    rw [distributeWithin_or hleft hright]
    exact joinBy_left (iha ha hr (by omega)) (ihb hb hr (by omega))
  | case2 l r hand => exact distributeWithin_joinRight hl hand hr h

theorem depth_lt_size (f : Formula) : f.depth < f.size := by
  induction f with
  | atom name | verum | falsum => exact Nat.zero_lt_one
  | not inner ih => simp only [depth, size]; omega
  | binary op lhs rhs ihl ihr => simp only [depth, size]; omega

theorem depth_joinRight_le (l r : Formula) : (joinRight l r).depth ≤ l.depth + r.depth + 1 := by
  fun_induction joinRight l r <;> simp only [depth] <;> omega

theorem depth_join_le (l r : Formula) : (join l r).depth ≤ l.depth + r.depth + 1 := by
  fun_induction join l r with
  | case1 a b r iha ihb => simp only [depth]; omega
  | case2 l r => exact depth_joinRight_le l r

/-- The size of a distributed formula may be exponential, but not its depth. -/
theorem depth_distribute_lt (f : Formula) : f.distribute.depth < f.size := by
  fun_induction distribute f with
  | case1 lhs rhs ihl ihr =>
    have hjoin := depth_join_le lhs.distribute rhs.distribute
    simp only [size]
    omega
  | case2 lhs rhs ihl ihr => simp only [depth, size]; omega
  | case3 f => exact depth_lt_size f

/-- **Distributing comes to an end**, with a call open for each node of the formula. -/
theorem distributeWithin_of_size (f : Formula) (h : f.size ≤ n) :
    distributeWithin n f = some f.distribute := by
  induction f generalizing n with
  | atom name | verum | falsum | not inner ih =>
    simp only [size] at h
    obtain ⟨m, rfl⟩ : ∃ m, n = m + 1 := ⟨n - 1, by omega⟩
    rfl
  | binary op lhs rhs ihl ihr =>
    simp only [size] at h
    obtain ⟨m, rfl⟩ : ∃ m, n = m + 1 := ⟨n - 1, by omega⟩
    have hl := ihl (n := m) (by omega)
    have hr := ihr (n := m) (by omega)
    cases op with
    | and => exact distributeWithin_and hl hr
    | or =>
      have hldepth := depth_distribute_lt lhs
      have hrdepth := depth_distribute_lt rhs
      have hlagain : distributeWithin m lhs.distribute = some lhs.distribute :=
        distributeWithin_of_distributed (distribute_distribute lhs) (by omega)
      have hragain : distributeWithin m rhs.distribute = some rhs.distribute :=
        distributeWithin_of_distributed (distribute_distribute rhs) (by omega)
      -- the operands as given and as distributed come to the same
      calc distributeWithin (m + 1) (or lhs rhs)
          = joinBy (distributeWithin m) lhs.distribute rhs.distribute := distributeWithin_or hl hr
        _ = distributeWithin (m + 1) (or lhs.distribute rhs.distribute) :=
            (distributeWithin_or hlagain hragain).symm
        _ = some (join lhs.distribute rhs.distribute) :=
            distributeWithin_join (distribute_distribute lhs) (distribute_distribute rhs) (by omega)
    | implies | iff => rfl

theorem eq_join_of_joinBy {again : Formula → Option Formula}
    (hagain : ∀ {f g}, again f = some g → g = f.distribute) (hl : l.distribute = l)
    (hr : r.distribute = r) (h : joinBy again l r = some g) : g = join l r := by
  fun_cases joinBy again l r with
  | case1 a b r =>
    obtain ⟨x, y, hx, hy, rfl⟩ := exists_of_operands h
    obtain ⟨-, ha, hb⟩ := binary.inj hl
    rw [hagain hx, hagain hy, distribute, distribute, ha, hb, hr, join]
  | case2 l a b hand =>
    rw [joinBy.eq_2 again l a b hand] at h
    obtain ⟨x, y, hx, hy, rfl⟩ := exists_of_operands h
    obtain ⟨-, ha, hb⟩ := binary.inj hr
    rw [hagain hx, hagain hy, distribute, distribute, hl, ha, hb, join_of_ne_and hand,
      join_of_ne_and hand, join_of_ne_and hand, joinRight]
  | case3 l r hand hrand =>
    rw [joinBy_of_ne_and hand hrand] at h
    rw [join_of_ne_and hand, joinRight_of_ne_and hrand]
    exact (Option.some.inj h).symm

/-- If the calls suffice, they come to the distributed formula. -/
theorem eq_distribute_of_distributeWithin (h : distributeWithin n f = some g) :
    g = f.distribute := by
  induction n generalizing f g with
  | zero => cases h
  | succ n ih =>
    fun_cases distribute f with
    | case1 lhs rhs =>
      obtain ⟨l, hl, h⟩ := Option.bind_eq_some_iff.mp h
      obtain ⟨r, hr, h⟩ := Option.bind_eq_some_iff.mp h
      rw [← ih hl, ← ih hr]
      refine eq_join_of_joinBy ih ?_ ?_ h
      · rw [ih hl, distribute_distribute]
      · rw [ih hr, distribute_distribute]
    | case2 lhs rhs =>
      obtain ⟨a, b, ha, hb, rfl⟩ := exists_of_operands h
      rw [ih ha, ih hb]
    | case3 f hor hand =>
      rw [distributeWithin.eq_4 f n hor hand] at h
      exact (Option.some.inj h).symm

/-! ### How large the result is -/

/-- Disjunctions of `k + 1` conjunctions of two atoms. -/
def choices : Nat → Formula
  | 0 => and (atom "A") (atom "B")
  | k + 1 => or (and (atom "A") (atom "B")) (choices k)

theorem isNnf_choices (k : Nat) : IsNnf (choices k) := by
  have hpair : IsNnf (and (atom "A") (atom "B")) :=
    .and (.literal (.atom "A")) (.literal (.atom "B"))
  induction k with
  | zero => exact hpair
  | succ k ih => exact .or hpair ih

theorem size_choices (k : Nat) : (choices k).size = 4 * k + 3 := by
  induction k with
  | zero => rfl
  | succ k ih => simp only [choices, size, ih]; omega

theorem length_conjuncts_joinRight (l r : Formula) :
    (joinRight l r).conjuncts.length = r.conjuncts.length := by
  fun_induction joinRight l r with
  | case1 a b iha ihb => rw [conjuncts, conjuncts, List.length_append, List.length_append, iha, ihb]
  | case2 r hand => rw [conjuncts_of_ne_and hand, conjuncts_of_ne_and (by simp)]; rfl

/-- Each conjunct of the one operand is joined with each of the other. -/
theorem length_conjuncts_join (l r : Formula) :
    (join l r).conjuncts.length = l.conjuncts.length * r.conjuncts.length := by
  fun_induction join l r with
  | case1 a b r iha ihb =>
    rw [conjuncts, conjuncts, List.length_append, List.length_append, iha, ihb, Nat.add_mul]
  | case2 l r hand =>
    rw [length_conjuncts_joinRight, conjuncts_of_ne_and hand, List.length_singleton, Nat.one_mul]

theorem length_conjuncts_le_size (f : Formula) : f.conjuncts.length ≤ f.size := by
  fun_induction conjuncts f with
  | case1 lhs rhs ihl ihr =>
    rw [List.length_append, size]
    omega
  | case2 f hand => exact Nat.lt_of_le_of_lt (Nat.zero_le _) (depth_lt_size f)

theorem length_conjuncts_distribute_choices (k : Nat) :
    (choices k).distribute.conjuncts.length = 2 ^ (k + 1) := by
  induction k with
  | zero => rfl
  | succ k ih =>
    rw [choices, distribute, length_conjuncts_join, ih]
    exact Nat.pow_succ'.symm

/-- **Distributing comes to an end in conjunctive normal form.** By rewriting it ends on every
formula in negation normal form, with no more calls open at once than the formula has nodes,
and however many calls it is given, it comes to nothing else. What it comes to has no
conjunction below a disjunction. The bound is not owed to a small result: a formula of
`4 * k + 3` nodes may come to `2 ^ (k + 1)` conjuncts. -/
theorem distributeWithin_isCnf :
    (∀ f, IsNnf f → (∀ n, f.size ≤ n → distributeWithin n f = some f.distribute) ∧
      (∀ n g, distributeWithin n f = some g → g = f.distribute) ∧ IsCnf f.distribute) ∧
    ∀ k, ∃ f, IsNnf f ∧ f.size = 4 * k + 3 ∧ f.distribute.conjuncts.length = 2 ^ (k + 1) ∧
      2 ^ (k + 1) ≤ f.distribute.size := by
  refine ⟨fun f hf => ⟨fun n => distributeWithin_of_size f, fun n g h => ?_,
    isCnf_distribute hf⟩, fun k => ?_⟩
  · exact eq_distribute_of_distributeWithin h
  · have hlength := length_conjuncts_distribute_choices k
    refine ⟨choices k, isNnf_choices k, size_choices k, hlength, ?_⟩
    rw [← hlength]
    exact length_conjuncts_le_size _

/-- Two conjunctions with a negated atom and constants: three calls open at once are not enough. -/
theorem distributeWithin_isCnf_constants :
    let f := or (and (not (atom "A")) falsum) (and verum (atom "B"))
    let g := and (and (or (not (atom "A")) verum) (or (not (atom "A")) (atom "B")))
      (and (or falsum verum) (or falsum (atom "B")))
    distributeWithin 3 f = none ∧ distributeWithin 8 f = some g ∧ IsCnf g := by
  intro f g
  have hf : IsNnf f := .or (.and (.literal (.notAtom "A")) (.literal .falsum))
    (.and (.literal .verum) (.literal (.atom "B")))
  obtain ⟨hends, -, hcnf⟩ := distributeWithin_isCnf.1 f hf
  exact ⟨rfl, hends 8 (by decide), hcnf⟩

end Formula
end LeastGlut
