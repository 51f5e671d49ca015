/-
# Search for a model

A residual problem is what is left to satisfy once some variables have been
decided: clauses over the undecided ones, and quotas, lists of variables of
which only so many may be true. What is left of a clause is kept beside the
whole clause.

Search is by splitting. Literals that are forced, because a clause has no
other left or because a quota is used up, are decided together; with none
forced, the variable that bears most on the clauses left is tried both ways.
Every round decides a variable that was open, and so the search ends.

A search that fails returns a consequence of the whole problem that is false
where it stands. Where a value was tried and its failure does not depend on
it, the other value is not tried.

Key definitions: `Assignment`, `Residual`, `Residual.assign`,
`Residual.search`.
-/
import LeastGlut.Consequence

namespace LeastGlut

/-- The value of each variable, by identifier, where it is decided. -/
structure Assignment where
  values : Array (Option Bool)

namespace Assignment

/-- No variable up to `bound` is decided. -/
def blank (bound : Ident) : Assignment := ⟨Array.replicate (bound + 1) none⟩

def value? (a : Assignment) (i : Ident) : Option Bool := (a.values[i]?).join

/-- Whether a literal is decided, and then whether it holds. -/
def literal? (a : Assignment) (l : Literal) : Option Bool :=
  match a.value? l.natAbs with
  | none => none
  | some true => if 0 < l then some true else some false
  | some false => if 0 < l then some false else some true

/-- Whether a variable can still be decided. -/
def isOpen (a : Assignment) (i : Ident) : Bool := a.values[i]? == some none

/-- Makes a literal true if its variable can still be decided. -/
def set (a : Assignment) (l : Literal) : Assignment :=
  if a.isOpen l.natAbs then
    ⟨a.values.setIfInBounds l.natAbs (if 0 < l then some true else some false)⟩
  else a

/-- Makes literals true in turn. -/
def setAll (a : Assignment) (ls : List Literal) : Assignment := ls.foldl set a

/-- The assignment with every undecided variable false. -/
def complete (a : Assignment) (i : Ident) : Bool := (a.value? i).getD false

/-- The number of variables that can still be decided. -/
def openCount (a : Assignment) : Nat := a.values.toList.countP (·.isNone)

end Assignment

/-- What is left of a clause, and the whole clause. -/
structure Remnant where
  left : Clause
  whole : Clause

namespace Remnant

/-- What is left once more variables are decided: nothing once a literal holds. -/
def reduce (a : Assignment) (r : Remnant) : Option Remnant :=
  if r.left.any fun l => a.literal? l == some true then none
  else some ⟨r.left.filter fun l => (a.literal? l).isNone, r.whole⟩

/-- The last literal left of a clause, which holds because all others are false. -/
def unit? (r : Remnant) : Option (Literal × Consequence) :=
  match r.left with
  | [l] => some (l, ⟨r.whole, []⟩)
  | _ => none

/-- What a clause counts for: with each literal a quarter, and one at least. -/
def weight (r : Remnant) : Nat := 1 <<< (2 * (8 - r.left.length))

end Remnant

/-- At most `limit` of the members may be true. -/
structure Quota where
  name : Ident
  limit : Nat
  members : List Ident

/-- What is left of a quota: how many more members may come true, and the
opposites of those that have. -/
structure Allowance where
  name : Ident
  slack : Nat
  undecided : List Ident
  spent : Clause

namespace Allowance

def ofQuota (q : Quota) : Allowance := ⟨q.name, q.limit, q.members, []⟩

/-- The opposites of the members that have come true since. -/
def newlySpent (a : Assignment) (q : Allowance) : Clause :=
  (q.undecided.filter fun i => a.value? i == some true).map fun i : Ident => -(i : Int)

def reduce (a : Assignment) (q : Allowance) : Allowance :=
  let spent := q.newlySpent a
  ⟨q.name, q.slack - spent.length, q.undecided.filter fun i => (a.value? i).isNone,
    spent ++ q.spent⟩

/-- Why an assignment is impossible that makes too many members true. -/
def overspent? (a : Assignment) (q : Allowance) : Option Consequence :=
  let spent := q.newlySpent a
  if q.slack < spent.length then some ⟨spent ++ q.spent, [q.name]⟩ else none

/-- Once no more members may come true, the others are false. -/
def forced (q : Allowance) : List (Literal × Consequence) :=
  if q.slack = 0 then
    q.undecided.map fun i : Ident => (-(i : Int), ⟨-(i : Int) :: q.spent, [q.name]⟩)
  else []

end Allowance

structure Residual where
  assignment : Assignment
  remnants : List Remnant
  allowances : List Allowance

namespace Residual

/-- The greatest identifier in clauses and quotas. -/
def maxIdent (clauses : List Clause) (quotas : List Quota) : Ident :=
  max (clauses.foldl (fun n c => c.foldl (fun n l => max n l.natAbs) n) 0)
    (quotas.foldl (fun n q => q.members.foldl max n) 0)

/-- The whole problem. -/
def ofProblem (clauses : List Clause) (quotas : List Quota) : Residual :=
  ⟨.blank (maxIdent clauses quotas), clauses.map fun c => ⟨c, c⟩, quotas.map .ofQuota⟩

/-- Why the problem is already impossible: a clause with nothing left. -/
def conflict? (p : Residual) : Option Consequence :=
  (p.remnants.find? fun r => r.left.isEmpty).map fun r => ⟨r.whole, []⟩

/-- Literals that hold in every model, each with the reason. -/
def forced (p : Residual) : List (Literal × Consequence) :=
  (p.remnants.filterMap Remnant.unit? ++ p.allowances.flatMap Allowance.forced).filter
    fun (l, _) => p.assignment.isOpen l.natAbs

/-- How much each variable bears on the clauses: the weights of what is left of
those that it occurs in. -/
def scores (p : Residual) : Array Nat :=
  p.remnants.foldl
    (fun scores r =>
      let weight := r.weight
      r.left.foldl (fun scores l => scores.modify l.natAbs (· + weight)) scores)
    (Array.replicate p.assignment.values.size 0)

/-- A variable of greatest score. -/
def heaviest (scores : Array Nat) (i : Ident) : List Ident → Ident
  | [] => i
  | j :: js =>
    if scores.getD i 0 < scores.getD j 0 then heaviest scores j js else heaviest scores i js

/-- A literal to try when none is forced: that the weightiest variable is false. -/
def pick? (p : Residual) : Option Literal :=
  let scores := p.scores
  match (List.range scores.size).filter fun i => 0 < scores.getD i 0 && p.assignment.isOpen i with
  | [] => none
  | i :: is => some (-(heaviest scores i is : Int))

/-- What is left once literals have been decided, or why they cannot hold. -/
def assign (p : Residual) (ls : List Literal) : Except Consequence Residual :=
  let a := p.assignment.setAll ls
  match p.allowances.findSome? (·.overspent? a) with
  | some c => .error c
  | none => .ok ⟨a, p.remnants.filterMap (·.reduce a), p.allowances.map (·.reduce a)⟩

end Residual

/-! ### A round decides a variable -/

namespace Assignment

theorem getElem?_of_isOpen {a : Assignment} {i : Ident} (h : a.isOpen i) :
    a.values.toList[i]? = some none := by
  simpa [isOpen] using h

theorem countP_set_some {vs : List (Option Bool)} {i : Nat} (h : vs[i]? = some none) (b : Bool) :
    (vs.set i (some b)).countP (·.isNone) + 1 = vs.countP (·.isNone) := by
  induction vs generalizing i with
  | nil => simp at h
  | cons v vs ih =>
    cases i with
    | zero =>
      obtain rfl : v = none := by simpa using h
      simp
    | succ i =>
      have := ih (i := i) (by simpa using h)
      simp only [List.set_cons_succ, List.countP_cons]
      omega

theorem openCount_set_lt {a : Assignment} {l : Literal} (h : a.isOpen l.natAbs) :
    (a.set l).openCount < a.openCount := by
  have hc := countP_set_some (getElem?_of_isOpen h)
  unfold Assignment.set openCount
  rw [if_pos h]
  split <;> simp only [Array.toList_setIfInBounds] <;> exact Nat.lt_of_succ_le (Nat.le_of_eq (hc _))

theorem openCount_set_le (a : Assignment) (l : Literal) : (a.set l).openCount ≤ a.openCount := by
  by_cases h : a.isOpen l.natAbs
  · exact Nat.le_of_lt (openCount_set_lt h)
  · simp [Assignment.set, h]

theorem openCount_setAll_le (ls : List Literal) (a : Assignment) :
    (a.setAll ls).openCount ≤ a.openCount := by
  induction ls generalizing a with
  | nil => exact Nat.le_refl _
  | cons l ls ih => exact Nat.le_trans (ih (a.set l)) (openCount_set_le a l)

end Assignment

namespace Residual

/-- The literals of a round. -/
def literals (reasons : List (Literal × Consequence)) : List Literal := reasons.map Prod.fst

theorem openCount_assign_lt {p q : Residual} {f : Literal × Consequence}
    {fs : List (Literal × Consequence)} (hf : p.assignment.isOpen f.1.natAbs)
    (h : p.assign (literals (f :: fs)) = .ok q) :
    q.assignment.openCount < p.assignment.openCount := by
  unfold assign at h
  simp only at h
  split at h
  · simp at h
  · simp only [Except.ok.injEq] at h
    subst h
    exact Nat.lt_of_le_of_lt (Assignment.openCount_setAll_le (literals fs) _)
      (Assignment.openCount_set_lt hf)

theorem isOpen_of_mem_forced {p : Residual} {f : Literal × Consequence} (h : f ∈ p.forced) :
    p.assignment.isOpen f.1.natAbs := (List.mem_filter.1 h).2

theorem heaviest_mem (scores : Array Nat) (i : Ident) (is : List Ident) :
    heaviest scores i is ∈ i :: is := by
  induction is generalizing i with
  | nil => exact List.mem_singleton.2 rfl
  | cons j js ih =>
    unfold heaviest
    split
    · exact List.mem_cons_of_mem _ (ih j)
    · rcases List.mem_cons.1 (ih i) with h | h
      · rw [h]; exact List.mem_cons_self
      · exact List.mem_cons_of_mem _ (List.mem_cons_of_mem _ h)

theorem isOpen_of_pick? {p : Residual} {l : Literal} (h : p.pick? = some l) :
    p.assignment.isOpen l.natAbs := by
  unfold pick? at h
  simp only at h
  split at h
  · simp at h
  · rename_i i is hp
    obtain rfl := Option.some.inj h
    have hmem := heaviest_mem p.scores i is
    rw [← hp, List.mem_filter, Bool.and_eq_true] at hmem
    simpa using hmem.2.2

theorem isOpen_neg {a : Assignment} {l : Literal} (h : a.isOpen l.natAbs) :
    a.isOpen (-l).natAbs := by
  rw [Int.natAbs_neg]
  exact h

/-- Decides literals for the reasons given and goes on with what is left. A
failure is explained without the literals of the round. -/
def round (p : Residual) (reasons : List (Literal × Consequence))
    (goOn : (q : Residual) → p.assign (literals reasons) = .ok q →
      Except Consequence (Ident → Bool)) : Except Consequence (Ident → Bool) :=
  match h : p.assign (literals reasons) with
  | .error c => .error (c.explain reasons)
  | .ok q => match goOn q h with
    | .error c => .error (c.explain reasons)
    | .ok v => .ok v

/-- A model: an assignment under which every clause holds and every quota is
kept; without one, a consequence of the problem that is false. -/
def search (p : Residual) : Except Consequence (Ident → Bool) :=
  match p.conflict? with
  | some c => .error c
  | none => match _hf : p.forced with
    | f :: fs => p.round (f :: fs) fun q _ => search q
    | [] => match _hl : p.pick? with
      | none => .ok p.assignment.complete
      | some l => match p.round [(l, .choice l)] fun q _ => search q with
        | .ok v => .ok v
        | .error c =>
          if c.clause.contains (-l) then p.round [(-l, c)] fun q _ => search q else .error c
termination_by p.assignment.openCount
decreasing_by
  · exact openCount_assign_lt (isOpen_of_mem_forced (by rw [_hf]; exact List.mem_cons_self)) ‹_›
  · exact openCount_assign_lt (isOpen_of_pick? _hl) ‹_›
  · exact openCount_assign_lt (isOpen_neg (isOpen_of_pick? _hl)) ‹_›

end Residual
end LeastGlut
