/-
# Oracles

An oracle looks for a model of clauses in which, if there is a bound, at most
so many of some variables are true. One way to make an oracle is to have the
bound written as clauses over further variables and to look for a model of
all of them. Another is to split on the variables and to keep count of those
under the bound, which takes no further variables.

With the count, whether so few may be true is decided from below. At first
none of them may be true. Where that is impossible, the quotas that the
failure rests on become one, whose limit is one above theirs together: every
model exceeds one of them, so every model needs that much. This ends with a
model, or when the limits together exceed the bound.

Key definitions: `Oracle`, `Oracle.encoded`, `Quota.merge`, `Quota.climb`,
`Oracle.splitting`.
-/
import LeastGlut.Residual

namespace LeastGlut

/-- Looks for a model of clauses, with at most so many of some variables true if there
is a bound. -/
structure Oracle where
  model? : List Clause → Option (List Ident × Nat) → Option (Ident → Bool)

/-- Has the bound written as clauses, over variables behind those of the problem, and
looks for a model of all clauses. -/
def Oracle.encoded (sat : List Clause → Option (Ident → Bool))
    (atMost : Ident → List Ident → Nat → List Clause) : Oracle where
  model? clauses
    | none => sat clauses
    | some (is, bound) => sat (clauses ++ atMost (Residual.maxIdent clauses [⟨0, bound, is⟩]) is bound)

namespace Quota

/-- The limits of quotas together. -/
def total : List Quota → Nat
  | [] => 0
  | q :: qs => q.limit + total qs

/-- A quota for each variable by itself: none may be true. -/
def singletons (is : List Ident) : List Quota := is.map fun i => ⟨i, 0, [i]⟩

/-- Makes one quota of those with the names given, with one more than their limits. -/
def merge (names : List Ident) (qs : List Quota) : List Quota :=
  let used := qs.filter fun q => names.contains q.name
  ⟨names.headD 0, total used + 1, used.flatMap members⟩
    :: qs.filter fun q => !names.contains q.name

theorem total_filter_add (p : Quota → Bool) (qs : List Quota) :
    total (qs.filter p) + total (qs.filter fun q => !p q) = total qs := by
  induction qs with
  | nil => rfl
  | cons q qs ih =>
    by_cases hq : p q = true
    · simp only [List.filter_cons, hq, if_true, total, Bool.not_true, Bool.false_eq_true, if_false]
      omega
    · simp only [List.filter_cons, hq, Bool.false_eq_true, if_false, total, Bool.not_false, if_true]
      omega

theorem total_merge (names : List Ident) (qs : List Quota) :
    total (merge names qs) = total qs + 1 := by
  have h := total_filter_add (fun q => names.contains q.name) qs
  simp only [merge, total]
  omega

/-- A model of the clauses in which the members of the quotas are true as seldom as
can be, unless that is more often than `bound`. -/
def climb (clauses : List Clause) (bound : Nat) (qs : List Quota) : Option (Ident → Bool) :=
  if bound < total qs then none
  else match (Residual.ofProblem clauses qs).search with
    | .ok v => some v
    | .error c => if c.quotas.isEmpty then none else climb clauses bound (merge c.quotas qs)
termination_by bound + 1 - total qs
decreasing_by
  rw [total_merge]
  omega

end Quota

/-- Splits on the variables and keeps count of those under the bound. -/
def Oracle.splitting : Oracle where
  model? clauses
    | none => ((Residual.ofProblem clauses []).search).toOption
    | some (is, bound) => Quota.climb clauses bound (Quota.singletons is)

end LeastGlut
