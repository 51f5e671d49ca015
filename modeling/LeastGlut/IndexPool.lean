/-
# Pools of indices

A pool hands out indices for new variables, from the first one behind a given
number of variables on. Its next free index can be raised, lowered, or
brought up to that of another pool.

An index with a sign makes a literal, which has to fit in 32 bits. So only the
indices below `IndexPool.capacity` are those of variables, and who takes an
index from a pool states that it is one of them.

Key definitions: `IndexPool`, `IndexPool.fresh`, `IndexPool.capacity`.
-/

namespace LeastGlut

/-- The next free index, and how many variables are in use. -/
structure IndexPool where
  next : Nat
  used : Nat
  deriving DecidableEq

namespace IndexPool

/-- The number of indices that a variable can have. -/
def capacity : Nat := 2147483648

/-- A pool whose first index is behind `n` variables. -/
def behind (n : Nat) : IndexPool := ⟨n, n⟩

/-- The next free index, and the pool without it. -/
def fresh (p : IndexPool) : Nat × IndexPool := (p.next, ⟨p.next + 1, p.used + 1⟩)

/-- The greatest index below the next free one. -/
def last? (p : IndexPool) : Option Nat := if p.next = 0 then none else some (p.next - 1)

/-- Raises the next free index to `i`; says whether that changed it. -/
def raise (p : IndexPool) (i : Nat) : Bool × IndexPool :=
  if p.next < i then (true, ⟨i, p.used + (i - p.next)⟩) else (false, p)

/-- Brings the next free index up to that of another pool. -/
def combine (p q : IndexPool) : IndexPool := ⟨max p.next q.next, max p.next q.next⟩

/-- Drops every variable from index `i` on. -/
def forget (p : IndexPool) (i : Nat) : IndexPool :=
  ⟨min p.next i, min p.used (min p.next i)⟩

end IndexPool
end LeastGlut
