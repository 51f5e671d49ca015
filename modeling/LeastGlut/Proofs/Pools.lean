/-
# Pools hand out no index in use

A pool that starts behind the variables of an encoding hands out fresh indices, and in
between its next free index is raised, lowered or brought up to that of another pool, in
any order. Each of these moves the next free index and the count of variables in use in its
own way, and keeps them equal (`IndexPool.Tight.step`, `IndexPool.Tight.run`).

Only lowering brings the next free index down, and not below its argument. So what is at
most the next free index stays so for as long as no argument is less
(`IndexPool.le_next_step`, `IndexPool.le_next_run`). Of the number of variables in front of the
pool this says that none of them is handed out, and of the successor of an index that was
handed out that every later one is greater.

Key definitions: `IndexPool.Request`, `IndexPool.run`, `IndexPool.Tight`.
-/
import LeastGlut.IndexPool

namespace LeastGlut
namespace IndexPool

/-- What may be asked of a pool: a fresh index, or one of the changes to the next free one. -/
inductive Request
  | fresh
  | raise (i : Nat)
  | combine (q : IndexPool)
  | forget (i : Nat)

/-- The pool behind a request. -/
def step (p : IndexPool) : Request → IndexPool
  | .fresh => p.fresh.2
  | .raise i => (p.raise i).2
  | .combine q => p.combine q
  | .forget i => p.forget i

/-- The pool behind requests in order. -/
def run (p : IndexPool) (requests : List Request) : IndexPool := requests.foldl step p

/-- As many variables are in use as there are indices below the next free one. -/
def Tight (p : IndexPool) : Prop := p.used = p.next

variable {p : IndexPool} {b : Nat} {q : Request} {requests : List Request}

/-! ### One request -/

theorem tight_behind (n : Nat) : (behind n).Tight := rfl

theorem Tight.raise (h : p.Tight) (i : Nat) : (p.raise i).2.Tight := by
  unfold Tight at h
  unfold IndexPool.raise
  split
  · next hlt =>
    show p.used + (i - p.next) = i
    rw [h]
    exact Nat.add_sub_of_le (Nat.le_of_lt hlt)
  · exact h

theorem Tight.forget (h : p.Tight) (i : Nat) : (p.forget i).Tight := by
  show min p.used (min p.next i) = min p.next i
  rw [show p.used = p.next from h]
  exact Nat.min_eq_right (Nat.min_le_left _ _)

/-- **Every request keeps the two counts equal.** -/
theorem Tight.step (h : p.Tight) (q : Request) : (p.step q).Tight := by
  cases q with
  | fresh => exact congrArg (· + 1) h
  | raise i => exact h.raise i
  | combine q => rfl
  | forget i => exact h.forget i

/-- The greatest index in use is the one below the count of variables. -/
theorem Tight.last?_eq (h : p.Tight) :
    p.last? = if p.used = 0 then none else some (p.used - 1) := by
  rw [last?, show p.used = p.next from h]

theorem le_next_raise (p : IndexPool) (i : Nat) : p.next ≤ (p.raise i).2.next := by
  unfold IndexPool.raise
  split
  · next hlt => exact Nat.le_of_lt hlt
  · exact Nat.le_refl _

/-- **Only lowering goes below a bound**, and that only with an argument below it. -/
theorem le_next_step (h : b ≤ p.next) (hq : ∀ i, q = .forget i → b ≤ i) : b ≤ (p.step q).next := by
  cases q with
  | fresh => exact Nat.le_succ_of_le h
  | raise i => exact Nat.le_trans h (le_next_raise p i)
  | combine q => exact Nat.le_trans h (Nat.le_max_left _ _)
  | forget i => exact Nat.le_min.mpr ⟨h, hq i rfl⟩

/-! ### Any requests -/

theorem Tight.run (h : p.Tight) (requests : List Request) : (p.run requests).Tight := by
  induction requests generalizing p with
  | nil => exact h
  | cons q rest ih => exact ih (h.step q)

theorem le_next_run (h : b ≤ p.next) (hr : ∀ i, .forget i ∈ requests → b ≤ i) :
    b ≤ (p.run requests).next := by
  induction requests generalizing p with
  | nil => exact h
  | cons q rest ih =>
    refine ih (le_next_step h fun i hi => hr i ?_) fun i hi => hr i (List.mem_cons_of_mem q hi)
    rw [hi]
    exact List.mem_cons_self

/-- An index that was handed out and not dropped is below every later one. -/
theorem fresh_lt_fresh_run (p : IndexPool) (hr : ∀ i, .forget i ∈ requests → p.fresh.1 < i) :
    p.fresh.1 < (p.fresh.2.run requests).fresh.1 :=
  le_next_run (Nat.le_refl _) hr

/-- **A pool behind `n` variables hands out none of them, and no index twice.** After any
requests the variables in use are as many as the next free index, which is one more than the
greatest index below it, or zero if there is none; and a fresh index is their number. As long
as nothing is lowered below `n`, the fresh index is at least `n`. As long as nothing is
lowered to an index that was handed out, or below it, the fresh index is greater. -/
theorem run_behind_fresh (n : Nat) (requests : List Request) :
    let p := (behind n).run requests
    p.used = p.next ∧ p.used = (p.last?.map (· + 1)).getD 0 ∧ p.fresh.1 = p.used ∧
    ((∀ i, .forget i ∈ requests → n ≤ i) → n ≤ p.fresh.1) ∧
    ∀ before between, requests = before ++ .fresh :: between →
      let given := ((behind n).run before).fresh.1
      (∀ i, .forget i ∈ between → given < i) → given < p.fresh.1 := by
  intro p
  have htight : p.Tight := (tight_behind n).run requests
  refine ⟨htight, ?_, htight.symm, fun h => le_next_run (Nat.le_refl n) h, ?_⟩
  · rw [htight.last?_eq]
    cases p.used <;> rfl
  · rintro before between rfl given h
    have hp : p = ((behind n).run before).fresh.2.run between := List.foldl_append
    rw [hp]
    exact fresh_lt_fresh_run _ h

/-- The index 6 is dropped and handed out again; 4 is in use all along. -/
theorem run_behind_fresh_again :
    let requests := [.fresh, .raise 6, .fresh, .forget 5, .combine (behind 6)]
    ((behind 4).run []).fresh.1 = 4 ∧ ((behind 4).run [.fresh, .raise 6]).fresh.1 = 6 ∧
    ((behind 4).run requests).fresh.1 = 6 ∧ 4 ≤ ((behind 4).run requests).fresh.1 ∧
    ((behind 4).run []).fresh.1 < ((behind 4).run requests).fresh.1 := by
  intro requests
  obtain ⟨-, -, -, hfloor, hgiven⟩ := run_behind_fresh 4 requests
  have hrequests : ∀ i, .forget i ∈ requests → 4 ≤ i := by simp [requests]
  have hbehind : ∀ i, .forget i ∈ requests.tail → 4 < i := by simp [requests]
  exact ⟨rfl, rfl, rfl, hfloor hrequests, hgiven [] requests.tail rfl hbehind⟩

end IndexPool
end LeastGlut
