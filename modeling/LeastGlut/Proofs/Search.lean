/-
# What a search finds

A residual problem is what is left of clauses and quotas under an assignment
(`Residual.LeftOf`): the clauses that do not hold yet are kept without their
false literals, and the quotas without the members that are decided. Deciding
literals keeps it so (`Residual.LeftOf.assign`). A search of what is left then
ends with a model of the whole problem, or with a valid consequence of which
every literal is false where the search stands (`Residual.LeftOf.search`).

Key definitions: `Assignment.Extends`, `Assignment.Fails`, `Allowance.Tracks`,
`Residual.LeftOf`, `Residual.Answers`.
-/
import LeastGlut.Proofs.Consequences

namespace LeastGlut

/-! ### Assignments -/

namespace Assignment

variable {a a' : Assignment} {i : Nat} {l : Int} {p : Bool}

theorem value?_of_isOpen (h : a.isOpen i) : a.value? i = none := by
  unfold isOpen at h
  rw [beq_iff_eq] at h
  unfold value?
  rw [h]
  rfl

theorem isOpen_of_value? (hi : i < a.values.size) (h : a.value? i = none) : a.isOpen i := by
  unfold value? at h
  rw [Array.getElem?_eq_getElem hi] at h
  unfold isOpen
  rw [beq_iff_eq, Array.getElem?_eq_getElem hi]
  exact congrArg some h

theorem value?_set : (a.set l).value? i =
    if a.isOpen l.natAbs ∧ l.natAbs = i then some (decide (0 < l)) else a.value? i := by
  have hb : (if 0 < l then some true else some false) = some (decide (0 < l)) := by
    by_cases h : 0 < l <;> simp [h]
  unfold set
  rw [hb]
  by_cases ho : a.isOpen l.natAbs
  · have hlt : l.natAbs < a.values.size := by
      unfold isOpen at ho
      rw [beq_iff_eq] at ho
      exact (Array.getElem?_eq_some_iff.mp ho).1
    by_cases hi : l.natAbs = i
    · rw [if_pos ho, if_pos ⟨ho, hi⟩, value?, ← hi, Array.getElem?_setIfInBounds_self_of_lt hlt]
      rfl
    · rw [if_pos ho, if_neg fun h => hi h.2, value?, value?, Array.getElem?_setIfInBounds_ne hi]
  · rw [if_neg ho, if_neg fun h => ho h.1]

@[simp] theorem size_set : (a.set l).values.size = a.values.size := by
  unfold set
  split
  · exact Array.size_setIfInBounds
  · rfl

@[simp] theorem size_setAll (ls : List Literal) : (a.setAll ls).values.size = a.values.size := by
  induction ls generalizing a with
  | nil => rfl
  | cons l ls ih => exact (ih (a := a.set l)).trans size_set

/-- What is decided stays so. -/
def Extends (a a' : Assignment) : Prop := ∀ i p, a.value? i = some p → a'.value? i = some p

theorem extends_set (a : Assignment) (l : Literal) : a.Extends (a.set l) := by
  intro i p h
  rw [value?_set, if_neg, h]
  intro hp
  obtain ⟨ho, rfl⟩ := hp
  rw [value?_of_isOpen ho] at h
  cases h

theorem extends_setAll (a : Assignment) (ls : List Literal) : a.Extends (a.setAll ls) := by
  induction ls generalizing a with
  | nil => exact fun _ _ h => h
  | cons l ls ih => exact fun i p h => ih (a.set l) i p (extends_set a l i p h)

/-- What is decided behind a round was decided before it or by one of its literals. -/
theorem value?_setAll {ls : List Literal} (h : (a.setAll ls).value? i = some p) :
    a.value? i = some p ∨ ∃ l ∈ ls, l.natAbs = i ∧ decide (0 < l) = p := by
  induction ls generalizing a with
  | nil => exact Or.inl h
  | cons l ls ih =>
    rcases ih (a := a.set l) h with h | ⟨m, hm, h⟩
    · rw [value?_set] at h
      split at h
      · rename_i hl
        exact Or.inr ⟨l, List.mem_cons_self, hl.2, Option.some_inj.mp h⟩
      · exact Or.inl h
    · exact Or.inr ⟨m, List.mem_cons_of_mem _ hm, h⟩

theorem literal?_eq : a.literal? l = (a.value? l.natAbs).map (· == decide (0 < l)) := by
  unfold literal?
  rcases a.value? l.natAbs with _ | _ | _ <;> by_cases h : 0 < l <;> simp [h]

theorem literal?_eq_some_iff :
    a.literal? l = some p ↔ a.value? l.natAbs = some (decide (0 < l) == p) := by
  rw [literal?_eq]
  rcases a.value? l.natAbs with _ | _ | _ <;> cases decide (0 < l) <;> cases p <;> decide

theorem literal?_eq_none_iff : a.literal? l = none ↔ a.value? l.natAbs = none := by
  rw [literal?_eq, Option.map_eq_none_iff]

theorem Extends.literal? (h : a.Extends a') (hl : a.literal? l = some p) :
    a'.literal? l = some p := by
  rw [literal?_eq_some_iff] at hl ⊢
  exact h _ _ hl

/-- The literal is decided and does not hold. -/
def Fails (a : Assignment) (l : Int) : Prop := l ≠ 0 ∧ a.literal? l = some false

theorem Fails.mono (h : a.Fails l) (he : a.Extends a') : a'.Fails l := ⟨h.1, he.literal? h.2⟩

theorem fails_neg_ofNat (hi : i ≠ 0) (h : a.value? i = some true) : a.Fails (-(i : Int)) := by
  have hd : decide (0 < -(i : Int)) = false := decide_eq_false (by omega)
  refine ⟨by omega, ?_⟩
  rw [literal?_eq_some_iff, Int.natAbs_neg, Int.natAbs_natCast, hd]
  exact h

theorem eq_neg_of_sign {m : Int} (hm : m.natAbs = l.natAbs) (h0 : l ≠ 0)
    (hs : decide (0 < m) = (decide (0 < l) == false)) : m = -l := by
  by_cases hl : 0 < l
  · have hm0 : ¬0 < m := by simpa [hl] using hs
    omega
  · have hm0 : 0 < m := by simpa [hl] using hs
    omega

/-- A literal that a round makes false is the opposite of one of the round. -/
theorem fails_of_fails_setAll {ls : List Literal} (h : (a.setAll ls).Fails l) :
    a.Fails l ∨ -l ∈ ls := by
  obtain ⟨h0, h⟩ := h
  rw [literal?_eq_some_iff] at h
  rcases value?_setAll h with h | ⟨m, hm, hml, hp⟩
  · exact Or.inl ⟨h0, literal?_eq_some_iff.mpr h⟩
  · exact Or.inr (eq_neg_of_sign hml h0 hp ▸ hm)

theorem holds_complete (h : a.literal? l = some true) : Literal.holds a.complete l := by
  rw [literal?_eq_some_iff] at h
  unfold Literal.holds complete
  rw [h]
  cases decide (0 < l) <;> rfl

end Assignment

/-! ### Quotas -/

namespace Allowance

variable {clauses : List Clause} {quotas : List Quota} {a a' : Assignment} {q : Quota}
  {w : Allowance}

/-- What is left of a quota under an assignment. -/
structure Tracks (a : Assignment) (q : Quota) (w : Allowance) : Prop where
  name : w.name = q.name
  undecided : w.undecided = q.members.filter fun i => (a.value? i).isNone
  slack : w.slack + q.members.countP (fun i => a.value? i == some true) = q.limit
  spent : ∀ i ∈ q.members, a.value? i = some true → -(i : Int) ∈ w.spent
  fails : ∀ l ∈ w.spent, a.Fails l

theorem tracks_ofQuota (h : ∀ i, a.value? i = none) (q : Quota) : (ofQuota q).Tracks a q where
  name := rfl
  undecided := (List.filter_eq_self.mpr fun i _ => by rw [h, Option.isNone_none]).symm
  slack := by simp [ofQuota, h]
  spent i _ hi := by simp [h] at hi
  fails := by simp [ofQuota]

/-- Members under the quota that cannot all be true. -/
theorem valid_of_lt_countP (hq : q ∈ quotas) {c : Consequence} (hn : q.name ∈ c.quotas)
    {P : Ident → Bool} (hP : ∀ i ∈ q.members, P i → -(i : Int) ∈ c.clause)
    (hlt : q.limit < q.members.countP P) : c.Valid clauses quotas := by
  intro v _ hk
  rcases hc : c.clause.holds v with _ | _
  · refine absurd (hk q hq hn) (Nat.not_le_of_lt (Nat.lt_of_lt_of_le hlt ?_))
    apply List.countP_mono_left
    intro i hi hPi
    rcases hv : v i with _ | _
    · have hl : Literal.holds v (-(i : Int)) := by rw [Literal.holds_neg_ofNat, hv]; rfl
      unfold Clause.holds at hc
      rw [List.any_eq_false] at hc
      exact absurd hl (hc _ (hP i hi hPi))
    · rfl
  · rfl

theorem countP_of_extends (he : a.Extends a') (is : List Ident) :
    is.countP (fun i => a'.value? i == some true) =
      is.countP (fun i => a.value? i == some true) +
        ((is.filter fun i => (a.value? i).isNone).filter
          fun i => a'.value? i == some true).length := by
  induction is with
  | nil => rfl
  | cons i is ih =>
    rcases ha : a.value? i with _ | p
    · rcases ha' : a'.value? i with _ | _ | _ <;> simp [ha, ha', ih]
      omega
    · have ha' := he i p ha
      rcases p with _ | _ <;> simp [ha, ha', ih]
      omega

theorem countP_lt_countP_or {P : Ident → Bool} {is : List Ident} {i : Ident} (hi : i ∈ is)
    (hP : P i = false) : is.countP P < is.countP fun j => P j || j == i := by
  induction is with
  | nil => cases hi
  | cons j is ih =>
    have hle : is.countP P ≤ is.countP fun j => P j || j == i :=
      List.countP_mono_left fun j _ hj => by rw [hj]; rfl
    by_cases hj : j = i
    · simp only [List.countP_cons, hj, hP, beq_self_eq_true, Bool.or_true]
      simp only [Bool.false_eq_true, if_false, if_true]
      omega
    · have hlt := ih ((List.mem_cons.mp hi).resolve_left fun h => hj h.symm)
      simp only [List.countP_cons, beq_false_of_ne hj, Bool.or_false]
      omega

section

variable (h : w.Tracks a q) (he : a.Extends a')

include h he

theorem Tracks.mem_newlySpent {i : Ident} (hi : i ∈ q.members) (h' : a'.value? i = some true) :
    -(i : Int) ∈ w.newlySpent a' ++ w.spent := by
  rw [List.mem_append]
  rcases ha : a.value? i with _ | p
  · refine Or.inl (List.mem_map.mpr ⟨i, List.mem_filter.mpr ⟨?_, by rw [h']; rfl⟩, rfl⟩)
    rw [h.undecided]
    exact List.mem_filter.mpr ⟨hi, by rw [ha]; rfl⟩
  · rw [he i p ha] at h'
    rw [h'] at ha
    exact Or.inr (h.spent i hi ha)

theorem Tracks.fails_newlySpent (h0 : 0 ∉ q.members) :
    ∀ l ∈ w.newlySpent a' ++ w.spent, a'.Fails l := by
  intro l hl
  rcases List.mem_append.mp hl with hl | hl
  · obtain ⟨i, hi, rfl⟩ := List.mem_map.mp hl
    obtain ⟨hi, hv⟩ := List.mem_filter.mp hi
    rw [h.undecided] at hi
    have hm := (List.mem_filter.mp hi).1
    exact Assignment.fails_neg_ofNat (fun h => h0 (h ▸ hm)) (beq_iff_eq.mp hv)
  · exact (h.fails l hl).mono he

theorem Tracks.countP_add : q.members.countP (fun i => a'.value? i == some true) =
    q.members.countP (fun i => a.value? i == some true) + (w.newlySpent a').length := by
  rw [countP_of_extends he, newlySpent, List.length_map, h.undecided]

theorem Tracks.reduce (h0 : 0 ∉ q.members) (hs : w.overspent? a' = none) :
    (w.reduce a').Tracks a' q where
  name := h.name
  undecided := by
    unfold Allowance.reduce
    rw [h.undecided, List.filter_filter]
    apply List.filter_congr
    intro i _
    rcases ha : a.value? i with _ | p
    · simp
    · simp [he i p ha]
  slack := by
    have hle : (w.newlySpent a').length ≤ w.slack := by
      unfold overspent? at hs
      by_cases hlt : w.slack < (w.newlySpent a').length
      · simp [hlt] at hs
      · exact Nat.le_of_not_lt hlt
    have hsl := h.slack
    show w.slack - (w.newlySpent a').length + _ = q.limit
    rw [h.countP_add he]
    omega
  spent i hi ha := h.mem_newlySpent he hi ha
  fails := h.fails_newlySpent he h0

/-- **Why an assignment overspends a quota.** -/
theorem Tracks.overspent (hq : q ∈ quotas) (h0 : 0 ∉ q.members) {c : Consequence}
    (hs : w.overspent? a' = some c) :
    c.Valid clauses quotas ∧ ∀ l ∈ c.clause, a'.Fails l := by
  unfold overspent? at hs
  by_cases hlt : w.slack < (w.newlySpent a').length
  · rw [if_pos hlt, Option.some_inj] at hs
    rw [← hs]
    refine ⟨valid_of_lt_countP hq (List.mem_singleton.mpr h.name.symm)
      (P := fun i => a'.value? i == some true) (fun i hi hv => ?_) ?_, h.fails_newlySpent he h0⟩
    · exact h.mem_newlySpent he hi (beq_iff_eq.mp hv)
    · have hsl := h.slack
      rw [h.countP_add he]
      omega
  · rw [if_neg hlt] at hs
    cases hs

end

/-- **Why a quota that is used up forces a literal.** -/
theorem Tracks.forced (h : w.Tracks a q) (hq : q ∈ quotas) (h0 : 0 ∉ q.members)
    {r : Literal × Consequence} (hr : r ∈ w.forced) :
    r.1 ≠ 0 ∧ r.2.Valid clauses quotas ∧ ∀ l ∈ r.2.clause, l = r.1 ∨ a.Fails l := by
  unfold Allowance.forced at hr
  by_cases hs : w.slack = 0
  · rw [if_pos hs] at hr
    obtain ⟨i, hi, hr⟩ := List.mem_map.mp hr
    rw [h.undecided] at hi
    obtain ⟨him, hin⟩ := List.mem_filter.mp hi
    have hi0 : i ≠ 0 := fun h => h0 (h ▸ him)
    rw [← hr]
    refine ⟨by simpa using hi0, ?_, fun l hl => (List.mem_cons.mp hl).imp_right (h.fails l)⟩
    refine valid_of_lt_countP hq (List.mem_singleton.mpr h.name.symm)
      (P := fun j => a.value? j == some true || j == i) (fun j hj hP => ?_) ?_
    · rcases Bool.or_eq_true_iff.mp hP with hP | hP
      · exact List.mem_cons_of_mem _ (h.spent j hj (beq_iff_eq.mp hP))
      · rw [beq_iff_eq.mp hP]
        exact List.mem_cons_self
    · have hc := countP_lt_countP_or (P := fun j => a.value? j == some true) him
        (by rw [Option.isNone_iff_eq_none.mp hin]; rfl)
      have hsl := h.slack
      omega
  · rw [if_neg hs] at hr
    cases hr

end Allowance

/-! ### Residual problems -/

namespace Residual

variable {clauses : List Clause} {quotas : List Quota} {p q : Residual} {ls : List Literal}

/-- No clause and no quota names the identifier zero, which has no opposite. -/
structure Proper (clauses : List Clause) (quotas : List Quota) : Prop where
  clauses : ∀ c ∈ clauses, (0 : Int) ∉ c
  quotas : ∀ q ∈ quotas, 0 ∉ q.members

/-- What is left of clauses and quotas where the assignment stands. -/
structure LeftOf (clauses : List Clause) (quotas : List Quota) (p : Residual) : Prop where
  covered : ∀ c ∈ clauses, (∃ l ∈ c, p.assignment.literal? l = some true) ∨
    ∃ r ∈ p.remnants, r.whole = c
  whole : ∀ r ∈ p.remnants, r.whole ∈ clauses
  left : ∀ r ∈ p.remnants, ∀ l ∈ r.left, l ∈ r.whole ∧ p.assignment.literal? l = none
  decided : ∀ r ∈ p.remnants, ∀ l ∈ r.whole, l ∈ r.left ∨ p.assignment.Fails l
  tracked : ∀ q ∈ quotas, ∃ w ∈ p.allowances, w.Tracks p.assignment q
  tracks : ∀ w ∈ p.allowances, ∃ q ∈ quotas, w.Tracks p.assignment q
  size : ∀ c ∈ clauses, ∀ l ∈ c, Int.natAbs l < p.assignment.values.size

theorem assign_eq_ok (h : p.assign ls = .ok q) :
    (∀ w ∈ p.allowances, w.overspent? (p.assignment.setAll ls) = none) ∧
      q = ⟨p.assignment.setAll ls, p.remnants.filterMap (·.reduce (p.assignment.setAll ls)),
        p.allowances.map (·.reduce (p.assignment.setAll ls))⟩ := by
  simp only [assign] at h
  split at h
  · cases h
  · rename_i hn
    rw [List.findSome?_eq_none_iff] at hn
    exact ⟨hn, (Except.ok.inj h).symm⟩

/-- **Deciding literals** leaves what is left of the same problem. -/
theorem LeftOf.assign (hp : p.LeftOf clauses quotas) (h0 : Proper clauses quotas)
    (h : p.assign ls = .ok q) : q.LeftOf clauses quotas := by
  obtain ⟨hs, rfl⟩ := assign_eq_ok h
  have he := p.assignment.extends_setAll ls
  have hreduce : ∀ {r r' : Remnant}, r.reduce (p.assignment.setAll ls) = some r' →
      (∀ l ∈ r.left, (p.assignment.setAll ls).literal? l ≠ some true) ∧
        r' = ⟨r.left.filter fun l => ((p.assignment.setAll ls).literal? l).isNone, r.whole⟩ := by
    intro r r' hr
    unfold Remnant.reduce at hr
    split at hr
    · cases hr
    · rename_i hn
      refine ⟨fun l hl ht => hn (List.any_eq_true.mpr ⟨l, hl, by rw [ht]; rfl⟩), ?_⟩
      exact (Option.some_inj.mp hr).symm
  refine ⟨fun c hc => ?_, fun r' hr' => ?_, fun r' hr' l hl => ?_, fun r' hr' l hl => ?_,
    fun q hq => ?_, fun w' hw' => ?_, fun c hc l hl => ?_⟩
  · rcases hp.covered c hc with ⟨l, hl, ht⟩ | ⟨r, hr, hrc⟩
    · exact Or.inl ⟨l, hl, he.literal? ht⟩
    · cases hred : r.reduce (p.assignment.setAll ls) with
      | none =>
        unfold Remnant.reduce at hred
        split at hred
        · rename_i hany
          obtain ⟨l, hl, ht⟩ := List.any_eq_true.mp hany
          exact Or.inl ⟨l, hrc ▸ (hp.left r hr l hl).1, beq_iff_eq.mp ht⟩
        · cases hred
      | some r' =>
        obtain ⟨-, hr'⟩ := hreduce hred
        exact Or.inr ⟨r', List.mem_filterMap.mpr ⟨r, hr, hred⟩, by rw [hr', hrc]⟩
  · obtain ⟨r, hr, hred⟩ := List.mem_filterMap.mp hr'
    rw [(hreduce hred).2]
    exact hp.whole r hr
  · obtain ⟨r, hr, hred⟩ := List.mem_filterMap.mp hr'
    rw [(hreduce hred).2] at hl ⊢
    obtain ⟨hl, hn⟩ := List.mem_filter.mp hl
    exact ⟨(hp.left r hr l hl).1, Option.isNone_iff_eq_none.mp hn⟩
  · obtain ⟨r, hr, hred⟩ := List.mem_filterMap.mp hr'
    obtain ⟨hnt, hr'⟩ := hreduce hred
    rw [hr'] at hl ⊢
    rcases hp.decided r hr l hl with hll | hf
    · have hl0 : (l : Int) ≠ 0 := fun h => h0.clauses _ (hp.whole r hr) (h ▸ hl)
      rcases hv : (p.assignment.setAll ls).literal? l with _ | _ | _
      · exact Or.inl (List.mem_filter.mpr ⟨hll, by rw [hv]; rfl⟩)
      · exact Or.inr ⟨hl0, hv⟩
      · exact absurd hv (hnt l hll)
    · exact Or.inr (hf.mono he)
  · obtain ⟨w, hw, ht⟩ := hp.tracked q hq
    exact ⟨_, List.mem_map.mpr ⟨w, hw, rfl⟩, ht.reduce he (h0.quotas q hq) (hs w hw)⟩
  · obtain ⟨w, hw, rfl⟩ := List.mem_map.mp hw'
    obtain ⟨q, hq, ht⟩ := hp.tracks w hw
    exact ⟨q, hq, ht.reduce he (h0.quotas q hq) (hs w hw)⟩
  · rw [Assignment.size_setAll]
    exact hp.size c hc l hl

theorem LeftOf.assign_error (hp : p.LeftOf clauses quotas) (h0 : Proper clauses quotas)
    {c : Consequence} (h : p.assign ls = .error c) :
    c.Valid clauses quotas ∧ ∀ l ∈ c.clause, (p.assignment.setAll ls).Fails l := by
  simp only [Residual.assign] at h
  split at h
  · rename_i d hd
    obtain ⟨w, hw, hs⟩ := List.exists_of_findSome?_eq_some hd
    obtain ⟨q, hq, ht⟩ := hp.tracks w hw
    rw [← Except.error.inj h]
    exact ht.overspent (p.assignment.extends_setAll ls) hq (h0.quotas q hq) hs
  · cases h

theorem LeftOf.conflict (hp : p.LeftOf clauses quotas) {c : Consequence}
    (h : p.conflict? = some c) : c.Valid clauses quotas ∧ ∀ l ∈ c.clause, p.assignment.Fails l := by
  obtain ⟨r, hr, rfl⟩ := Option.map_eq_some_iff.mp h
  have hm := List.mem_of_find?_eq_some hr
  have hnil : r.left = [] := by simpa using List.find?_some hr
  refine ⟨Consequence.valid_of_mem (hp.whole r hm), fun l hl => ?_⟩
  refine (hp.decided r hm l hl).resolve_left fun hll => ?_
  rw [hnil] at hll
  exact List.not_mem_nil hll

/-- **Forced literals** come with valid reasons that need nothing but them. -/
theorem LeftOf.forced (hp : p.LeftOf clauses quotas) (h0 : Proper clauses quotas)
    {r : Literal × Consequence} (hr : r ∈ p.forced) :
    r.1 ≠ 0 ∧ r.2.Valid clauses quotas ∧ ∀ l ∈ r.2.clause, l = r.1 ∨ p.assignment.Fails l := by
  have hm := (List.mem_filter.mp hr).1
  rcases List.mem_append.mp hm with hm | hm
  · obtain ⟨s, hs, hu⟩ := List.mem_filterMap.mp hm
    unfold Remnant.unit? at hu
    split at hu
    · rename_i l hl
      have hll : l ∈ s.left := by rw [hl]; exact List.mem_cons_self
      obtain ⟨hlw, -⟩ := hp.left s hs l hll
      rw [← Option.some_inj.mp hu]
      refine ⟨fun h => h0.clauses _ (hp.whole s hs) (h ▸ hlw),
        Consequence.valid_of_mem (hp.whole s hs), fun k hk => ?_⟩
      refine (hp.decided s hs k hk).imp_left fun hk => ?_
      rw [hl] at hk
      exact List.mem_singleton.mp hk
    · cases hu
  · obtain ⟨w, hw, hf⟩ := List.mem_flatMap.mp hm
    obtain ⟨q, hq, ht⟩ := hp.tracks w hw
    exact ht.forced hq (h0.quotas q hq) hf

/-! ### Scores -/

theorem modify_pos_iff {scores : Array Nat} {i j weight : Nat} (hw : 0 < weight) :
    0 < (scores.modify j (· + weight)).getD i 0 ↔
      0 < scores.getD i 0 ∨ i < scores.size ∧ j = i := by
  rw [Array.getD_eq_getD_getElem?, Array.getD_eq_getD_getElem?, Array.getElem?_modify]
  by_cases hj : j = i
  · by_cases hi : i < scores.size
    · simp only [hj, hi, Array.getElem?_eq_getElem, if_true, Option.map_some, Option.getD_some,
        and_self, or_true, iff_true]
      omega
    · simp [hj, hi]
  · simp [hj]

theorem foldl_modify_pos_iff {weight : Nat} (hw : 0 < weight) (ls : List Literal)
    (scores : Array Nat) (i : Nat) :
    let after := ls.foldl (fun scores l => scores.modify l.natAbs (· + weight)) scores
    after.size = scores.size ∧ (0 < after.getD i 0 ↔
      0 < scores.getD i 0 ∨ i < scores.size ∧ ∃ l ∈ ls, Int.natAbs l = i) := by
  induction ls generalizing scores with
  | nil => simp
  | cons l ls ih =>
    obtain ⟨hs, hi⟩ := ih (scores.modify l.natAbs (· + weight))
    rw [Array.size_modify] at hs hi
    refine ⟨hs, hi.trans ?_⟩
    rw [modify_pos_iff hw]
    simp only [List.mem_cons, exists_eq_or_imp]
    rw [or_assoc, and_or_left]

theorem weight_pos (r : Remnant) : 0 < r.weight := by
  unfold Remnant.weight
  rw [Nat.one_shiftLeft]
  exact Nat.two_pow_pos _

/-- A variable scores just when it occurs in what is left of a clause. -/
theorem scores_pos_iff (p : Residual) (i : Nat) : p.scores.size = p.assignment.values.size ∧
    (0 < p.scores.getD i 0 ↔
      i < p.assignment.values.size ∧ ∃ r ∈ p.remnants, ∃ l ∈ r.left, Int.natAbs l = i) := by
  have hfold : ∀ (rs : List Remnant) (scores : Array Nat),
      let after := rs.foldl (fun scores r =>
        r.left.foldl (fun scores l => scores.modify l.natAbs (· + r.weight)) scores) scores
      after.size = scores.size ∧ (0 < after.getD i 0 ↔ 0 < scores.getD i 0 ∨
        i < scores.size ∧ ∃ r ∈ rs, ∃ l ∈ r.left, Int.natAbs l = i) := by
    intro rs
    induction rs with
    | nil => simp
    | cons r rs ih =>
      intro scores
      obtain ⟨hs, hi⟩ := foldl_modify_pos_iff (weight_pos r) r.left scores i
      obtain ⟨hs', hi'⟩ := ih _
      refine ⟨hs'.trans hs, hi'.trans ?_⟩
      rw [hi, hs]
      simp only [List.mem_cons, exists_eq_or_imp]
      rw [or_assoc, and_or_left]
  obtain ⟨hs, hi⟩ := hfold p.remnants (Array.replicate p.assignment.values.size 0)
  rw [Array.size_replicate] at hs hi
  refine ⟨hs, hi.trans (or_iff_right ?_)⟩
  by_cases hlt : i < p.assignment.values.size <;> simp [hlt]

/-- A variable picked is no zero, for it occurs in a clause. -/
theorem LeftOf.pick_ne_zero (hp : p.LeftOf clauses quotas) (h0 : Proper clauses quotas)
    {l : Literal} (h : p.pick? = some l) : l ≠ 0 := by
  simp only [pick?] at h
  split at h
  · cases h
  · rename_i i is hi
    have hmem := heaviest_mem p.scores i is
    rw [← hi, List.mem_filter, Bool.and_eq_true, decide_eq_true_eq] at hmem
    obtain ⟨-, r, hr, k, hk, hkn⟩ := (scores_pos_iff p _).2.mp hmem.2.1
    rw [← Option.some_inj.mp h, ← hkn]
    intro hz
    have hk0 : k = 0 := Int.natAbs_eq_zero.mp (Int.natCast_eq_zero.mp (Int.neg_eq_zero.mp hz))
    exact h0.clauses _ (hp.whole r hr) (hk0 ▸ (hp.left r hr k hk).1)

/-- With nothing wrong and nothing to pick, every clause holds. -/
theorem LeftOf.model (hp : p.LeftOf clauses quotas) (hc : p.conflict? = none)
    (hl : p.pick? = none) : (∀ c ∈ clauses, c.holds p.assignment.complete) ∧
      ∀ q ∈ quotas, q.Kept p.assignment.complete := by
  have hnone : p.remnants = [] := by
    apply List.eq_nil_iff_forall_not_mem.mpr
    intro r hr
    have hne : r.left ≠ [] := by
      unfold conflict? at hc
      rw [Option.map_eq_none_iff, List.find?_eq_none] at hc
      exact fun h => hc r hr (List.isEmpty_iff.mpr h)
    obtain ⟨l, hlr⟩ := List.exists_mem_of_ne_nil _ hne
    obtain ⟨hw, hu⟩ := hp.left r hr l hlr
    have hsize := hp.size _ (hp.whole r hr) l hw
    obtain ⟨hss, hsp⟩ := scores_pos_iff p l.natAbs
    have hopen := Assignment.isOpen_of_value? hsize (Assignment.literal?_eq_none_iff.mp hu)
    have hin : l.natAbs ∈ (List.range p.scores.size).filter fun i =>
        0 < p.scores.getD i 0 && p.assignment.isOpen i := by
      refine List.mem_filter.mpr ⟨List.mem_range.mpr (hss ▸ hsize), ?_⟩
      rw [Bool.and_eq_true, decide_eq_true_eq]
      exact ⟨hsp.mpr ⟨hsize, r, hr, l, hlr, rfl⟩, hopen⟩
    simp only [pick?] at hl
    split at hl
    · rename_i hf
      rw [hf] at hin
      exact List.not_mem_nil hin
    · cases hl
  refine ⟨fun c hcm => ?_, fun q hq => ?_⟩
  · rcases hp.covered c hcm with ⟨l, hl, ht⟩ | ⟨r, hr, -⟩
    · exact List.any_eq_true.mpr ⟨l, hl, Assignment.holds_complete ht⟩
    · rw [hnone] at hr
      cases hr
  · obtain ⟨w, -, ht⟩ := hp.tracked q hq
    have heq : p.assignment.complete = fun i => p.assignment.value? i == some true := by
      funext i
      unfold Assignment.complete
      rcases p.assignment.value? i with _ | _ | _ <;> rfl
    have hs := ht.slack
    unfold Quota.Kept
    rw [heq]
    omega

/-! ### The search -/

/-- A result of a search: a model, or a valid consequence of which every literal has the
property. -/
def Answers (clauses : List Clause) (quotas : List Quota) (P : Literal → Prop) :
    Except Consequence (Ident → Bool) → Prop
  | .ok v => (∀ c ∈ clauses, c.holds v) ∧ ∀ q ∈ quotas, q.Kept v
  | .error c => c.Valid clauses quotas ∧ ∀ l ∈ c.clause, P l

/-- **A round** explains a failure without its own literals. -/
theorem LeftOf.round {P : Literal → Prop} {reasons : List (Literal × Consequence)}
    (hp : p.LeftOf clauses quotas) (h0 : Proper clauses quotas)
    (hP : ∀ l, p.assignment.Fails l → P l)
    (hr : ∀ r ∈ reasons, r.1 ≠ 0 ∧ r.2.Valid clauses quotas ∧ ∀ l ∈ r.2.clause, l = r.1 ∨ P l)
    {goOn : (q : Residual) → p.assign (literals reasons) = .ok q →
      Except Consequence (Ident → Bool)}
    (hgo : ∀ q h, q.LeftOf clauses quotas →
      Answers clauses quotas q.assignment.Fails (goOn q h)) :
    Answers clauses quotas P (p.round reasons goOn) := by
  have hexplain : ∀ c : Consequence, c.Valid clauses quotas →
      (∀ l ∈ c.clause, (p.assignment.setAll (literals reasons)).Fails l) →
      Answers clauses quotas P (.error (c.explain reasons)) := fun c hv hf => by
    refine ⟨Consequence.valid_explain hv fun r hm => ⟨(hr r hm).1, (hr r hm).2.1⟩,
      Consequence.mem_explain (fun l hl => ?_) fun r hm => (hr r hm).2.2⟩
    exact (Assignment.fails_of_fails_setAll (hf l hl)).imp_left (hP l)
  unfold Residual.round
  split
  · rename_i c hc
    obtain ⟨hv, hf⟩ := hp.assign_error h0 hc
    exact hexplain c hv hf
  · rename_i q hq
    have ha := hgo q hq (hp.assign h0 hq)
    split
    · rename_i c hc
      rw [hc, (assign_eq_ok hq).2] at ha
      exact hexplain c ha.1 ha.2
    · rename_i v hv
      rw [hv] at ha
      exact ha

/-- **A search** ends with a model, or with a valid consequence that fails where it
stands. -/
theorem LeftOf.search {p : Residual} (hp : p.LeftOf clauses quotas) (h0 : Proper clauses quotas) :
    Answers clauses quotas p.assignment.Fails p.search := by
  unfold Residual.search
  split
  · rename_i c hc
    exact hp.conflict hc
  · rename_i hc
    split
    · rename_i f fs hf
      refine hp.round h0 (fun _ h => h) (fun r hr => hp.forced h0 (hf ▸ hr)) fun q h hq => ?_
      have hlt := openCount_assign_lt (isOpen_of_mem_forced (hf ▸ List.mem_cons_self)) h
      exact hq.search h0
    · split
      · rename_i hl
        exact hp.model hc hl
      · rename_i l hl
        have hl0 := hp.pick_ne_zero h0 hl
        have hopen := isOpen_of_pick? hl
        -- a choice is no reason: a failure of the first try may still name its opposite
        have htry : Answers clauses quotas (fun k => k = -l ∨ p.assignment.Fails k)
            (p.round [(l, .choice l)] fun q _ => q.search) := by
          refine hp.round h0 (fun _ => Or.inr) (fun r hr => ?_) fun q h hq => ?_
          · rw [List.mem_singleton.mp hr]
            refine ⟨hl0, Consequence.valid_choice hl0, fun k hk => ?_⟩
            rcases List.mem_cons.mp hk with hk | hk
            · exact Or.inl hk
            · exact Or.inr (Or.inl (List.mem_singleton.mp hk))
          · have hlt := openCount_assign_lt hopen h
            exact hq.search h0
        split
        · rename_i v hv
          rw [hv] at htry
          exact htry
        · rename_i c hcv
          rw [hcv] at htry
          obtain ⟨hv, hf⟩ := htry
          split
          · refine hp.round h0 (fun _ h => h) (fun r hr => ?_) fun q h hq => ?_
            · rw [List.mem_singleton.mp hr]
              exact ⟨Int.neg_ne_zero.mpr hl0, hv, hf⟩
            · have hlt := openCount_assign_lt (isOpen_neg hopen) h
              exact hq.search h0
          · rename_i hn
            refine ⟨hv, fun k hk => (hf k hk).resolve_left fun h => hn ?_⟩
            rw [← h]
            exact List.contains_iff_mem.mpr hk
termination_by p.assignment.openCount

end Residual
end LeastGlut
