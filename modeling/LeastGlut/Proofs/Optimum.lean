/-
# Optima are least

A soft clause of weight `k` becomes `k` units, and the cost of an assignment is
the number of units that do not hold (`WeightedClauses.cost_eq_countP`). In a
model of the relaxed clauses at least as many relaxation variables are true,
and every model of the hard clauses extends to one in which no more are
(`WeightedClauses.relax_sound`, `WeightedClauses.relax_complete`). So a bound on
the relaxation variables is a bound on the cost: every turn of the improvement
lowers the cost and keeps a model (`WeightedClauses.Improves.cost_lt`,
`WeightedClauses.Improves.attains`), the improvement takes turns as long as
there is one (`WeightedClauses.reflTransGen_improve`), and a model from which
there is none is least, whatever lawful oracle finds the models.

A listing holds the least word for the variable one past the range, whichever
value the variable has. So the assignment listed may differ from the model that
was found, but only towards what holds (`Outcome.holds_valueIn_listing`).

The relaxation variables are the next ones behind those of the clauses, as many
as there are units (`WeightedClauses.snd_relax`). Where clauses fit the pool, all
of these have indices (`WeightedClauses.FitsPool.upto_of_mem_relaxed`), and every
entry of the assignment is the literal of its place.

Key definitions: `Outcome.Lists`, `WeightedClauses.Numbered`,
`WeightedClauses.Attains`, `WeightedClauses.IsLeast`, `WeightedClauses.Improves`.
-/
import LeastGlut.Optimum
import LeastGlut.Proofs.Oracles
import Mathlib.Logic.Relation

namespace LeastGlut

namespace Outcome

variable {n : Nat} {v : Ident → Bool}

/-- The outcome has a literal for each of `n` variables, in order. -/
def Lists (o : Outcome) (n : Nat) : Prop :=
  o.assignment.length = n ∧ ∀ i : Nat, Ident.Upto n i →
    o.assignment[i - 1]? = some (i : Int) ∨ o.assignment[i - 1]? = some (-(i : Int))

theorem getElem?_listing {i : Nat} (hi : Ident.Upto n i) :
    (listing n v)[i - 1]? = some (Literal.of i (v i)) := by
  obtain ⟨h0, hle⟩ := hi
  obtain ⟨i, rfl⟩ := Nat.exists_eq_succ_of_ne_zero (Nat.pos_iff_ne_zero.mp h0)
  have hlt : i < n := hle
  simp [listing, hlt]

/-- A variable is read from a listing by the sign of its literal. -/
theorem valueIn_listing_eq {i : Nat} (hi : Ident.Upto n i) :
    valueIn (listing n v) i = decide (0 < Literal.of i (v i)) := by
  have hl := @getElem?_listing n v i hi
  obtain ⟨i, rfl⟩ := Nat.exists_eq_succ_of_ne_zero (Nat.pos_iff_ne_zero.mp hi.1)
  simp only [valueIn, show (listing n v)[i]? = _ from hl]

theorem valueIn_listing_of_inRange {i : Nat} (hi : Ident.Upto n i) (hr : Ident.InRange i) :
    valueIn (listing n v) i = v i := by
  rw [valueIn_listing_eq hi, Bool.eq_iff_iff, decide_eq_true_iff, Literal.of_pos_iff hr]

/-- A listing is read back as the assignment it lists. -/
theorem valueIn_listing (hn : n < 2 ^ 31) (v : Ident → Bool) :
    Agree n v (valueIn (listing n v)) := fun _ hi =>
  valueIn_listing_of_inRange hi (hi.inRange hn)

/-- **A clause that holds does so as listed**: the least word is the one literal that a
listing can change, and it holds in every listing. -/
theorem holds_valueIn_listing {c : Clause} (hc : c.Within n) (hw : ∀ l ∈ c, Literal.word l = l)
    (h : c.holds v) : c.holds (valueIn (listing n v)) := by
  obtain ⟨l, hl, hlv⟩ := List.any_eq_true.mp h
  refine List.any_eq_true.mpr ⟨l, hl, ?_⟩
  have hi := hc l hl
  unfold Literal.holds at hlv ⊢
  by_cases hlt : Int.natAbs l < 2 ^ 31
  · rw [valueIn_listing_of_inRange hi ⟨hi.1, hlt⟩]
    exact hlv
  · obtain rfl := Literal.eq_neg_of_word (hw l hl) (Nat.le_of_not_lt hlt)
    rw [valueIn_listing_eq hi, show Int.natAbs (-(2 ^ 31)) = 2 ^ 31 by decide,
      Literal.of_two_pow]
    decide

end Outcome

theorem Weight.total_of_lt {weights : List Weight} (h : weights.sum < 2 ^ 64) :
    Weight.total weights = weights.sum := by
  unfold total word
  rw [← List.sum_eq_foldr]
  exact Nat.mod_eq_of_lt h

namespace WeightedClauses

variable {w : WeightedClauses} {v u : Ident → Bool} {oracle : Oracle}

/-- No hard clause is violated when all hold. -/
theorem hardViolated_eq_zero_iff : w.hardViolated v = 0 ↔ ∀ c ∈ w.hard, c.holds v := by
  unfold hardViolated
  rw [List.countP_eq_zero]
  simp only [Bool.not_eq_true', Bool.not_eq_false]

/-! ### Units of cost -/

/-- The clauses are of words that are literals of the numbered variables, and no total of
weights wraps round. -/
structure Numbered (w : WeightedClauses) : Prop where
  hard : ∀ c ∈ w.hard, c.Within w.varCount
  soft : ∀ s ∈ w.soft, s.1.Within w.varCount
  words : ∀ c ∈ w.hard ++ w.soft.map (·.1), ∀ l ∈ c, Literal.word l = l
  weight : (w.soft.map (·.2)).sum < 2 ^ 64

/-- The weights of the soft clauses that do not hold are the units that do not. -/
theorem sum_unmet_eq_countP (soft : List (Clause × Weight)) (v : Ident → Bool) :
    ((soft.filter fun s => !s.1.holds v).map (·.2)).sum =
      (soft.flatMap fun s => List.replicate s.2 s.1).countP fun c => !c.holds v := by
  induction soft with
  | nil => rfl
  | cons s soft ih =>
    obtain ⟨c, k⟩ := s
    rw [List.flatMap_cons, List.countP_append, ← ih, List.countP_replicate]
    rcases hc : c.holds v with _ | _
    · rw [List.filter_cons_of_pos (by simp [hc])]
      rfl
    · rw [List.filter_cons_of_neg (by simp [hc])]
      exact (Nat.zero_add _).symm

/-- No assignment costs more than all the soft clauses together. -/
theorem sum_unmet_le (soft : List (Clause × Weight)) (v : Ident → Bool) :
    ((soft.filter fun s => !s.1.holds v).map (·.2)).sum ≤ (soft.map (·.2)).sum := by
  rw [sum_unmet_eq_countP]
  refine Nat.le_trans List.countP_le_length (Nat.le_of_eq ?_)
  simp [List.length_flatMap]

/-- The cost does not wrap round where the total weight does not. -/
theorem cost_eq_sum (h : (w.soft.map (·.2)).sum < 2 ^ 64) (v : Ident → Bool) :
    w.cost v = ((w.soft.filter fun s => !s.1.holds v).map (·.2)).sum :=
  Weight.total_of_lt (Nat.lt_of_le_of_lt (sum_unmet_le w.soft v) h)

/-- **The cost** of an assignment is the number of units that do not hold. -/
theorem cost_eq_countP (hw : w.Numbered) (v : Ident → Bool) :
    w.cost v = w.units.countP fun c => !c.holds v :=
  (cost_eq_sum hw.weight v).trans (sum_unmet_eq_countP _ _)

theorem mem_soft_of_mem_units {c : Clause} (hc : c ∈ w.units) : ∃ k, (c, k) ∈ w.soft := by
  obtain ⟨s, hs, hc⟩ := List.mem_flatMap.mp hc
  rw [(List.mem_replicate.mp hc).2]
  exact ⟨s.2, hs⟩

theorem within_units (hw : w.Numbered) : ∀ c ∈ w.units, c.Within w.varCount := fun c hc => by
  obtain ⟨k, hs⟩ := mem_soft_of_mem_units hc
  exact hw.soft _ hs

theorem Numbered.word_hard (hw : w.Numbered) {c : Clause} (hc : c ∈ w.hard) :
    ∀ l ∈ c, Literal.word l = l :=
  hw.words c (List.mem_append_left _ hc)

theorem Numbered.word_units (hw : w.Numbered) {c : Clause} (hc : c ∈ w.units) :
    ∀ l ∈ c, Literal.word l = l := by
  obtain ⟨k, hs⟩ := mem_soft_of_mem_units hc
  exact hw.words c (List.mem_append_right _ (List.mem_map.mpr ⟨_, hs, rfl⟩))

/-! ### Relaxation -/

/-- The relaxation variables follow each other from the next free index of the pool. -/
theorem snd_relax (pool : IndexPool) (cs : List Clause) :
    (relax pool cs).2 = List.range' (pool.next + 1) cs.length := by
  induction cs generalizing pool with
  | nil => rfl
  | cons c cs ih =>
    show (pool.next + 1) :: (relax pool.fresh.2 cs).2 = _
    rw [ih, List.length_cons, List.range'_succ]
    rfl

/-- Every relaxation variable is behind those of the clauses and has an index. -/
theorem FitsPool.upto_of_mem_relaxed (h : w.FitsPool) {i : Nat} (hi : i ∈ w.relaxed.2) :
    w.varCount < i ∧ Ident.Upto IndexPool.capacity i := by
  change i ∈ (relax (.behind w.varCount) w.units).2 at hi
  rw [snd_relax, List.mem_range'_1] at hi
  obtain ⟨hlow, hhigh⟩ := hi
  change w.varCount + 1 ≤ i at hlow
  change i < w.varCount + 1 + w.units.length at hhigh
  unfold FitsPool at h
  exact ⟨hlow, by omega, by omega⟩

theorem relax_proper (pool : IndexPool) {cs : List Clause} (h : ∀ c ∈ cs, (0 : Int) ∉ c) :
    (∀ c ∈ (relax pool cs).1, (0 : Int) ∉ c) ∧ 0 ∉ (relax pool cs).2 := by
  induction cs generalizing pool with
  | nil => simp [relax]
  | cons c cs ih =>
    rw [List.forall_mem_cons] at h
    obtain ⟨hc, hi⟩ := ih pool.fresh.2 h.2
    refine ⟨List.forall_mem_cons.mpr ⟨fun h0 => ?_, hc⟩, fun h0 => ?_⟩
    · rcases List.mem_append.mp h0 with h0 | h0
      · exact h.1 h0
      · have hz : (0 : Int) = ((pool.fresh.1 + 1 : Nat) : Int) := List.mem_singleton.mp h0
        omega
    · exact hi ((List.mem_cons.mp h0).resolve_left (Nat.succ_ne_zero _).symm)

/-- A relaxation variable is true where its clause does not hold. -/
theorem relax_sound (pool : IndexPool) (cs : List Clause)
    (h : ∀ c ∈ (relax pool cs).1, c.holds v) :
    (cs.countP fun c => !c.holds v) ≤ (relax pool cs).2.countP v := by
  induction cs generalizing pool with
  | nil => exact Nat.le_refl _
  | cons c cs ih =>
    obtain ⟨hc, hcs⟩ := List.forall_mem_cons.mp h
    have hle := ih pool.fresh.2 hcs
    show _ ≤ ((pool.fresh.1 + 1) :: (relax pool.fresh.2 cs).2).countP v
    rw [List.countP_cons, List.countP_cons]
    have hone : c.holds v = false → v (pool.fresh.1 + 1) = true := fun hf => by
      change Clause.holds v (c ++ [((pool.fresh.1 + 1 : Nat) : Int)]) at hc
      rw [Clause.holds, List.any_append, ← Clause.holds, hf, Bool.false_or, List.any_cons,
        List.any_nil, Bool.or_false, Literal.holds_ofNat (Nat.succ_pos _)] at hc
      exact hc
    rcases hf : c.holds v with _ | _
    · rw [hone hf]
      exact Nat.add_le_add_right hle _
    · exact Nat.le_trans hle (Nat.le_add_right _ _)

/-- The relaxation variables can be true just where their clauses do not hold. -/
theorem relax_complete (pool : IndexPool) {cs : List Clause} (v : Ident → Bool)
    (h : ∀ c ∈ cs, c.Within pool.next) : ∃ u, Agree pool.next v u ∧
      (∀ c ∈ (relax pool cs).1, c.holds u) ∧
      (relax pool cs).2.countP u = cs.countP fun c => !c.holds v := by
  induction cs generalizing pool v with
  | nil => exact ⟨v, fun _ _ => rfl, by simp [relax], rfl⟩
  | cons c cs ih =>
    rw [List.forall_mem_cons] at h
    let v' := fun i => if i = pool.next + 1 then !c.holds v else v i
    have hv' : Agree pool.next v v' := fun i hi => if_neg fun h => by
      obtain ⟨-, hle⟩ := hi
      omega
    have hnext : pool.fresh.2.next = pool.next + 1 := rfl
    obtain ⟨u, hu, hc, hcount⟩ := ih pool.fresh.2 v' fun d hd =>
      (h.2 d hd).mono (hnext ▸ Nat.le_succ _)
    have hvu : Agree pool.next v u := hv'.trans (hu.mono (hnext ▸ Nat.le_succ _))
    have hi : u (pool.next + 1) = !c.holds v :=
      (hu _ ⟨Nat.succ_pos _, Nat.le_refl _⟩).trans (if_pos rfl)
    refine ⟨u, hvu, List.forall_mem_cons.mpr ⟨?_, hc⟩, ?_⟩
    · show Clause.holds u (c ++ [((pool.next + 1 : Nat) : Int)])
      unfold Clause.holds
      rw [List.any_append, ← Clause.holds, h.1.holds_congr hvu]
      rw [List.any_cons, List.any_nil, Bool.or_false, Literal.holds_ofNat (Nat.succ_pos _), hi,
        Bool.or_not_self]
    · show ((pool.next + 1) :: (relax pool.fresh.2 cs).2).countP u = _
      have hcs : (cs.countP fun d => !d.holds v') = cs.countP fun d => !d.holds v :=
        List.countP_congr fun d hd => by rw [(h.2 d hd).holds_congr hv']
      rw [List.countP_cons, List.countP_cons, hcount, hcs, hi]

/-- No literal is zero, which has no opposite. -/
structure Proper (w : WeightedClauses) : Prop where
  hard : ∀ c ∈ w.hard, (0 : Int) ∉ c
  soft : ∀ s ∈ w.soft, (0 : Int) ∉ s.1

theorem Numbered.proper (hw : w.Numbered) : w.Proper := by
  have hzero : ∀ {c : Clause}, c.Within w.varCount → (0 : Int) ∉ c := fun hc h0 =>
    absurd (hc _ h0).1 (Nat.lt_irrefl 0)
  exact ⟨fun c hc => hzero (hw.hard c hc), fun s hs => hzero (hw.soft s hs)⟩

theorem isProper_relaxed (hw : w.Proper) (bound : Option Nat) :
    Oracle.IsProper w.relaxed.1 (bound.map (w.relaxed.2, ·)) := by
  have hunits : ∀ c ∈ w.units, (0 : Int) ∉ c := fun c hc => by
    obtain ⟨k, hs⟩ := mem_soft_of_mem_units hc
    exact hw.soft _ hs
  obtain ⟨hc, hi⟩ := relax_proper (.behind w.varCount) hunits
  refine ⟨List.forall_mem_append.mpr ⟨hw.hard, hc⟩, fun b hb => ?_⟩
  obtain ⟨n, -, rfl⟩ := Option.map_eq_some_iff.mp hb
  exact hi

/-! ### Improvement -/

/-- **A check** lists a model of the hard clauses within the bound on the cost, unless
there is none. -/
theorem check_spec (ho : oracle.Lawful) (hw : w.Numbered) (bound : Option Nat) :
    match w.check oracle bound with
    | some a => ∃ v, a = Outcome.listing w.varCount v ∧ (∀ c ∈ w.hard, c.holds v) ∧
        ∀ n ∈ bound, w.cost v ≤ n
    | none => ∀ v, (∀ c ∈ w.hard, c.holds v) → ¬∀ n ∈ bound, w.cost v ≤ n := by
  have hproper := isProper_relaxed hw.proper bound
  unfold check
  cases hm : oracle.model? w.relaxed.1 (bound.map (w.relaxed.2, ·)) with
  | some v =>
    obtain ⟨hv, hk⟩ := ho.sound hproper hm
    obtain ⟨hh, hs⟩ := List.forall_mem_append.mp hv
    refine ⟨v, rfl, hh, fun n hn => ?_⟩
    calc w.cost v = w.units.countP fun c => !c.holds v := cost_eq_countP hw v
      _ ≤ w.relaxed.2.countP v := relax_sound _ _ hs
      _ ≤ n := hk _ (Option.map_eq_some_iff.mpr ⟨n, hn, rfl⟩)
  | none =>
    intro v hh hn
    obtain ⟨u, hu, hs, hcount⟩ := relax_complete (.behind w.varCount) v (within_units hw)
    refine ho.complete hproper hm u ⟨List.forall_mem_append.mpr ⟨fun c hc => ?_, hs⟩, ?_⟩
    · rw [(hw.hard c hc).holds_congr hu]
      exact hh c hc
    · intro b hb
      obtain ⟨n, hn', rfl⟩ := Option.map_eq_some_iff.mp hb
      show (relax (.behind w.varCount) w.units).2.countP u ≤ n
      rw [hcount, ← cost_eq_countP hw]
      exact hn n hn'

/-- The outcome lists a model of the hard clauses, with its cost. -/
structure Attains (w : WeightedClauses) (o : Outcome) : Prop where
  listed : ∃ v, o.assignment = Outcome.listing w.varCount v
  hard : ∀ c ∈ w.hard, c.holds o.value
  cost : o.cost = w.cost o.value

/-- No model of the hard clauses costs less than the outcome. -/
structure IsLeast (w : WeightedClauses) (o : Outcome) : Prop extends w.Attains o where
  least : ∀ v, (∀ c ∈ w.hard, c.holds v) → o.cost ≤ w.cost v

/-- In range, an outcome lists its own values. -/
theorem Attains.assignment_eq {o : Outcome} (h : w.Attains o) (hn : w.varCount < 2 ^ 31) :
    o.assignment = Outcome.listing w.varCount o.value := by
  obtain ⟨v, hv⟩ := h.listed
  refine hv.trans (List.map_congr_left fun i hi => ?_)
  have hi : Ident.Upto w.varCount (i + 1) := ⟨Nat.succ_pos i, List.mem_range.mp hi⟩
  refine congrArg (Literal.of (i + 1)) (Outcome.valueIn_listing hn v _ hi).symm |>.trans ?_
  rw [← hv]
  rfl

theorem attains_outcomeOf (hw : w.Numbered) (hv : ∀ c ∈ w.hard, c.holds v) :
    w.Attains (w.outcomeOf (Outcome.listing w.varCount v)) where
  listed := ⟨v, rfl⟩
  hard c hc := Outcome.holds_valueIn_listing (hw.hard c hc) (hw.word_hard hc) (hv c hc)
  cost := rfl

theorem cost_outcomeOf_le (hw : w.Numbered) (v : Ident → Bool) :
    (w.outcomeOf (Outcome.listing w.varCount v)).cost ≤ w.cost v := by
  show w.cost (Outcome.valueIn (Outcome.listing w.varCount v)) ≤ w.cost v
  rw [cost_eq_countP hw, cost_eq_countP hw]
  refine List.countP_mono_left fun c hc hu => ?_
  rw [Bool.not_eq_true'] at hu ⊢
  refine Bool.eq_false_iff.mpr fun hcv => Bool.eq_false_iff.mp hu ?_
  exact Outcome.holds_valueIn_listing (within_units hw c hc) (hw.word_units hc) hcv

/-! ### Turns of the improvement -/

/-- One turn: the outcome costs something, and a check within less than its cost lists an
assignment, whose outcome is the better one. -/
def Improves (oracle : Oracle) (w : WeightedClauses) (best better : Outcome) : Prop :=
  best.cost ≠ 0 ∧ ∃ a, w.check oracle (some (best.cost - 1)) = some a ∧ better = w.outcomeOf a

variable {best better : Outcome}

/-- **Every turn lowers the cost.** -/
theorem Improves.cost_lt (ho : oracle.Lawful) (hw : w.Numbered)
    (h : w.Improves oracle best better) : better.cost < best.cost := by
  obtain ⟨h0, a, ha, rfl⟩ := h
  have hc := check_spec ho hw (some (best.cost - 1))
  rw [ha] at hc
  obtain ⟨v, rfl, -, hle⟩ := hc
  calc (w.outcomeOf (Outcome.listing w.varCount v)).cost ≤ w.cost v := cost_outcomeOf_le hw v
    _ ≤ best.cost - 1 := hle _ rfl
    _ < best.cost := Nat.sub_one_lt h0

theorem Improves.attains (ho : oracle.Lawful) (hw : w.Numbered)
    (h : w.Improves oracle best better) : w.Attains better := by
  obtain ⟨-, a, ha, rfl⟩ := h
  have hc := check_spec ho hw (some (best.cost - 1))
  rw [ha] at hc
  obtain ⟨v, rfl, hv, -⟩ := hc
  exact attains_outcomeOf hw hv

/-- The improvement takes a turn if there is one, and stays where there is none. -/
theorem improve_eq (ho : oracle.Lawful) (hw : w.Numbered) (best : Outcome) :
    (∃ better, w.Improves oracle best better ∧
        w.improve oracle best = w.improve oracle better) ∨
      (∀ better, ¬w.Improves oracle best better) ∧ w.improve oracle best = best := by
  rw [improve]
  by_cases h0 : best.cost = 0
  · rw [if_pos h0]
    exact Or.inr ⟨fun better h => h.1 h0, rfl⟩
  · rw [if_neg h0]
    cases hc : w.check oracle (some (best.cost - 1)) with
    | none =>
      refine Or.inr ⟨fun better h => ?_, rfl⟩
      obtain ⟨-, a, ha, -⟩ := h
      cases hc.symm.trans ha
    | some a =>
      have hturn : w.Improves oracle best (w.outcomeOf a) := ⟨h0, a, hc, rfl⟩
      exact Or.inl ⟨_, hturn, if_pos (hturn.cost_lt ho hw)⟩

/-- **The improvement is a run of turns** to an outcome from which there is none. -/
theorem reflTransGen_improve (ho : oracle.Lawful) (hw : w.Numbered) (best : Outcome) :
    Relation.ReflTransGen (w.Improves oracle) best (w.improve oracle best) ∧
      ∀ o, ¬w.Improves oracle (w.improve oracle best) o := by
  rcases improve_eq ho hw best with ⟨better, hturn, heq⟩ | ⟨hnone, heq⟩
  · have hlt := hturn.cost_lt ho hw
    obtain ⟨hrun, hend⟩ := reflTransGen_improve ho hw better
    rw [heq]
    exact ⟨hrun.head hturn, hend⟩
  · rw [heq]
    exact ⟨.refl, hnone⟩
termination_by best.cost

/-- A model from which there is no turn is least. -/
theorem isLeast_of_not_improves (ho : oracle.Lawful) (hw : w.Numbered) (hb : w.Attains best)
    (h : ∀ o, ¬w.Improves oracle best o) : w.IsLeast best := by
  refine ⟨hb, fun v hv => Nat.le_of_not_lt fun hlt => ?_⟩
  have hc := check_spec ho hw (some (best.cost - 1))
  cases ha : w.check oracle (some (best.cost - 1)) with
  | some a => exact h _ ⟨Nat.ne_zero_of_lt hlt, a, ha, rfl⟩
  | none =>
    rw [ha] at hc
    refine hc v hv fun n hn => ?_
    rw [← Option.some_inj.mp hn]
    exact Nat.le_sub_one_of_lt hlt

/-- **Improvement ends with a least outcome.** -/
theorem isLeast_improve (ho : oracle.Lawful) (hw : w.Numbered) (hb : w.Attains best) :
    w.IsLeast (w.improve oracle best) := by
  obtain ⟨hrun, hend⟩ := reflTransGen_improve ho hw best
  refine isLeast_of_not_improves ho hw ?_ hend
  rcases hrun.cases_tail with heq | ⟨o, -, hturn⟩
  · rw [heq]
    exact hb
  · exact hturn.attains ho hw

/-! ### The optimum -/

/-- Either some hard clause is empty or the clauses have no model, so the optimum is
missing; or a first model is found, and the optimum improves it. -/
theorem optimumBy_cases (ho : oracle.Lawful) (hw : w.Numbered) :
    (∃ e, w.optimumBy oracle = .error e ∧ ∀ v, ¬∀ c ∈ w.hard, c.holds v) ∨
      ∃ a, w.check oracle none = some a ∧ w.Attains (w.outcomeOf a) ∧
        w.optimumBy oracle = .ok (w.improve oracle (w.outcomeOf a)) := by
  unfold optimumBy
  by_cases he : w.hard.any List.isEmpty
  · rw [if_pos he]
    refine Or.inl ⟨_, rfl, fun v hv => ?_⟩
    obtain ⟨c, hc, hnil⟩ := List.any_eq_true.mp he
    have hcv := hv c hc
    rw [List.isEmpty_iff.mp hnil] at hcv
    cases hcv
  · rw [if_neg he]
    have hc := check_spec ho hw none
    cases ha : w.check oracle none with
    | none =>
      rw [ha] at hc
      exact Or.inl ⟨_, rfl, fun v hv => hc v hv (by simp)⟩
    | some a =>
      rw [ha] at hc
      obtain ⟨v, rfl, hv, -⟩ := hc
      exact Or.inr ⟨_, rfl, attains_outcomeOf hw hv, rfl⟩

/-- Without a model there is no optimum. -/
theorem exists_optimumBy_eq_error (ho : oracle.Lawful) (hw : w.Proper)
    (hnone : ∀ v, ¬∀ c ∈ w.hard, c.holds v) : ∃ failure, w.optimumBy oracle = .error failure := by
  unfold optimumBy
  split
  · exact ⟨_, rfl⟩
  · cases ha : w.check oracle none with
    | none => exact ⟨_, rfl⟩
    | some a =>
      obtain ⟨v, hv, -⟩ := Option.map_eq_some_iff.mp ha
      have hmodel := (ho.sound (isProper_relaxed hw none) hv).1
      exact absurd (fun c hc => hmodel c (List.mem_append_left _ hc)) (hnone v)

/-- **The optimum is a least outcome**, and it is missing only when the hard clauses have
no model. -/
theorem optimumBy_spec (ho : oracle.Lawful) (hw : w.Numbered) :
    match w.optimumBy oracle with
    | .ok o => w.IsLeast o
    | .error _ => ∀ v, ¬∀ c ∈ w.hard, c.holds v := by
  rcases optimumBy_cases ho hw with ⟨e, he, hnone⟩ | ⟨a, -, ha, hok⟩
  · rw [he]
    exact hnone
  · rw [hok]
    exact isLeast_improve ho hw ha

/-- Where every variable has an index, the entries are the variables and their negatives in
order. -/
theorem Attains.lists {o : Outcome} (h : w.Attains o) (hn : w.varCount ≤ IndexPool.capacity) :
    o.Lists w.varCount := by
  obtain ⟨v, hv⟩ := h.listed
  rw [Outcome.Lists, hv]
  refine ⟨by simp [Outcome.listing], fun i hi => ?_⟩
  rw [Outcome.getElem?_listing hi, Option.some_inj, Option.some_inj]
  exact Literal.of_eq_or hi.1 (Nat.le_trans hi.2 hn) (v i)

end WeightedClauses
end LeastGlut
