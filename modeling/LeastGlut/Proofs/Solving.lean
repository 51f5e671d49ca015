/-
# Solutions are least inconsistent

An assignment under which the hard clauses hold reads as a valuation that
designates the knowledge base, and flags at least the formulas that hold a
glutted atom; so it costs at least as much as the valuation
(`KnowledgeBase.glutted_sublist_flagged`). From a valuation that designates the
knowledge base comes an assignment that flags no other formulas
(`KnowledgeBase.exists_cost_eq`). So a least assignment reads as a least
valuation and flags just the formulas that hold one of its gluts, whichever
form the clauses have and whichever oracle found it.

Key definitions: `KnowledgeBase.assigning`, `Solution.Solves`.
-/
import LeastGlut.Proofs.Gates
import LeastGlut.Proofs.Interpretations
import LeastGlut.Proofs.Optimum
import LeastGlut.Solving
import Mathlib.Data.List.Nodup
import Mathlib.Order.Bounds.Basic

namespace LeastGlut

namespace KnowledgeBase

open IndicatorTable

variable {kb : KnowledgeBase} {form : ClauseForm} {hard : List Clause} {v : Ident → Bool}
  {x : String → Truth}

/-! ### The cost of an assignment -/

/-- The formulas whose flags are set. -/
def flagged (kb : KnowledgeBase) (v : Ident → Bool) : List Nat :=
  (List.range kb.size).filter fun id => (kb.flags[id]?).any v

theorem length_flagged (kb : KnowledgeBase) (v : Ident → Bool) :
    (kb.flagged v).length = kb.flags.countP v := by
  unfold flagged
  rw [← List.countP_eq_length_filter, flags, List.countP_map]
  apply List.countP_congr
  intro id hid
  rw [List.getElem?_map, List.getElem?_range (List.mem_range.mp hid)]
  rfl

/-- All flags together are charged as much as there are formulas. -/
theorem sum_charges (kb : KnowledgeBase) :
    ((kb.flags.map fun flag => ([Literal.of flag false], 1)).map (·.2)).sum = kb.size := by
  simp [flags, Function.comp_def]

theorem numbered_encodingOf (h : kb.identCount form < 2 ^ 31)
    (hp : ∀ c ∈ hard, c.Within (kb.identCount form)) :
    (kb.encodingOf form hard).clauses.Numbered := by
  have hle := kb.namedCount_le form
  have ht := wellFormed_table (namedCount_lt h)
  have hweight : ((kb.encodingOf form hard).clauses.soft.map (·.2)).sum = kb.size := kb.sum_charges
  have hhard : ∀ c ∈ (kb.encodingOf form hard).clauses.hard, c.Within (kb.identCount form) :=
    List.forall_mem_append.mpr
      ⟨fun c hc => (within_constraints ht below_table c hc).mono hle, hp⟩
  have hsoft : ∀ s ∈ (kb.encodingOf form hard).clauses.soft, s.1.Within (kb.identCount form) := by
    intro s hs l hl
    obtain ⟨flag, hflag, rfl⟩ := List.mem_map.mp hs
    have hup := (upto_of_mem_flags hflag).mono hle
    rw [List.mem_singleton.mp hl, Literal.natAbs_of (hup.inRange h)]
    exact hup
  refine ⟨hhard, hsoft, fun c hc l hl => Literal.word_of_natAbs_lt ?_, ?_⟩
  · rcases List.mem_append.mp hc with hc | hc
    · exact ((hhard c hc l hl).inRange h).2
    · obtain ⟨s, hs, rfl⟩ := List.mem_map.mp hc
      exact ((hsoft s hs l hl).inRange h).2
  · have hsize : kb.size < 2 ^ 64 := by
      unfold namedCount at hle
      omega
    rw [hweight]
    exact hsize

/-- The charge of a flag is due when the flag is set, up to the identifier one past the
range, which has a negative literal still. -/
theorem holds_charge {flag : Nat} (h : Ident.Upto (2 ^ 31) flag) (v : Ident → Bool) :
    Clause.holds v [Literal.of flag false] = !v flag := by
  rw [Clause.holds, List.any_cons, List.any_nil, Bool.or_false]
  rcases Nat.lt_or_eq_of_le h.2 with hlt | rfl
  · rw [Literal.holds_of ⟨h.1, hlt⟩]
    cases v flag <;> rfl
  · rw [Literal.of_two_pow]
    exact Literal.holds_neg_ofNat (2 ^ 31) v

/-- An assignment costs as much as there are flags set. -/
theorem cost_of_soft {w : WeightedClauses}
    (hw : w.soft = kb.flags.map fun flag => ([Literal.of flag false], 1))
    (h : kb.namedCount ≤ 2 ^ 31) (v : Ident → Bool) : w.cost v = kb.flags.countP v := by
  have hsize : kb.size ≤ kb.namedCount := Nat.le_add_left _ _
  have hweight : (w.soft.map (·.2)).sum < 2 ^ 64 := by
    rw [hw, sum_charges]
    exact Nat.lt_of_le_of_lt (Nat.le_trans hsize h) (by decide)
  have hunits : (w.soft.flatMap fun s => List.replicate s.2 s.1) =
      kb.flags.map fun flag => [Literal.of flag false] := by
    rw [hw, List.flatMap_map]
    exact List.flatMap_pure_eq_map _ _
  rw [WeightedClauses.cost_eq_sum hweight, WeightedClauses.sum_unmet_eq_countP, hunits,
    List.countP_map]
  apply List.countP_congr
  intro flag hflag
  rw [Function.comp_apply, holds_charge ((upto_of_mem_flags hflag).mono h), Bool.not_not]

theorem cost_encodingOf (h : kb.namedCount < 2 ^ 31) (v : Ident → Bool) :
    (kb.encodingOf form hard).clauses.cost v = (kb.flagged v).length := by
  rw [length_flagged]
  exact cost_of_soft rfl (Nat.le_of_lt h) v

theorem flagged_congr {w : Ident → Bool} (hvw : Agree kb.namedCount v w) :
    kb.flagged w = kb.flagged v := by
  apply List.filter_congr
  intro id _
  cases hid : kb.flags[id]? with
  | none => rfl
  | some flag => exact hvw flag (upto_of_mem_flags (List.mem_of_getElem? hid))

/-- **Every formula that holds a glutted atom is flagged.** -/
theorem glutted_sublist_flagged (hv : (kb.encodingOf form hard).Fits kb v) :
    (kb.glutted (kb.table.reading v)).Sublist (kb.flagged v) := by
  have hsub : kb.glutted (kb.table.reading v) = (kb.flagged v).filter fun id =>
      (kb.formulas[id]?).any (Formula.glutted (kb.table.reading v)) := by
    unfold glutted flagged
    rw [List.filter_filter]
    apply List.filter_congr
    intro id _
    cases hf : kb.formulas[id]? with
    | none => rfl
    | some f =>
      rcases hg : f.glutted (kb.table.reading v) with _ | _
      · simp [hg]
      · obtain ⟨flag, hflag, hset⟩ := hv.flagged id f hf hg
        have hl : kb.flags[id]? = some flag := hflag
        simp [hg, hl, hset]
  rw [hsub]
  exact List.filter_sublist

/-! ### The assignment of a valuation -/

/-- Sets the indicators that a valuation picks, and the flags of the formulas that hold
one of its gluts. -/
def assigning (kb : KnowledgeBase) (x : String → Truth) (i : Ident) : Bool :=
  match kb.table.lookup i with
  | some (a, y) => x a = y
  | none => (kb.glutted x).contains (i - 3 * kb.atoms.length - 1)

theorem assigning_indicator (h : kb.namedCount < 2 ^ 31) {a : String} {i : Indicators}
    (hi : (a, i) ∈ kb.table.entries) (y : Truth) : kb.assigning x (i.get y) ↔ x a = y := by
  unfold assigning
  rw [(lookup_eq_some_iff (wellFormed_table h)).mpr ⟨i, hi, rfl⟩]
  exact decide_eq_true_iff

theorem assigning_flag (h : kb.namedCount < 2 ^ 31) (id : Nat) :
    kb.assigning x (3 * kb.atoms.length + id + 1) = (kb.glutted x).contains id := by
  have hnone : kb.table.lookup (3 * kb.atoms.length + id + 1) = none := by
    refine Option.eq_none_iff_forall_ne_some.mpr fun ⟨a, y⟩ hl => ?_
    obtain ⟨i, hi, hy⟩ := (lookup_eq_some_iff (wellFormed_table h)).mp hl
    obtain ⟨k, hk, rfl⟩ := mem_behind.mp hi
    have hlt := (List.getElem?_eq_some_iff.mp hk).1
    have hp : y.place < 3 := by cases y <;> decide
    rw [Indicators.get_behind] at hy
    change 0 + 3 * k + y.place + 1 = 3 * kb.atoms.length + id + 1 at hy
    omega
  have hid : 3 * kb.atoms.length + id + 1 - 3 * kb.atoms.length - 1 = id := by omega
  unfold assigning
  rw [hnone]
  exact congrArg (kb.glutted x).contains hid

theorem reading_assigning (h : kb.namedCount < 2 ^ 31) {a : String} (ha : a ∈ kb.atoms) :
    kb.table.reading (kb.assigning x) a = x a := by
  have ht := wellFormed_table h
  have hl := lists_table.mpr ha
  rw [reading_of_lists hl]
  exact (Indicators.single_of_iff (assigning_indicator h (ofAtom_mem ht hl))).2

theorem flagged_assigning (h : kb.namedCount < 2 ^ 31) :
    kb.flagged (kb.assigning x) = kb.glutted x := by
  have hmem : ∀ id, id ∈ kb.glutted x ↔
      id < kb.size ∧ (kb.formulas[id]?).any (Formula.glutted x) = true := fun id => by
    unfold glutted
    rw [List.mem_filter, List.mem_range]
  apply List.filter_congr
  intro id hid
  rw [getElem?_flags (List.mem_range.mp hid), Option.any_some]
  show kb.assigning x (3 * kb.atoms.length + id + 1) = _
  rw [assigning_flag h, Bool.eq_iff_iff, List.contains_iff_mem, hmem]
  exact and_iff_right (List.mem_range.mp hid)

/-- A valuation that designates the knowledge base gives an assignment that fits. -/
theorem fits_assigning (h : kb.namedCount < 2 ^ 31) (hx : kb.Designates x) :
    (kb.encodingOf form hard).Fits kb (kb.assigning x) := by
  have ht := wellFormed_table h
  have hr : ∀ a ∈ kb.atoms, kb.table.reading (kb.assigning x) a = x a := fun a =>
    reading_assigning h
  refine ⟨fun a ha => ?_, ?_, fun id f hf hg => ?_⟩
  · have hl := lists_table.mpr ha
    exact ⟨_, get?_of_lists hl,
      (Indicators.single_of_iff (assigning_indicator h (ofAtom_mem ht hl))).1⟩
  · exact (designates_congr hr).mpr hx
  · have hid : id < kb.size := (List.getElem?_eq_some_iff.mp hf).1
    refine ⟨_, getElem?_flags hid, ?_⟩
    show kb.assigning x (3 * kb.atoms.length + id + 1) = true
    rw [assigning_flag h, List.contains_iff_mem, ← glutted_congr hr]
    refine List.mem_filter.mpr ⟨List.mem_range.mpr hid, ?_⟩
    rw [hf]
    exact hg

/-- **A valuation that designates the knowledge base is had at its cost.** -/
theorem exists_cost_eq (h : kb.namedCount < 2 ^ 31)
    (hp : kb.table.Projection kb.namedCount (kb.identCount form) hard
      fun v => ∀ p ∈ kb.formulas.zip kb.flags, kb.table.Told p.1 p.2 v)
    (hx : kb.Designates x) : ∃ v, (∀ c ∈ (kb.encodingOf form hard).clauses.hard, c.holds v) ∧
      (kb.encodingOf form hard).clauses.cost v = (kb.glutted x).length := by
  obtain ⟨w, hagree, hc⟩ := (exists_holds_iff_fits h hp).mpr (fits_assigning h hx)
  refine ⟨w, hc, ?_⟩
  calc (kb.encodingOf form hard).clauses.cost w
      = (kb.flagged w).length := cost_encodingOf h w
    _ = (kb.flagged (kb.assigning x)).length := by rw [flagged_congr hagree]
    _ = (kb.glutted x).length := by rw [flagged_assigning h]

end KnowledgeBase

/-! ### Reading an outcome -/

namespace Outcome

theorem positive_eq {n : Nat} (hn : n < 2 ^ 31) {o : Outcome} {v : Ident → Bool}
    (h : o.assignment = listing n v) : o.positive = ((List.range n).map (· + 1)).filter v := by
  have hr : ∀ i ∈ List.range n, Ident.InRange (i + 1) := fun i hi =>
    ⟨Nat.succ_pos i, Nat.lt_of_le_of_lt (List.mem_range.mp hi) hn⟩
  unfold positive
  rw [h, listing, List.filter_map, List.map_map, List.filter_map]
  have hfilter : (List.range n).filter
      ((fun l : Literal => decide (0 < l)) ∘ fun i => Literal.of (i + 1) (v (i + 1))) =
      (List.range n).filter (v ∘ (· + 1)) :=
    List.filter_congr fun i hi => by
      simp only [Function.comp_apply, Literal.of_pos_iff (hr i hi), Bool.decide_eq_true]
  rw [hfilter]
  exact List.map_congr_left fun i hi => Literal.natAbs_of (hr i (List.mem_filter.mp hi).1) _

end Outcome

namespace KnowledgeBase

open IndicatorTable

variable {kb : KnowledgeBase} {form : ClauseForm} {hard : List Clause} {o : Outcome}

/-- The values found in an outcome are those of the indicators that are set. -/
theorem mem_found (h : kb.identCount form < 2 ^ 31)
    (ho : (kb.encodingOf form hard).clauses.Attains o) {a : String} {y : Truth} :
    (a, y) ∈ o.positive.filterMap kb.table.lookup ↔
      ∃ i, (a, i) ∈ kb.table.entries ∧ o.value (i.get y) := by
  have hle := kb.namedCount_le form
  have ht := wellFormed_table (namedCount_lt h)
  rw [List.mem_filterMap, Outcome.positive_eq h (ho.assignment_eq h)]
  constructor
  · intro hp
    obtain ⟨j, hj, hl⟩ := hp
    obtain ⟨i, hi, rfl⟩ := (lookup_eq_some_iff ht).mp hl
    exact ⟨i, hi, (List.mem_filter.mp hj).2⟩
  · intro hp
    obtain ⟨i, hi, hv⟩ := hp
    have hup := (below_table _ hi y).mono hle
    refine ⟨i.get y, List.mem_filter.mpr ⟨List.mem_map.mpr ⟨i.get y - 1, ?_, ?_⟩, hv⟩,
      (lookup_eq_some_iff ht).mpr ⟨i, hi, rfl⟩⟩
    · exact List.mem_range.mpr (Nat.sub_one_lt_of_le hup.1 hup.2)
    · exact Nat.sub_add_cancel hup.1

theorem nodup_found (h : kb.identCount form < 2 ^ 31)
    (ho : (kb.encodingOf form hard).clauses.Attains o) :
    (o.positive.filterMap kb.table.lookup).Nodup := by
  have ht := wellFormed_table (namedCount_lt h)
  rw [Outcome.positive_eq h (ho.assignment_eq h)]
  have hrange : ((List.range (kb.identCount form)).map (· + 1)).Nodup :=
    List.nodup_range.map fun i j hij => Nat.succ_inj.mp hij
  refine List.Nodup.filterMap (fun i j e hi hj => ?_) (hrange.filter _)
  · obtain ⟨d, hd, rfl⟩ := (lookup_eq_some_iff ht).mp hi
    obtain ⟨d', hd', rfl⟩ := (lookup_eq_some_iff ht).mp hj
    obtain rfl : d = d' := (Prod.ext_iff.mp (ht.distinct _ hd _ hd' (Or.inl rfl))).2
    rfl

/-- **Reading an outcome that is attained** gives each atom the one value whose indicator is set. -/
theorem interpret_eq (h : kb.identCount form < 2 ^ 31)
    (ho : (kb.encodingOf form hard).clauses.Attains o)
    (hv : (kb.encodingOf form hard).Fits kb o.value) :
    (kb.encodingOf form hard).interpret o = .ok ⟨form.strategy, o.cost, kb.flagged o.value,
      (kb.atoms.map fun a => ⟨a, kb.table.reading o.value a⟩).mergeSort
        fun d e => decide (d.atom ≤ e.atom)⟩ := by
  have ht := wellFormed_table (namedCount_lt h)
  have hatoms : (kb.encodingOf form hard).atoms.entries.map (·.1) = kb.atoms := map_fst_entries kb
  have hflags : (kb.encodingOf form hard).flags.length = kb.size := by
    simp [encodingOf, flags]
  have hfound : ∀ a ∈ kb.atoms, ∀ y, (a, y) ∈ o.positive.filterMap kb.table.lookup ↔
      y = kb.table.reading o.value a := by
    intro a ha y
    have hl := lists_table.mpr ha
    obtain ⟨i, hi, hs⟩ := hv.single a ha
    obtain rfl : i = kb.table.ofAtom a :=
      Option.some_inj.mp (hi.symm.trans (get?_of_lists hl))
    rw [mem_found h ho, reading_of_lists hl]
    constructor
    · intro hp
      obtain ⟨j, hj, hset⟩ := hp
      obtain rfl : j = kb.table.ofAtom a := (Prod.ext_iff.mp
        (ht.distinct _ hj _ (ofAtom_mem ht hl) (Or.inl rfl))).2
      exact ((Indicators.single_iff.mp hs y).mp hset).symm
    · rintro rfl
      exact ⟨_, ofAtom_mem ht hl, (Indicators.single_iff.mp hs _).mpr rfl⟩
  have hvaluation : valuation ((kb.encodingOf form hard).atoms.entries.map (·.1))
      (o.positive.filterMap (kb.encodingOf form hard).atoms.lookup) = .ok
        ((kb.atoms.map fun a => ⟨a, kb.table.reading o.value a⟩).mergeSort
          fun d e => decide (d.atom ≤ e.atom)) := by
    rw [hatoms]
    exact valuation_eq (nodup_found h ho) hfound
  simp only [Encoding.interpret, hvaluation, hflags, bind, Except.bind, pure, Except.pure,
    ← ho.cost]
  rw [if_neg (not_not.mpr rfl)]
  rfl

end KnowledgeBase

/-! ### Solutions -/

/-- The solution gives each atom its value in a valuation that designates the knowledge
base, names the formulas that hold a glutted atom, and costs as much as the least such
valuation. -/
structure Solution.Solves (s : Solution) (kb : KnowledgeBase) (x : String → Truth) : Prop where
  valuation : s.valuation.Perm (kb.atoms.map fun a => ⟨a, x a⟩)
  designates : kb.Designates x
  inconsistent : s.inconsistent = kb.glutted x
  cost : s.cost = s.inconsistent.length
  least : IsLeast {n | ∃ y, kb.Designates y ∧ (kb.glutted y).length = n} s.cost

namespace KnowledgeBase

open IndicatorTable

variable {kb : KnowledgeBase} {form : ClauseForm} {oracle : Oracle}

/-- Where the hard clauses have no model, solving fails in the engine. -/
theorem exists_solveClausesBy_eq_error (ho : oracle.Lawful) {e : Encoding}
    (he : kb.encode form = .ok e) (hw : e.clauses.Proper)
    (hnone : ∀ v, ¬∀ c ∈ e.clauses.hard, c.holds v) :
    ∃ failure, kb.solveClausesBy oracle form = .error (.solver failure) := by
  obtain ⟨failure, hf⟩ := WeightedClauses.exists_optimumBy_eq_error ho hw hnone
  refine ⟨failure, ?_⟩
  unfold solveClausesBy
  rw [he]
  show ((e.clauses.optimumBy oracle).mapError SolveError.solver).bind _ = _
  rw [hf]
  rfl

/-- **A form of clauses** is solved just when some valuation designates the knowledge
base, and then by a least one. -/
theorem solveClausesBy_spec (ho : oracle.Lawful) (kb : KnowledgeBase) (form : ClauseForm)
    (h : kb.identCount form < 2 ^ 31) : match kb.solveClausesBy oracle form with
      | .ok s => ∃ x, s.Solves kb x
      | .error _ => ¬∃ x, kb.Designates x := by
  have hn := namedCount_lt h
  obtain ⟨hard, he, hp⟩ := exists_encode kb form h
  have hw := numbered_encodingOf h hp.within
  have hspec := WeightedClauses.optimumBy_spec ho hw
  have hsolve : kb.solveClausesBy oracle form =
      (((kb.encodingOf form hard).clauses.optimumBy oracle).mapError SolveError.solver).bind
        (kb.encodingOf form hard).interpret := by
    unfold solveClausesBy
    rw [he]
    rfl
  rw [hsolve]
  cases hopt : (kb.encodingOf form hard).clauses.optimumBy oracle with
  | error e =>
    rw [hopt] at hspec
    intro hs
    obtain ⟨x, hx⟩ := hs
    obtain ⟨v, hv, -⟩ := exists_cost_eq hn hp hx
    exact hspec v hv
  | ok o =>
    rw [hopt] at hspec
    have hfits : (kb.encodingOf form hard).Fits kb o.value :=
      (exists_holds_iff_fits hn hp).mp ⟨o.value, fun _ _ => rfl, hspec.hard⟩
    have hdes : kb.Designates (kb.table.reading o.value) := hfits.designated
    -- the valuation of the outcome costs no more than the outcome, which is least
    have hleast : ∀ y, kb.Designates y → o.cost ≤ (kb.glutted y).length := fun y hy => by
      obtain ⟨v, hv, hcost⟩ := exists_cost_eq hn hp hy
      exact hcost ▸ hspec.least v hv
    have hlen : o.cost = (kb.flagged o.value).length := by
      rw [hspec.cost, cost_encodingOf hn]
    have hflagged : kb.glutted (kb.table.reading o.value) = kb.flagged o.value :=
      (glutted_sublist_flagged hfits).eq_of_length_le (hlen ▸ hleast _ hdes)
    have hi := interpret_eq h hspec.toAttains hfits
    show (match (kb.encodingOf form hard).interpret o with
      | .ok s => ∃ x, s.Solves kb x
      | .error _ => ¬∃ x, kb.Designates x)
    rw [hi]
    refine ⟨kb.table.reading o.value, List.mergeSort_perm _ _, hdes, hflagged.symm, hlen,
      ⟨_, hdes, ?_⟩, ?_⟩
    · rw [hflagged]
      exact hlen.symm
    · rintro _ ⟨y, hy, rfl⟩
      exact hleast y hy

end KnowledgeBase
end LeastGlut
