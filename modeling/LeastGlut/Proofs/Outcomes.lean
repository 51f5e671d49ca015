/-
# Which outcomes are read

An engine's outcome may be anything: short, out of order, with a literal twice or with both
of a variable. Values are found by going through the literals, and flags and costs by the
place of an identifier. The values found for an atom are as many as its indicators occur
among the positive literals (`Outcome.length_valuesOf`), so a valuation is read just when
each atom has one such occurrence. Then the cost decides: it must be the number of flags
that are set.

An outcome that lists a literal for each variable in order, and under which the hard clauses
hold, is read at its cost as a valuation that designates the knowledge base.

Costs are sums over literals, so past `2 ^ 31` identifiers the charge of a flag can be due
when another variable is false (`KnowledgeBase.cost_ne_zero_of_mem_flags`).

Key definitions: `Encoding.occurrences`, `Solution.Accords`.
-/
import LeastGlut.Proofs.Auxiliaries
import LeastGlut.Proofs.Solving
import Mathlib.Algebra.Order.BigOperators.Group.List
import Mathlib.Algebra.Order.Group.Nat

namespace LeastGlut

/-! ### Valuations of what is found -/

section

variable {atoms : List String} {found : List (String × Truth)} {a : String} {e : SolveError}

theorem valueOf_of_length (h : (valuesOf found a).length = 1) :
    ∃ v, valueOf found a = .ok ⟨a, v⟩ ∧ (a, v) ∈ found := by
  obtain ⟨v, hv⟩ := List.length_eq_one_iff.mp h
  refine ⟨v, by rw [valueOf, hv], ?_⟩
  have hmem : v ∈ valuesOf found a := by
    rw [hv]
    exact List.mem_singleton.mpr rfl
  obtain ⟨⟨b, w⟩, hw, rfl⟩ := List.mem_map.mp hmem
  obtain ⟨hw, hb⟩ := List.mem_filter.mp hw
  exact (of_decide_eq_true hb : b = a) ▸ hw

theorem valueOf_of_length_ne (h : (valuesOf found a).length ≠ 1) :
    valueOf found a = .error (.values a (valuesOf found a)) := by
  unfold valueOf
  split
  next value hone =>
    rw [hone] at h
    exact absurd rfl h
  next => rfl

/-- Each atom once and in order, if each is found with one value. -/
theorem exists_valuation (hn : atoms.Nodup) (h : ∀ a ∈ atoms, (valuesOf found a).length = 1) :
    ∃ es, valuation atoms found = .ok es ∧ (es.map (·.atom)).Perm atoms ∧
      es.Pairwise (·.atom < ·.atom) ∧ ∀ d ∈ es, (d.atom, d.value) ∈ found := by
  choose! x hvalue hmem using fun a ha => valueOf_of_length (h a ha)
  have hmap : atoms.mapM (valueOf found) = .ok (atoms.map fun a => ⟨a, x a⟩) := mapM_eq_ok hvalue
  have hatoms : (atoms.map fun a => Solution.Entry.mk a (x a)).map (·.atom) = atoms := by
    rw [List.map_map]
    exact List.map_id _
  refine ⟨_, valuation_eq_ok_iff.mpr ⟨_, hmap, rfl⟩, ?_, pairwise_mergeSort_atom ?_, ?_⟩
  · exact ((List.mergeSort_perm _ _).map _).trans (List.Perm.of_eq hatoms)
  · rw [hatoms]
    exact hn
  · intro d hd
    obtain ⟨a, ha, rfl⟩ := List.mem_map.mp (List.mem_mergeSort.mp hd)
    exact hmem a ha

/-- An atom that is found with no value or several is an error. -/
theorem exists_valuation_error (h : ∃ a ∈ atoms, (valuesOf found a).length ≠ 1) :
    ∃ a values, valuation atoms found = .error (.values a values) := by
  obtain ⟨b, hb, hne⟩ := h
  obtain ⟨a, -, e, ha, hmap⟩ :=
    exists_mapM_eq_error (f := valueOf found) ⟨b, hb, _, valueOf_of_length_ne hne⟩
  refine ⟨a, valuesOf found a, ?_⟩
  rw [valuation, hmap, valueOf_eq_error ha]
  rfl

end

/-! ### Occurrences of indicators -/

/-- The indicator of one of the values. -/
def Indicators.isOne (i : Indicators) (j : Ident) : Bool := Truth.all.any fun x => i.get x = j

theorem Indicators.isOne_iff {i : Indicators} {j : Ident} : i.isOne j ↔ ∃ x, i.get x = j := by
  have hall : ∀ x, x ∈ Truth.all := fun x => by cases x <;> decide
  simp [isOne, hall]

/-- How many literals of the assignment are positive and of an indicator of the atom. -/
def Encoding.occurrences (e : Encoding) (o : Outcome) (a : String) : Nat :=
  o.assignment.countP fun l : Literal =>
    decide (0 < l) && (e.atoms.get? a).any fun i => i.isOne l.natAbs

namespace Outcome

variable {table : IndicatorTable} {a : String} {i : Indicators}

theorem countP_positive (o : Outcome) (p : Ident → Bool) :
    o.positive.countP p = o.assignment.countP fun l : Literal => decide (0 < l) && p l.natAbs := by
  rw [positive, List.countP_map, List.countP_filter]
  apply List.countP_congr
  intro l _
  rw [Bool.and_comm]
  rfl

/-- **The values found for an atom** are as many as its indicators occur. -/
theorem length_valuesOf (ht : table.Separate) (hi : table.get? a = some i) (o : Outcome) :
    (valuesOf (o.positive.filterMap table.lookup) a).length = o.positive.countP i.isOne := by
  rw [valuesOf, List.length_map, ← List.countP_eq_length_filter, List.countP_filterMap]
  apply List.countP_congr
  intro j _
  rw [Indicators.isOne_iff]
  constructor
  · intro hj
    cases hl : table.lookup j with
    | none =>
      rw [hl] at hj
      cases hj
    | some d =>
      obtain ⟨b, x⟩ := d
      rw [hl] at hj
      obtain rfl : b = a := of_decide_eq_true hj
      obtain ⟨k, hk, rfl⟩ := ht.lookup_eq_some_iff.mp hl
      obtain rfl := Option.some_inj.mp ((ht.get?_eq_some_iff.mpr hk).symm.trans hi)
      exact ⟨x, rfl⟩
  · rintro ⟨x, rfl⟩
    have hl : table.lookup (i.get x) = some (a, x) :=
      ht.lookup_eq_some_iff.mpr ⟨i, ht.get?_eq_some_iff.mp hi, rfl⟩
    rw [hl]
    exact decide_eq_true rfl

/-- An outcome that lists a literal for each variable lists the values that are read from it. -/
theorem Lists.assignment_eq {o : Outcome} {n : Nat} (h : o.Lists n) (hn : n < 2 ^ 31) :
    o.assignment = listing n o.value := by
  apply List.ext_getElem?
  intro k
  by_cases hk : k < n
  · have hi : Ident.Upto n (k + 1) := ⟨Nat.succ_pos k, hk⟩
    have hlisted := @getElem?_listing n o.value (k + 1) hi
    rw [Nat.add_sub_cancel, Literal.of_of_inRange (hi.inRange hn)] at hlisted
    rw [hlisted]
    rcases h.2 (k + 1) hi with hl | hl <;> rw [Nat.add_sub_cancel] at hl
    · have hv : o.value (k + 1) = true := by
        simp only [value, valueIn, hl]
        exact decide_eq_true (Int.natCast_pos.mpr (Nat.succ_pos k))
      rw [hl, hv]
      rfl
    · have hv : o.value (k + 1) = false := by
        simp only [value, valueIn, hl]
        exact decide_eq_false (Int.not_lt.mpr (Int.neg_nonpos_of_nonneg (Int.natCast_nonneg _)))
      rw [hl, hv]
      rfl
  · have hnone : ∀ l : List Literal, l.length = n → l[k]? = none := fun l hl =>
      List.getElem?_eq_none (hl ▸ Nat.le_of_not_lt hk)
    rw [hnone _ h.1, hnone _ (by simp [listing])]

end Outcome

/-! ### Reading any outcome -/

namespace Encoding

variable {e : Encoding} {o : Outcome} {entries : List Solution.Entry} {failure : SolveError}

theorem interpret_of_error (h : valuation (e.atoms.entries.map (·.1))
    (o.positive.filterMap e.atoms.lookup) = .error failure) : e.interpret o = .error failure := by
  rw [interpret, h]
  rfl

theorem interpret_of_ok (h : valuation (e.atoms.entries.map (·.1))
    (o.positive.filterMap e.atoms.lookup) = .ok entries) :
    e.interpret o = if e.clauses.cost o.value ≠ o.cost then
        .error (.solver (.modelCost o.cost (e.clauses.cost o.value)))
      else .ok ⟨e.form.strategy, e.clauses.cost o.value,
        (List.range e.flags.length).filter fun id => (e.flags[id]?).any o.value, entries⟩ := by
  rw [interpret, h]
  rfl

end Encoding

/-- The solution holds what the outcome says: the cost, the formulas whose flags are set in
ascending order, and for each atom, in strict order, the value whose indicator occurs. -/
structure Solution.Accords (s : Solution) (kb : KnowledgeBase) (e : Encoding) (o : Outcome) :
    Prop where
  cost : s.cost = o.cost
  count : s.inconsistent.length = o.cost
  ascending : s.inconsistent.Pairwise (· < ·)
  mem_inconsistent : ∀ id, id ∈ s.inconsistent ↔ ∃ flag, e.flags[id]? = some flag ∧ o.value flag
  sorted : s.valuation.Pairwise (·.atom < ·.atom)
  covers : (s.valuation.map (·.atom)).Perm kb.atoms
  occurs : ∀ d ∈ s.valuation, ∃ i, e.atoms.get? d.atom = some i ∧ i.get d.value ∈ o.positive

namespace KnowledgeBase

variable {kb : KnowledgeBase} {form : ClauseForm} {e : Encoding} {o : Outcome} {a : String}

theorem length_valuesOf_eq (he : kb.encode form = .ok e) (ha : a ∈ kb.atoms) :
    (valuesOf (o.positive.filterMap e.atoms.lookup) a).length = e.occurrences o a := by
  obtain ⟨hard, n, rfl⟩ := exists_eq_of_encode he
  obtain ⟨i, hi⟩ := lists_table.mpr ha
  have hget := kb.separate_table.get?_eq_some_iff.mpr hi
  show (valuesOf (o.positive.filterMap kb.table.lookup) a).length =
    o.assignment.countP fun l : Literal =>
      decide (0 < l) && (kb.table.get? a).any fun i => i.isOne l.natAbs
  rw [Outcome.length_valuesOf kb.separate_table hget, Outcome.countP_positive, hget]
  rfl

theorem map_fst_of_encode (he : kb.encode form = .ok e) :
    e.atoms.entries.map (·.1) = kb.atoms := by
  obtain ⟨hard, n, rfl⟩ := exists_eq_of_encode he
  exact kb.map_fst_entries

/-- Without one occurrence for each atom, an atom is refused that has none or several. -/
theorem exists_interpret_eq_values (he : kb.encode form = .ok e)
    (h : ∃ a ∈ kb.atoms, e.occurrences o a ≠ 1) :
    ∃ a found, e.interpret o = .error (.values a found) := by
  obtain ⟨a, ha, hne⟩ := h
  rw [← length_valuesOf_eq he ha] at hne
  obtain ⟨b, found, hb⟩ := exists_valuation_error ⟨a, ha, hne⟩
  rw [← map_fst_of_encode he] at hb
  exact ⟨b, found, Encoding.interpret_of_error hb⟩

/-- With one occurrence for each atom, a valuation is read. -/
theorem exists_entries (he : kb.encode form = .ok e) (h : ∀ a ∈ kb.atoms, e.occurrences o a = 1) :
    ∃ entries, valuation (e.atoms.entries.map (·.1)) (o.positive.filterMap e.atoms.lookup) =
        .ok entries ∧ entries.Pairwise (·.atom < ·.atom) ∧ (entries.map (·.atom)).Perm kb.atoms ∧
      ∀ d ∈ entries, ∃ i, e.atoms.get? d.atom = some i ∧ i.get d.value ∈ o.positive := by
  obtain ⟨entries, hentries, hperm, hsorted, hmem⟩ := exists_valuation kb.nodup_atoms fun a ha =>
    (length_valuesOf_eq he ha).trans (h a ha)
  rw [map_fst_of_encode he]
  refine ⟨entries, hentries, hsorted, hperm, fun d hd => ?_⟩
  obtain ⟨j, hj, hl⟩ := List.mem_filterMap.mp (hmem d hd)
  obtain ⟨hard, n, rfl⟩ := exists_eq_of_encode he
  obtain ⟨i, hi, rfl⟩ := kb.separate_table.lookup_eq_some_iff.mp hl
  exact ⟨i, kb.separate_table.get?_eq_some_iff.mpr hi, hj⟩

theorem interpret_ne_values (he : kb.encode form = .ok e)
    (h : ∀ a ∈ kb.atoms, e.occurrences o a = 1) (a : String) (found : List Truth) :
    e.interpret o ≠ .error (.values a found) := by
  obtain ⟨entries, hentries, -⟩ := exists_entries he h
  rw [Encoding.interpret_of_ok hentries]
  split
  · intro hc
    cases hc
  · intro hc
    cases hc

/-- With one occurrence for each atom, another cost than the number of flags set is refused. -/
theorem interpret_of_cost_ne (hn : kb.namedCount ≤ 2 ^ 31) (he : kb.encode form = .ok e)
    (h : ∀ a ∈ kb.atoms, e.occurrences o a = 1) (hcost : o.cost ≠ e.flags.countP o.value) :
    e.interpret o = .error (.solver (.modelCost o.cost (e.flags.countP o.value))) := by
  obtain ⟨entries, hentries, -⟩ := exists_entries he h
  obtain ⟨hard, n, rfl⟩ := exists_eq_of_encode he
  rw [Encoding.interpret_of_ok hentries, cost_of_soft rfl hn]
  exact if_pos hcost.symm

/-- With one occurrence for each atom, the number of flags set is a cost that is read. -/
theorem exists_interpret_eq_ok (hn : kb.namedCount ≤ 2 ^ 31) (he : kb.encode form = .ok e)
    (h : ∀ a ∈ kb.atoms, e.occurrences o a = 1) (hcost : o.cost = e.flags.countP o.value) :
    ∃ s, e.interpret o = .ok s ∧ s.Accords kb e o := by
  obtain ⟨entries, hentries, hsorted, hperm, hoccurs⟩ := exists_entries he h
  obtain ⟨hard, n, rfl⟩ := exists_eq_of_encode he
  have hread := Encoding.interpret_of_ok hentries
  rw [cost_of_soft rfl hn, if_neg (not_not.mpr hcost.symm), ← hcost] at hread
  have hsize : kb.flags.length = kb.size := by simp [flags]
  have hflagged : (List.range kb.flags.length).filter (fun id => (kb.flags[id]?).any o.value) =
      kb.flagged o.value := by rw [hsize, flagged]
  refine ⟨_, hread, rfl, ?_, ?_, fun id => ?_, hsorted, hperm, hoccurs⟩
  · show ((List.range kb.flags.length).filter fun id => (kb.flags[id]?).any o.value).length = o.cost
    rw [hflagged, length_flagged, hcost]
  · exact List.pairwise_lt_range.filter _
  · show id ∈ (List.range kb.flags.length).filter (fun id => (kb.flags[id]?).any o.value) ↔
      ∃ flag, kb.flags[id]? = some flag ∧ o.value flag
    rw [List.mem_filter, List.mem_range, Option.any_eq_true]
    refine and_iff_right_of_imp fun hset => ?_
    obtain ⟨flag, hflag, -⟩ := hset
    exact (List.getElem?_eq_some_iff.mp hflag).1

/-- **An outcome that lists a model of the hard clauses at its cost** is read as a valuation
that designates the knowledge base, and flags every formula that holds a glutted atom. -/
theorem exists_interpret_designates (h : kb.identCount form < 2 ^ 31) (he : kb.encode form = .ok e)
    (hlists : o.Lists e.clauses.varCount) (hhard : ∀ c ∈ e.clauses.hard, c.holds o.value)
    (hcost : o.cost = e.flags.countP o.value) :
    ∃ s x, e.interpret o = .ok s ∧ s.valuation.Perm (kb.atoms.map fun a => ⟨a, x a⟩) ∧
      kb.Designates x ∧ ∀ id ∈ kb.glutted x, id ∈ s.inconsistent := by
  have hn := namedCount_lt h
  obtain ⟨hard, he', hp⟩ := exists_encode kb form h
  obtain rfl := Except.ok.inj (he'.symm.trans he)
  have hattains : (kb.encodingOf form hard).clauses.Attains o :=
    ⟨⟨o.value, hlists.assignment_eq h⟩, hhard, by rw [hcost, cost_of_soft rfl (Nat.le_of_lt hn)]; rfl⟩
  have hfits : (kb.encodingOf form hard).Fits kb o.value :=
    (exists_holds_iff_fits hn hp).mp ⟨o.value, fun _ _ => rfl, hhard⟩
  exact ⟨_, kb.table.reading o.value, interpret_eq h hattains hfits, List.mergeSort_perm _ _,
    hfits.designated, fun id hid => (glutted_sublist_flagged hfits).subset hid⟩

/-- **Only coherent outcomes are read.** Every knowledge base has an encoding in either form,
and whatever an engine answers for it is refused for an atom just when some atom has no single
occurrence among the positive literals. Otherwise, and up to `2 ^ 31` identifiers of atoms and
formulas, it is refused for its cost just when this is not the number of flags that are set,
and else read as a solution that accords with it. As long as no literal wraps round, an outcome
that lists a model of the hard clauses at its cost is read, as a valuation that designates the
knowledge base and with every formula that holds a glutted atom. -/
theorem interpret_outcome (kb : KnowledgeBase) (form : ClauseForm) :
    ∃ e, kb.encode form = .ok e ∧ ∀ o : Outcome,
      ((∃ a found, e.interpret o = .error (.values a found)) ↔
        ∃ a ∈ kb.atoms, e.occurrences o a ≠ 1) ∧
      (kb.namedCount ≤ 2 ^ 31 → (∀ a ∈ kb.atoms, e.occurrences o a = 1) →
        ((∃ failure, e.interpret o = .error (.solver failure)) ↔
          o.cost ≠ e.flags.countP o.value) ∧
        (o.cost = e.flags.countP o.value → ∃ s, e.interpret o = .ok s ∧ s.Accords kb e o)) ∧
      (kb.identCount form < 2 ^ 31 → o.Lists e.clauses.varCount →
        (∀ c ∈ e.clauses.hard, c.holds o.value) → o.cost = e.flags.countP o.value →
        ∃ s x, e.interpret o = .ok s ∧ s.valuation.Perm (kb.atoms.map fun a => ⟨a, x a⟩) ∧
          kb.Designates x ∧ ∀ id ∈ kb.glutted x, id ∈ s.inconsistent) := by
  obtain ⟨e, he⟩ := kb.encode_succeeds form
  refine ⟨e, he, fun o => ⟨⟨fun hvalues => ?_, exists_interpret_eq_values he⟩,
    fun hn hone => ⟨⟨fun hfailure hcost => ?_, fun hcost => ?_⟩, exists_interpret_eq_ok hn he hone⟩,
    fun h => exists_interpret_designates h he⟩⟩
  · obtain ⟨a, found, hvalues⟩ := hvalues
    refine Classical.byContradiction fun hnone => ?_
    have hone : ∀ a ∈ kb.atoms, e.occurrences o a = 1 := fun a ha =>
      Classical.byContradiction fun hne => hnone ⟨a, ha, hne⟩
    exact interpret_ne_values he hone a found hvalues
  · obtain ⟨failure, hfailure⟩ := hfailure
    obtain ⟨s, hs, -⟩ := exists_interpret_eq_ok hn he hone hcost
    rw [hs] at hfailure
    cases hfailure
  · exact ⟨_, interpret_of_cost_ne hn he hone hcost⟩

/-- A repeated literal, a cost that is not right, and an outcome that is read. -/
theorem interpret_outcome_conflict :
    let kb : KnowledgeBase := ⟨[.atom "A", .not (.atom "A")]⟩
    kb.identCount .naive < 2 ^ 31 ∧ kb.namedCount ≤ 2 ^ 31 ∧ ∃ e, kb.encode .naive = .ok e ∧
      (∃ a found, e.interpret ⟨0, [3, -1, 3]⟩ = .error (.values a found)) ∧
      (∃ failure, e.interpret ⟨1, [-1, -2, 3, 4, 5]⟩ = .error (.solver failure)) ∧
      (∃ s, e.interpret ⟨1, [9, 2, -2, 5]⟩ = .ok s ∧ s.Accords kb e ⟨1, [9, 2, -2, 5]⟩) ∧
      ∃ s x, e.interpret ⟨2, [-1, -2, 3, 4, 5]⟩ = .ok s ∧ s.valuation.Perm [⟨"A", x "A"⟩] ∧
        kb.Designates x ∧ ∀ id ∈ kb.glutted x, id ∈ s.inconsistent := by
  intro kb
  have h : kb.identCount .naive < 2 ^ 31 := by decide
  have hn : kb.namedCount ≤ 2 ^ 31 := Nat.le_trans (kb.namedCount_le .naive) (Nat.le_of_lt h)
  let e : Encoding := ⟨.naive, ⟨[[1, 2, 3], [-1, -2], [-1, -3], [-2, -3], [4, -3], [1, 3],
    [5, -3], [2, 3]], [([-4], 1), ([-5], 1)], 5⟩, ⟨[("A", ⟨1, 2, 3⟩)]⟩, [4, 5]⟩
  have he : kb.encode .naive = .ok e := by decide +kernel
  have hatoms : kb.atoms = ["A"] := by decide
  have hone : ∀ o, e.occurrences o "A" = 1 → ∀ a ∈ kb.atoms, e.occurrences o a = 1 :=
    fun o ho a ha => by
      rw [hatoms, List.mem_singleton] at ha
      rw [ha]
      exact ho
  obtain ⟨e', he', hread⟩ := interpret_outcome kb .naive
  obtain rfl := Except.ok.inj (he.symm.trans he')
  have hlists : Outcome.Lists ⟨2, [-1, -2, 3, 4, 5]⟩ 5 := by
    refine ⟨rfl, fun i hi => ?_⟩
    obtain rfl | rfl | rfl | rfl | rfl : i = 1 ∨ i = 2 ∨ i = 3 ∨ i = 4 ∨ i = 5 := by
      obtain ⟨h0, h5⟩ := hi
      omega
    all_goals decide
  refine ⟨h, hn, e, he, ?_, ?_, ?_, ?_⟩
  · exact (hread _).1.mpr ⟨"A", by decide, by decide⟩
  · exact ((hread _).2.1 hn (hone _ (by decide))).1.mpr (by decide)
  · exact ((hread _).2.1 hn (hone _ (by decide))).2 (by decide)
  · exact (hread _).2.2 h hlists (by decide) (by decide)

/-! ### A charge that wraps round -/

/-- The same constant as every formula. -/
def constants (n : Nat) : KnowledgeBase := ⟨List.replicate n .verum⟩

theorem size_constants (n : Nat) : (constants n).size = n := List.length_replicate

theorem atoms_constants (n : Nat) : (constants n).atoms = [] := by
  refine List.eq_nil_iff_forall_not_mem.mpr fun a ha => ?_
  obtain ⟨f, hf, hfa⟩ := mem_atoms.mp ha
  rw [List.eq_of_mem_replicate hf] at hfa
  cases hfa

/-- Past the words the charge of a flag is due when another variable is false. -/
theorem cost_ne_zero_of_mem_flags {w : WeightedClauses}
    (hw : w.soft = kb.flags.map fun flag => ([Literal.of flag false], 1)) (hsize : kb.size < 2 ^ 64)
    (hflag : 2147483649 ∈ kb.flags) {v : Ident → Bool} (hv : v 2147483647 = false) :
    w.cost v ≠ 0 := by
  have hweight : (w.soft.map (·.2)).sum < 2 ^ 64 := by
    rwa [hw, sum_charges]
  have hcharge : Clause.holds v [Literal.of 2147483649 false] = false := by
    have hliteral : Literal.of 2147483649 false = ((2147483647 : Nat) : Int) := by decide
    rw [hliteral, Clause.holds, List.any_cons, List.any_nil, Bool.or_false,
      Literal.holds_ofNat (by decide), hv]
  have hmem : ([Literal.of 2147483649 false], 1) ∈ w.soft.filter fun s => !s.1.holds v := by
    refine List.mem_filter.mpr ⟨hw ▸ List.mem_map_of_mem hflag, ?_⟩
    rw [hcharge]
    rfl
  rw [WeightedClauses.cost_eq_sum hweight]
  have hle := List.single_le_sum (fun _ _ => Nat.zero_le _) _ (List.mem_map_of_mem (f := (·.2)) hmem)
  exact Nat.ne_of_gt hle

/-- One flag past the range, an outcome with no flag set and no cost is refused for its cost,
though no atom can lack an indicator. -/
theorem interpret_constants :
    (constants 2147483649).atoms = [] ∧
      ∀ form, ∃ e failure, (constants 2147483649).encode form = .ok e ∧
        0 = e.flags.countP (Outcome.value ⟨0, []⟩) ∧
        e.interpret ⟨0, []⟩ = .error (.solver failure) := by
  refine ⟨atoms_constants _, fun form => ?_⟩
  have hunset : ∀ i, Outcome.value ⟨0, []⟩ i = false := fun i => by cases i <;> rfl
  obtain ⟨e, he⟩ := (constants 2147483649).encode_succeeds form
  have hone : ∀ a ∈ (constants 2147483649).atoms, e.occurrences ⟨0, []⟩ a = 1 := fun a ha => by
    rw [atoms_constants] at ha
    cases ha
  obtain ⟨entries, hentries, -⟩ := exists_entries he hone
  have hflag : 2147483649 ∈ (constants 2147483649).flags := by
    refine mem_flags.mpr ⟨2147483648, ?_, ?_⟩
    · rw [size_constants]
      decide
    · rw [atoms_constants]
      rfl
  have hcost : e.clauses.cost (Outcome.value ⟨0, []⟩) ≠ 0 := by
    refine cost_ne_zero_of_mem_flags (soft_of_encode he) ?_ hflag (hunset _)
    rw [size_constants]
    decide
  refine ⟨e, _, he, ?_, (Encoding.interpret_of_ok hentries).trans (if_pos hcost)⟩
  exact (List.countP_eq_zero.mpr fun i _ => Bool.not_eq_true _ ▸ hunset i).symm

end KnowledgeBase
end LeastGlut
