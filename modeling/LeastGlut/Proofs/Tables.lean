/-
# Tables are built in one pass and read both ways

A registry enters atoms one after the other. An atom that is listed already is passed over;
any other gets the next three identifiers, an entry at the end of the table and the clauses
that give it one value. What a registry holds depends on the distinct atoms alone, in order
of first occurrence (`Registry.enterAll_eq`).

Behind the table stands its inverse, a map from each identifier to the place of an entry and
the value that the identifier stands for there. Indicators do not repeat, so no place is
overwritten, and reading a place in the table gives what a search of the entries does
(`IndicatorTable.lookupPlace?_eq`).

The clauses of a table say that each atom has one value exactly as long as its identifiers
have literals (`IndicatorTable.forall_holds_constraints_iff`). The identifier `2 ^ 31` has one
literal where two are needed; a greater one has none, so the clauses do not see it.

Key definitions: `Registry.enterAll`, `IndicatorTable.inverse`, `IndicatorTable.lookupPlace?`,
`IndicatorTable.allTrue`.
-/
import LeastGlut.Proofs.Indicators

namespace LeastGlut

open IndicatorTable

/-! ### One pass over the atoms -/

/-- The atoms entered so far, the clauses that came with them and the supply that is left. -/
structure Registry where
  table : IndicatorTable
  hard : List Clause
  supply : Supply

namespace Registry

def enter (r : Registry) (atom : String) : Registry :=
  match r.table.get? atom with
  | some _ => r
  | none =>
    let (t, s) := r.supply.fresh
    let (f, s) := s.fresh
    let (b, s) := s.fresh
    let v : Indicators := ⟨t, f, b⟩
    ⟨⟨r.table.entries ++ [(atom, v)]⟩, r.hard ++ v.constraints, s⟩

/-- Enters atoms in order, with clauses that are there before. -/
def enterAll (s : Supply) (hard : List Clause) (atoms : List String) : Registry :=
  atoms.foldl enter ⟨.empty, hard, s⟩

theorem enter_of_lists {r : Registry} {a : String} (h : r.table.Lists a) : r.enter a = r := by
  unfold enter
  rw [get?_of_lists h]

theorem enter_of_get?_eq_none {r : Registry} {a : String} (h : r.table.get? a = none) :
    r.enter a = ⟨⟨r.table.entries ++ [(a, .behind r.supply.issued)]⟩,
      r.hard ++ (Indicators.behind r.supply.issued).constraints, ⟨r.supply.issued + 3⟩⟩ := by
  unfold enter
  rw [h]
  rfl

end Registry

namespace IndicatorTable

theorem behind_concat (n : Nat) (atoms : List String) (a : String) : behind n (atoms ++ [a]) =
    ⟨(behind n atoms).entries ++ [(a, .behind (n + 3 * atoms.length))]⟩ := by
  simp only [behind, List.mapIdx_concat]

theorem constraints_concat (es : List (String × Indicators)) (a : String) (i : Indicators) :
    constraints ⟨es ++ [(a, i)]⟩ = constraints ⟨es⟩ ++ i.constraints := by
  simp only [constraints, List.flatMap_append, List.flatMap_singleton]

theorem get?_eq_none_of_not_lists {table : IndicatorTable} {a : String} (h : ¬table.Lists a) :
    table.get? a = none := by
  refine List.lookup_eq_none_iff.mpr fun e he => bne_iff_ne.mpr fun hae => h ⟨e.2, ?_⟩
  rw [hae]
  exact he

end IndicatorTable

namespace Registry

/-- **What has been entered** is the table of the distinct atoms with its clauses. -/
theorem enterAll_eq (n : Nat) (hard : List Clause) (atoms : List String) :
    enterAll ⟨n⟩ hard atoms = ⟨behind n atoms.eraseDups,
      hard ++ (behind n atoms.eraseDups).constraints, ⟨n + 3 * atoms.eraseDups.length⟩⟩ := by
  induction atoms using List.reverseRecOn with
  | nil => simp [enterAll, IndicatorTable.empty, behind, constraints]
  | append_singleton atoms a ih =>
    have hstep : enterAll ⟨n⟩ hard (atoms ++ [a]) = (enterAll ⟨n⟩ hard atoms).enter a :=
      List.foldl_concat enter _ a atoms
    rw [hstep, ih, eraseDups_concat]
    split
    · next ha => exact enter_of_lists (lists_behind.mpr (List.mem_eraseDups.mpr ha))
    · next ha =>
      have hnone : (behind n atoms.eraseDups).get? a = none :=
        get?_eq_none_of_not_lists fun h => ha (List.mem_eraseDups.mp (lists_behind.mp h))
      rw [enter_of_get?_eq_none hnone, behind_concat, constraints_concat, List.append_assoc,
        List.length_append]
      rfl

end Registry

/-! ### The inverse of a table -/

namespace IndicatorTable

/-- Each indicator with the place of its entry and the value it stands for there. -/
def places (table : IndicatorTable) : List (Ident × (Nat × Truth)) :=
  table.entries.zipIdx.flatMap fun e => Truth.all.map fun x => (e.1.2.get x, (e.2, x))

/-- The places in a map; a later one replaces an earlier one of the same identifier. -/
def inverse (table : IndicatorTable) : Std.HashMap Ident (Nat × Truth) :=
  Std.HashMap.ofList table.places

/-- The atom and the value that an indicator stands for, by its place. -/
def lookupPlace? (table : IndicatorTable) (i : Ident) : Option (String × Truth) := do
  let (k, x) ← table.inverse[i]?
  let (atom, _) ← table.entries[k]?
  return (atom, x)

variable {table : IndicatorTable}

theorem mem_places {i k : Nat} {x : Truth} : (i, (k, x)) ∈ table.places ↔
    ∃ e, table.entries[k]? = some e ∧ e.2.get x = i := by
  have hall : ∀ x : Truth, x ∈ Truth.all := fun x => by cases x <;> decide
  simp only [places, List.mem_flatMap, List.mem_map, Prod.mk.injEq]
  constructor
  · rintro ⟨e, he, y, -, hy, rfl, rfl⟩
    exact ⟨e.1, List.mem_zipIdx_iff_getElem?.mp he, hy⟩
  · rintro ⟨e, he, hx⟩
    exact ⟨(e, k), List.mem_zipIdx_iff_getElem?.mpr he, x, hall x, hx, rfl, rfl⟩

theorem map_fst_places (table : IndicatorTable) :
    table.places.map (·.1) = table.entries.flatMap fun e => Truth.all.map e.2.get := by
  have hzip : table.entries = table.entries.zipIdx.map Prod.fst :=
    (List.zipIdx_map_fst 0 table.entries).symm
  conv_rhs => rw [hzip, List.flatMap_map]
  simp only [places, List.map_flatMap, List.map_map, Function.comp_def]

/-- Where indicators do not repeat, no place is overwritten. -/
theorem inverse_eq_some_iff (hn : (table.places.map (·.1)).Nodup) {i : Ident} {p : Nat × Truth} :
    table.inverse[i]? = some p ↔ (i, p) ∈ table.places := by
  have hkeys : table.places.Pairwise fun a b => (a.1 == b.1) = false :=
    (List.pairwise_map.mp hn).imp beq_false_of_ne
  have hfound : ∀ q, (i, q) ∈ table.places → table.inverse[i]? = some q := fun q hq =>
    Std.HashMap.getElem?_ofList_of_mem (beq_self_eq_true i) hkeys hq
  constructor
  · intro hp
    by_cases hi : i ∈ table.places.map (·.1)
    · obtain ⟨e, he, rfl⟩ := List.mem_map.mp hi
      have hq := (hfound e.2 he).symm.trans hp
      rw [← Option.some.inj hq]
      exact he
    · have hnone : table.inverse[i]? = none :=
        Std.HashMap.getElem?_ofList_of_contains_eq_false (by simpa using hi)
      cases hnone.symm.trans hp
  · exact hfound p

variable {n : Nat} {atoms : List String}

/-- **Reading the inverse gives what a search of the entries does.** -/
theorem lookupPlace?_eq (hn : atoms.Nodup) (i : Ident) :
    (behind n atoms).lookupPlace? i = (behind n atoms).lookup i := by
  have hplaces : ((behind n atoms).places.map (·.1)).Nodup := by
    rw [map_fst_places, indicators_behind]
    exact List.nodup_range'
  refine Option.ext fun p => ?_
  obtain ⟨a, x⟩ := p
  rw [(separate_behind hn).lookup_eq_some_iff]
  simp only [lookupPlace?, Option.bind_eq_bind, Option.bind_eq_some_iff,
    inverse_eq_some_iff hplaces]
  constructor
  · rintro ⟨⟨k, y⟩, hy, ⟨b, ind⟩, hb, h⟩
    obtain ⟨e, he, hi⟩ := mem_places.mp hy
    cases he.symm.trans hb
    cases h
    exact ⟨ind, List.mem_of_getElem? hb, hi⟩
  · rintro ⟨ind, ha, hi⟩
    obtain ⟨k, hk⟩ := List.mem_iff_getElem?.mp ha
    exact ⟨(k, x), mem_places.mpr ⟨_, hk, hi⟩, (a, ind), hk, rfl⟩

/-! ### Where the clauses say that each atom has one value -/

/-- The assignment under which every listed atom is true. -/
def allTrue (table : IndicatorTable) (i : Ident) : Bool := table.entries.any fun e => e.2.t = i

theorem Separate.single_allTrue (ht : table.Separate) : table.Single table.allTrue := by
  intro e he
  refine (Indicators.single_of_iff (y := .t) fun x => ?_).1
  simp only [allTrue, List.any_eq_true, decide_eq_true_eq]
  constructor
  · rintro ⟨d, hd, hx⟩
    obtain rfl := ht.distinct d hd e he (Or.inr ⟨.t, x, hx⟩)
    exact ht.injective d hd .t x hx
  · rintro rfl
    exact ⟨e, he, rfl⟩

/-- The clauses do not see an identifier past the words: they hold whether or not it is set. -/
theorem Separate.not_forall_holds_iff_of_lt (ht : table.Separate) {e : String × Indicators}
    (he : e ∈ table.entries) (hb : 2 ^ 31 < e.2.b) :
    ¬∀ v, (∀ c ∈ table.constraints, c.holds v) ↔ table.Single v := by
  intro hall
  let w : Ident → Bool := fun i => table.allTrue i || i == e.2.b
  have hsame : ∀ c ∈ table.constraints, c.holds w = c.holds table.allTrue := by
    intro c hc
    refine Clause.holds_congr fun l hl => ?_
    obtain ⟨d, hd, hcd⟩ := List.mem_flatMap.mp hc
    obtain ⟨x, p, rfl⟩ := Indicators.mem_constraints hcd hl
    have hne : (Literal.of (d.2.get x) p).natAbs ≠ e.2.b :=
      Nat.ne_of_lt (Nat.lt_of_le_of_lt (Literal.natAbs_of_le _ p) hb)
    simp only [w, beq_false_of_ne hne, Bool.or_false]
  have hsingle : table.Single w := (hall w).mp fun c hc => by
    rw [hsame c hc]
    exact (hall table.allTrue).mpr ht.single_allTrue c hc
  -- the atom has two values: `t` from the start, and `b` unseen
  have hvalue := Indicators.single_iff.mp (hsingle e he)
  have htrue : table.allTrue e.2.t := List.any_eq_true.mpr ⟨e, he, decide_eq_true rfl⟩
  have hvt : e.2.value w = .t := (hvalue .t).mp (by simp [w, Indicators.get, htrue])
  have hvb : e.2.value w = .b := (hvalue .b).mp (by simp [w, Indicators.get])
  cases hvt.symm.trans hvb

end IndicatorTable

/-- The literal of `2 ^ 31` holds when its variable does not, so an atom without a value
passes. -/
theorem Indicators.holds_of_b_eq_two_pow {i : Indicators} (ht : Ident.InRange i.t)
    (hf : Ident.InRange i.f) (hb : i.b = 2 ^ 31) {v : Ident → Bool} (hv : ∀ x, v (i.get x) = false) :
    ∀ c ∈ i.constraints, c.holds v := by
  have hvt : v i.t = false := hv .t
  have hvf : v i.f = false := hv .f
  have hvb : v (2 ^ 31) = false := hb ▸ hv .b
  have hleast : Literal.holds v (-(2 ^ 31)) = !v (2 ^ 31) := Literal.holds_neg_ofNat (2 ^ 31) v
  simp only [constraints, List.mem_cons, List.not_mem_nil, or_false, forall_eq_or_imp, forall_eq,
    Clause.holds, List.any_cons, List.any_nil, Literal.holds_of ht, Literal.holds_of hf, hb,
    Literal.of_two_pow, hleast, hvt, hvf, hvb]
  decide

namespace IndicatorTable

variable {n : Nat} {atoms : List String}

/-- Indicators behind a table are set by none of its atoms. -/
theorem allTrue_behind_get {m : Nat} (hm : n + 3 * atoms.length ≤ m) (x : Truth) :
    (behind n atoms).allTrue ((Indicators.behind m).get x) = false := by
  refine List.any_eq_false.mpr fun e he => ?_
  obtain ⟨k, hk, hek⟩ := mem_behind.mp he
  have hlt := (List.getElem?_eq_some_iff.mp hk).1
  rw [decide_eq_true_eq, hek, Indicators.get_behind]
  change n + 3 * k + 1 ≠ m + x.place + 1
  omega

/-- An atom whose last indicator is `2 ^ 31` need not have a value. -/
theorem not_forall_holds_iff_of_eq {a : String} (hn : atoms.Nodup)
    (h : n + 3 * atoms.length + 3 = 2 ^ 31) :
    ¬∀ v, (∀ c ∈ (behind n (atoms ++ [a])).constraints, c.holds v) ↔
      (behind n (atoms ++ [a])).Single v := by
  intro hall
  rw [behind_concat] at hall
  let v := (behind n atoms).allTrue
  let last := Indicators.behind (n + 3 * atoms.length)
  have hwf : (behind n atoms).WellFormed := wellFormed_behind hn (by omega)
  have ht : Ident.InRange last.t := ⟨Nat.succ_pos _, by
    change n + 3 * atoms.length + 1 < 2 ^ 31
    omega⟩
  have hf : Ident.InRange last.f := ⟨Nat.succ_pos _, by
    change n + 3 * atoms.length + 2 < 2 ^ 31
    omega⟩
  have hunset : ∀ x, v (last.get x) = false := allTrue_behind_get (Nat.le_refl _)
  have hholds : ∀ c ∈ constraints ⟨(behind n atoms).entries ++ [(a, last)]⟩, c.holds v := by
    rw [constraints_concat]
    intro c hc
    rcases List.mem_append.mp hc with hc | hc
    · exact (holds_constraints_iff hwf).mpr hwf.separate.single_allTrue c hc
    · exact Indicators.holds_of_b_eq_two_pow ht hf h hunset c hc
  have hlast := (hall v).mp hholds (a, last) (List.mem_append_right _ List.mem_cons_self)
  have hset := (Indicators.single_iff.mp hlast (last.value v)).mpr rfl
  rw [hunset] at hset
  cases hset

/-- **The clauses of a table** say that each atom has one value exactly as long as its
identifiers have literals. -/
theorem forall_holds_constraints_iff (hn : atoms.Nodup) :
    (∀ v, (∀ c ∈ (behind n atoms).constraints, c.holds v) ↔ (behind n atoms).Single v) ↔
      atoms = [] ∨ n + 3 * atoms.length < 2 ^ 31 := by
  constructor
  · intro hall
    rcases List.eq_nil_or_concat atoms with hnil | ⟨front, a, hconcat⟩
    · exact Or.inl hnil
    · refine Or.inr (Nat.lt_of_not_le fun hle => ?_)
      rw [List.concat_eq_append] at hconcat
      subst hconcat
      have hlen : n + 3 * (front ++ [a]).length = n + 3 * front.length + 3 := by
        rw [List.length_append, List.length_singleton, Nat.mul_add, Nat.add_assoc]
      rcases Nat.lt_or_eq_of_le hle with hlt | heq
      · have hlast : (a, Indicators.behind (n + 3 * front.length)) ∈
            (behind n (front ++ [a])).entries := by
          rw [behind_concat]
          exact List.mem_append_right _ List.mem_cons_self
        rw [hlen] at hlt
        exact (separate_behind hn).not_forall_holds_iff_of_lt hlast hlt hall
      · exact not_forall_holds_iff_of_eq (List.nodup_append.mp hn).1 (hlen.symm.trans heq.symm) hall
  · rintro (rfl | h) v
    · exact iff_of_true (fun c hc => absurd hc List.not_mem_nil)
        (fun e he => absurd he List.not_mem_nil)
    · exact holds_constraints_iff (wellFormed_behind hn h)

/-- **A table is read both ways**, whatever was given out before it. It is what one pass over
the atoms enters, with its clauses behind those there before. An identifier is looked up to an
atom and a value, by place or by a search, just when it is the atom's indicator of the value.
The distinct names are listed once each, in order of first occurrence. The clauses say that
each listed atom has exactly one value for as long as there are literals, that is below
`2 ^ 31` identifiers, and no further. -/
theorem allocate_bijective (s : Supply) (hard : List Clause) (atoms : List String) :
    let table := (allocate s atoms).1
    let names := table.entries.map (·.1)
    Registry.enterAll s hard atoms = ⟨table, hard ++ table.constraints, (allocate s atoms).2⟩ ∧
    (∀ i, table.lookupPlace? i = table.lookup i) ∧
    (∀ i a x, table.lookup i = some (a, x) ↔ ∃ ind, table.get? a = some ind ∧ ind.get x = i) ∧
    (∀ a, a ∈ names ↔ a ∈ atoms) ∧ names.Nodup ∧
    names.Pairwise (fun a b => atoms.idxOf a < atoms.idxOf b) ∧
    ((∀ v, (∀ c ∈ table.constraints, c.holds v) ↔ table.Single v) ↔
      atoms = [] ∨ (allocate s atoms).2.issued < 2 ^ 31) := by
  obtain ⟨n⟩ := s
  rw [allocate_eq]
  intro table names
  have hn := nodup_eraseDups atoms
  have hnames : names = atoms.eraseDups := map_fst_behind n _
  have hsep : table.Separate := separate_behind hn
  have hnil : atoms.eraseDups = [] ↔ atoms = [] := by
    simp only [List.eq_nil_iff_forall_not_mem, List.mem_eraseDups]
  rw [hnames]
  refine ⟨Registry.enterAll_eq n hard atoms, lookupPlace?_eq hn, fun i a x => ?_,
    fun a => List.mem_eraseDups, hn, pairwise_idxOf_eraseDups atoms, ?_⟩
  · simp only [hsep.lookup_eq_some_iff, hsep.get?_eq_some_iff]
  · rw [← hnil]
    exact forall_holds_constraints_iff hn

/-- Behind `2 ^ 31` identifiers the clauses of `A` are over other variables and of the other
sign: `A` is true and nothing else, and three of them fail. -/
theorem constraints_wrapped :
    let table := (allocate ⟨2 ^ 31⟩ ["A"]).1
    let v : Ident → Bool := fun i => i = 2147483649
    table.get? "A" = some ⟨2147483649, 2147483650, 2147483651⟩ ∧
    table.constraints = [[-2147483647, -2147483646, -2147483645], [2147483647, 2147483646],
      [2147483647, 2147483645], [2147483646, 2147483645]] ∧
    table.constraints.countP (fun c => !c.holds v) = 3 ∧
    ¬((∀ c ∈ table.constraints, c.holds v) ↔ table.Single v) := by
  intro table v
  have hsingle : table.Single v := by
    unfold Single
    decide
  exact ⟨by decide, by decide, by decide, fun h => absurd (h.mpr hsingle) (by decide)⟩

end IndicatorTable
end LeastGlut
