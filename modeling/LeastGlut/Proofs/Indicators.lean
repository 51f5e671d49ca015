/-
# Indicators read as values

A table gives its atoms consecutive triples of identifiers
(`IndicatorTable.allocate_eq`), so an identifier is the indicator of one atom
and one value at most (`IndicatorTable.mem_behind`).

An assignment under which each atom has a single indicator reads as a
valuation. A clause widened by glut indicators then holds just when one of its
literals is admitted by what it names: an atom by its value, any other variable
by its Boolean (`IndicatorTable.holds_widenGate`, `IndicatorTable.holds_widenListed`).

Key definitions: `Indicators.single`, `IndicatorTable.behind`,
`IndicatorTable.reading`, `IndicatorTable.variableValue`.
-/
import LeastGlut.Encoding
import LeastGlut.Proofs.Lists
import LeastGlut.Proofs.Literals
import LeastGlut.Proofs.NormalForms

namespace LeastGlut

/-! ### One indicator of three -/

namespace Indicators

/-- Whether exactly one of the three indicators is set. -/
def single (v : Ident → Bool) (i : Indicators) : Bool :=
  Truth.all.countP (fun x => v (i.get x)) = 1

/-- The value whose indicator is set; with several set, the first. -/
def value (v : Ident → Bool) (i : Indicators) : Truth :=
  if v i.t then .t else if v i.f then .f else .b

/-- Every indicator has literals. -/
def InRange (i : Indicators) : Prop := ∀ x, Ident.InRange (i.get x)

theorem InRange.t {i : Indicators} (h : i.InRange) : Ident.InRange i.t := h .t
theorem InRange.f {i : Indicators} (h : i.InRange) : Ident.InRange i.f := h .f
theorem InRange.b {i : Indicators} (h : i.InRange) : Ident.InRange i.b := h .b

theorem single_iff {v : Ident → Bool} {i : Indicators} :
    i.single v ↔ ∀ x, v (i.get x) ↔ i.value v = x := by
  simp only [single, value, Truth.all, Truth.forall_iff, get, List.countP_cons, List.countP_nil]
  cases v i.t <;> cases v i.f <;> cases v i.b <;> simp

theorem single_of_iff {v : Ident → Bool} {i : Indicators} {y : Truth}
    (h : ∀ x, v (i.get x) ↔ y = x) : i.single v ∧ i.value v = y := by
  have hs : i.single v := by
    simp only [Truth.forall_iff, get] at h
    simp only [single, Truth.all, get, List.countP_cons, List.countP_nil]
    cases y <;> simp_all
  exact ⟨hs, (single_iff.mp hs y).mp ((h y).mpr rfl)⟩

theorem admits_value {v : Ident → Bool} {i : Indicators} (h : i.single v) (p : Bool) :
    (i.value v).admits p = (v (if p then i.t else i.f) || v i.b) := by
  have hs := single_iff.mp h
  simp only [Truth.forall_iff, get] at hs
  cases hx : i.value v <;> rw [hx] at hs <;> cases p <;> simp_all [Truth.admits]

theorem literal_eq (i : Indicators) (p : Bool) :
    i.literal p = Literal.of (i.get (if p then .t else .f)) true := by
  cases p <;> rfl

theorem holds_literal {i : Indicators} (h : i.InRange) (v : Ident → Bool) (p : Bool) :
    (i.literal p).holds v = v (if p then i.t else i.f) := by
  cases p
  · simp [literal, Literal.holds_of h.f]
  · simp [literal, Literal.holds_of h.t]

theorem holds_glutLiteral {i : Indicators} (h : i.InRange) (v : Ident → Bool) :
    i.glutLiteral.holds v = v i.b := by
  simp [glutLiteral, Literal.holds_of h.b]

/-- The constraints of an atom say that it has a single indicator. -/
theorem holds_constraints {i : Indicators} (h : i.InRange) (v : Ident → Bool) :
    i.constraints.all (Clause.holds v) = i.single v := by
  simp only [constraints, Clause.holds, single, Truth.all, get, List.all_cons, List.all_nil,
    List.any_cons, List.any_nil, Literal.holds_of h.t, Literal.holds_of h.f, Literal.holds_of h.b,
    List.countP_cons, List.countP_nil]
  cases v i.t <;> cases v i.f <;> cases v i.b <;> rfl

theorem mem_constraints {i : Indicators} {c : Clause} {l : Literal} (hc : c ∈ i.constraints)
    (hl : l ∈ c) : ∃ x p, l = .of (i.get x) p := by
  simp only [constraints, List.mem_cons, List.not_mem_nil, or_false] at hc
  rcases hc with hc | hc | hc | hc <;>
    simp only [hc, List.mem_cons, List.not_mem_nil, or_false] at hl
  · rcases hl with hl | hl | hl
    · exact ⟨.t, true, hl⟩
    · exact ⟨.f, true, hl⟩
    · exact ⟨.b, true, hl⟩
  · rcases hl with hl | hl
    · exact ⟨.t, false, hl⟩
    · exact ⟨.f, false, hl⟩
  · rcases hl with hl | hl
    · exact ⟨.t, false, hl⟩
    · exact ⟨.b, false, hl⟩
  · rcases hl with hl | hl
    · exact ⟨.f, false, hl⟩
    · exact ⟨.b, false, hl⟩

theorem valueOf?_eq_some_iff {ind : Indicators} (h : ∀ x y, ind.get x = ind.get y → x = y)
    {i : Ident} {x : Truth} : ind.valueOf? i = some x ↔ ind.get x = i := by
  have hall : x ∈ Truth.all := by cases x <;> decide
  have hu : ∀ y ∈ Truth.all, ∀ z ∈ Truth.all, decide (ind.get y = i) → decide (ind.get z = i) →
      y = z := fun y _ z _ hy hz => h y z ((of_decide_eq_true hy).trans (of_decide_eq_true hz).symm)
  unfold valueOf?
  rw [find?_eq_some_iff_of_unique hu, decide_eq_true_eq]
  exact and_iff_right hall

/-- The indicators behind `n` identifiers. -/
def behind (n : Nat) : Indicators := ⟨n + 1, n + 2, n + 3⟩

theorem get_behind (n : Nat) (x : Truth) : (behind n).get x = n + x.place + 1 := by
  cases x <;> rfl

end Indicators

namespace IndicatorTable

/-! ### Consecutive triples -/

/-- The table of atoms whose triples follow `n` identifiers. -/
def behind (n : Nat) (atoms : List String) : IndicatorTable :=
  ⟨atoms.mapIdx fun k a => (a, .behind (n + 3 * k))⟩

theorem allocateEach_eq (n : Nat) (atoms : List String) :
    allocateEach ⟨n⟩ atoms = ((behind n atoms).entries, ⟨n + 3 * atoms.length⟩) := by
  induction atoms generalizing n with
  | nil => rfl
  | cons a atoms ih =>
    have hk : ∀ k, n + 3 * (k + 1) = n + 3 + 3 * k := fun k => by omega
    have ih := ih (n + 3)
    simp only [behind] at ih
    simp only [allocateEach, Supply.fresh, behind, List.mapIdx_cons, List.length_cons, hk]
    rw [ih]
    rfl

theorem allocate_eq (n : Nat) (atoms : List String) : allocate ⟨n⟩ atoms =
    (behind n atoms.eraseDups, ⟨n + 3 * atoms.eraseDups.length⟩) := by
  simp only [allocate, allocateEach_eq]

/-- The indicators follow each other without a gap. -/
theorem indicators_behind (n : Nat) (atoms : List String) :
    (behind n atoms).entries.flatMap (fun e => Truth.all.map e.2.get) =
      List.range' (n + 1) (3 * atoms.length) := by
  induction atoms generalizing n with
  | nil => rfl
  | cons a atoms ih =>
    have hk : ∀ k, n + 3 * (k + 1) = n + 3 + 3 * k := fun k => by omega
    have ih := ih (n + 3)
    simp only [behind] at ih
    have hrest : 3 * (atoms.length + 1) = 3 * atoms.length + 1 + 1 + 1 := by omega
    simp only [behind, List.mapIdx_cons, List.flatMap_cons, hk, ih, List.length_cons, hrest,
      List.range'_succ]
    rfl

variable {n : Nat} {atoms : List String}

theorem mem_behind {e : String × Indicators} :
    e ∈ (behind n atoms).entries ↔ ∃ k, atoms[k]? = some e.1 ∧ e.2 = .behind (n + 3 * k) := by
  obtain ⟨a, i⟩ := e
  rw [List.mem_iff_getElem?]
  simp only [behind, List.getElem?_mapIdx, Option.map_eq_some_iff, Prod.mk.injEq]
  constructor
  · intro h
    obtain ⟨k, a, hk, rfl, rfl⟩ := h
    exact ⟨k, hk, rfl⟩
  · intro h
    obtain ⟨k, hk, rfl⟩ := h
    exact ⟨k, a, hk, rfl, rfl⟩

theorem map_fst_behind (n : Nat) (atoms : List String) :
    (behind n atoms).entries.map (·.1) = atoms := by
  apply List.ext_getElem?
  intro k
  simp [behind, Function.comp_def]

/-- An entry is determined by its atom and by each of its indicators. -/
theorem eq_of_mem_behind (hn : atoms.Nodup) {d e : String × Indicators}
    (hd : d ∈ (behind n atoms).entries) (he : e ∈ (behind n atoms).entries)
    (h : d.1 = e.1 ∨ ∃ x y, d.2.get x = e.2.get y) : d = e := by
  obtain ⟨k, hk, hdk⟩ := mem_behind.mp hd
  obtain ⟨j, hj, hej⟩ := mem_behind.mp he
  have hkj : k = j := by
    rcases h with h | ⟨x, y, h⟩
    · exact (List.getElem?_inj (List.getElem?_eq_some_iff.mp hk).1 hn).mp (by rw [hk, hj, h])
    · rw [hdk, hej, Indicators.get_behind, Indicators.get_behind] at h
      change n + 3 * k + x.place + 1 = n + 3 * j + y.place + 1 at h
      have hx : x.place < 3 := by cases x <;> decide
      have hy : y.place < 3 := by cases y <;> decide
      omega
  subst hkj
  exact Prod.ext (by simpa [hk] using hj) (hdk.trans hej.symm)

/-! ### Tables read both ways -/

/-- Atoms and indicators are listed once, and every indicator has literals. -/
structure WellFormed (table : IndicatorTable) : Prop where
  distinct : ∀ d ∈ table.entries, ∀ e ∈ table.entries,
    (d.1 = e.1 ∨ ∃ x y, d.2.get x = e.2.get y) → d = e
  injective : ∀ e ∈ table.entries, ∀ x y, e.2.get x = e.2.get y → x = y
  inRange : ∀ e ∈ table.entries, e.2.InRange

/-- Atoms and indicators are listed once, whether or not the indicators have literals. -/
structure Separate (table : IndicatorTable) : Prop where
  distinct : ∀ d ∈ table.entries, ∀ e ∈ table.entries,
    (d.1 = e.1 ∨ ∃ x y, d.2.get x = e.2.get y) → d = e
  injective : ∀ e ∈ table.entries, ∀ x y, e.2.get x = e.2.get y → x = y

theorem WellFormed.separate {table : IndicatorTable} (ht : table.WellFormed) : table.Separate :=
  ⟨ht.distinct, ht.injective⟩

theorem separate_behind (hn : atoms.Nodup) : (behind n atoms).Separate where
  distinct _ hd _ he := eq_of_mem_behind hn hd he
  injective e he x y hxy := by
    obtain ⟨k, -, hk⟩ := mem_behind.mp he
    rw [hk, Indicators.get_behind, Indicators.get_behind] at hxy
    change n + 3 * k + x.place + 1 = n + 3 * k + y.place + 1 at hxy
    have hp : x.place = y.place := by omega
    revert hp
    cases x <;> cases y <;> decide

theorem wellFormed_behind (hn : atoms.Nodup) (h : n + 3 * atoms.length < 2 ^ 31) :
    (behind n atoms).WellFormed where
  distinct := (separate_behind hn).distinct
  injective := (separate_behind hn).injective
  inRange e he x := by
    obtain ⟨k, hk, he⟩ := mem_behind.mp he
    have hlt := (List.getElem?_eq_some_iff.mp hk).1
    have hx : x.place < 3 := by cases x <;> decide
    rw [he, Indicators.get_behind]
    exact ⟨by omega, by omega⟩

/-- Every atom has exactly one indicator set. -/
def Single (table : IndicatorTable) (v : Ident → Bool) : Prop :=
  ∀ e ∈ table.entries, e.2.single v

/-- The valuation that an assignment of the indicators gives. -/
def reading (table : IndicatorTable) (v : Ident → Bool) (atom : String) : Truth :=
  match table.get? atom with
  | some i => i.value v
  | none => .b

/-- The value of a variable of a clause to be widened: that of the atom whose `t`
indicator it is, otherwise its Boolean. -/
def variableValue (table : IndicatorTable) (v : Ident → Bool) (i : Ident) : Truth :=
  match table.ofTruth? i with
  | some ind => ind.value v
  | none => .ofBool (v i)

variable {table : IndicatorTable} {v : Ident → Bool}

theorem Separate.get?_eq_some_iff (ht : table.Separate) {a : String} {i : Indicators} :
    table.get? a = some i ↔ (a, i) ∈ table.entries := by
  have hfound : ∀ (e : String × Indicators) j,
      (if a == e.1 then some e.2 else none) = some j ↔ e = (a, j) := fun e j => by
    obtain ⟨b, k⟩ := e
    by_cases hab : a = b
    · simp [hab]
    · simp [hab, Ne.symm hab]
  have hu : ∀ d ∈ table.entries, ∀ e ∈ table.entries, ∀ i j,
      (if a == d.1 then some d.2 else none) = some i →
        (if a == e.1 then some e.2 else none) = some j → i = j := by
    intro d hd e he i j hi hj
    obtain rfl := (hfound d i).mp hi
    obtain rfl := (hfound e j).mp hj
    exact (Prod.ext_iff.mp (ht.distinct _ hd _ he (Or.inl rfl))).2
  unfold get?
  rw [List.lookup_eq_findSome?, findSome?_eq_some_iff_of_unique hu]
  simp only [hfound, exists_eq_right]

theorem get?_eq_some_iff (ht : table.WellFormed) {a : String} {i : Indicators} :
    table.get? a = some i ↔ (a, i) ∈ table.entries := ht.separate.get?_eq_some_iff

/-- Whether the table holds an atom. -/
def Lists (table : IndicatorTable) (a : String) : Prop := ∃ i, (a, i) ∈ table.entries

theorem lists_behind {n : Nat} {atoms : List String} {a : String} :
    (behind n atoms).Lists a ↔ a ∈ atoms := by
  constructor
  · intro h
    obtain ⟨i, hi⟩ := h
    obtain ⟨k, hk, -⟩ := mem_behind.mp hi
    exact List.mem_of_getElem? hk
  · intro ha
    obtain ⟨k, hk⟩ := List.mem_iff_getElem?.mp ha
    exact ⟨_, mem_behind.mpr ⟨k, hk, rfl⟩⟩

/-- The indicators of a listed atom. -/
def ofAtom (table : IndicatorTable) (a : String) : Indicators := (table.get? a).getD ⟨0, 0, 0⟩

theorem get?_of_lists {a : String} (h : table.Lists a) :
    table.get? a = some (table.ofAtom a) := by
  obtain ⟨i, hi⟩ := h
  have hsome : (table.get? a).isSome := List.lookup_isSome_iff.mpr ⟨(a, i), hi, beq_self_eq_true a⟩
  obtain ⟨j, hj⟩ := Option.isSome_iff_exists.mp hsome
  rw [ofAtom, hj, Option.getD_some]

theorem ofAtom_mem (ht : table.WellFormed) {a : String} (h : table.Lists a) :
    (a, table.ofAtom a) ∈ table.entries := (get?_eq_some_iff ht).mp (get?_of_lists h)

theorem find_of_lists {a : String} (h : table.Lists a) :
    table.find a = .ok (table.ofAtom a) := by
  unfold find
  rw [get?_of_lists h]

theorem reading_of_lists {a : String} (h : table.Lists a) :
    table.reading v a = (table.ofAtom a).value v := by
  unfold reading
  rw [get?_of_lists h]

theorem ofTruth?_eq_some_iff (ht : table.WellFormed) {i : Ident} {ind : Indicators} :
    table.ofTruth? i = some ind ↔ ∃ a, (a, ind) ∈ table.entries ∧ ind.t = i := by
  have hu : ∀ d ∈ table.entries, ∀ e ∈ table.entries, decide (d.2.t = i) → decide (e.2.t = i) →
      d = e := by
    intro d hd e he hdi hei
    have h : d.2.t = e.2.t := (of_decide_eq_true hdi).trans (of_decide_eq_true hei).symm
    exact ht.distinct d hd e he (Or.inr ⟨.t, .t, h⟩)
  have hfind : ∀ e, table.entries.find? (fun e => e.2.t = i) = some e ↔
      e ∈ table.entries ∧ e.2.t = i := fun e => by
    rw [find?_eq_some_iff_of_unique hu, decide_eq_true_eq]
  unfold ofTruth?
  rw [Option.map_eq_some_iff]
  constructor
  · intro hp
    obtain ⟨e, he, rfl⟩ := hp
    exact ⟨e.1, (hfind e).mp he⟩
  · intro hp
    obtain ⟨a, ha⟩ := hp
    exact ⟨(a, ind), (hfind _).mpr ha, rfl⟩

theorem Separate.lookup_eq_some_iff (ht : table.Separate) {i : Ident} {a : String} {x : Truth} :
    table.lookup i = some (a, x) ↔ ∃ ind, (a, ind) ∈ table.entries ∧ ind.get x = i := by
  have hfound : ∀ e ∈ table.entries, ∀ b y,
      (e.2.valueOf? i).map (e.1, ·) = some (b, y) ↔ e.1 = b ∧ e.2.get y = i := fun e he b y => by
    simp only [Option.map_eq_some_iff, Indicators.valueOf?_eq_some_iff (ht.injective e he),
      Prod.mk.injEq]
    constructor
    · intro h
      obtain ⟨y, hy, rfl, rfl⟩ := h
      exact ⟨rfl, hy⟩
    · intro h
      obtain ⟨rfl, hy⟩ := h
      exact ⟨y, hy, rfl, rfl⟩
  have hu : ∀ d ∈ table.entries, ∀ e ∈ table.entries, ∀ p q,
      (d.2.valueOf? i).map (d.1, ·) = some p → (e.2.valueOf? i).map (e.1, ·) = some q → p = q := by
    rintro d hd e he ⟨b, y⟩ ⟨c, z⟩ hp hq
    obtain ⟨rfl, hy⟩ := (hfound d hd b y).mp hp
    obtain ⟨rfl, hz⟩ := (hfound e he c z).mp hq
    obtain rfl := ht.distinct d hd e he (Or.inr ⟨y, z, hy.trans hz.symm⟩)
    rw [ht.injective d hd y z (hy.trans hz.symm)]
  refine (findSome?_eq_some_iff_of_unique hu).trans ?_
  constructor
  · intro h
    obtain ⟨e, he, hx⟩ := h
    obtain ⟨rfl, hy⟩ := (hfound e he a x).mp hx
    exact ⟨e.2, he, hy⟩
  · intro h
    obtain ⟨ind, ha, hx⟩ := h
    exact ⟨(a, ind), ha, (hfound _ ha a x).mpr ⟨rfl, hx⟩⟩

theorem lookup_eq_some_iff (ht : table.WellFormed) {i : Ident} {a : String} {x : Truth} :
    table.lookup i = some (a, x) ↔ ∃ ind, (a, ind) ∈ table.entries ∧ ind.get x = i :=
  ht.separate.lookup_eq_some_iff

theorem lookup_truthVariables (table : IndicatorTable) (a : String) :
    table.truthVariables.lookup a = (table.get? a).map (·.t) := by
  unfold truthVariables get?
  induction table.entries with
  | nil => rfl
  | cons e es ih =>
    obtain ⟨b, i⟩ := e
    simp only [List.map_cons, List.lookup_cons]
    cases a == b
    · exact ih
    · rfl

/-- The constraints of a table say that every atom has a single indicator. -/
theorem holds_constraints_iff (ht : table.WellFormed) :
    (∀ c ∈ table.constraints, c.holds v) ↔ table.Single v := by
  simp only [constraints, List.mem_flatMap, Single]
  constructor
  · intro h e he
    rw [← Indicators.holds_constraints (ht.inRange e he), List.all_eq_true]
    exact fun c hc => h c ⟨e, he, hc⟩
  · rintro h c ⟨e, he, hc⟩
    have hs := h e he
    rw [← Indicators.holds_constraints (ht.inRange e he), List.all_eq_true] at hs
    exact hs c hc

end IndicatorTable

/-! ### Widened clauses -/

/-- Whether a literal of the clause is admitted by the value of its variable. -/
def Clause.admitted (value : Ident → Truth) (c : Clause) : Bool :=
  c.any fun l => (value l.natAbs).admits (0 < l)

namespace IndicatorTable

variable {table : IndicatorTable} {v : Ident → Bool}

theorem admits_variableValue (ht : table.WellFormed) (hs : table.Single v) (l : Literal) :
    (table.variableValue v l.natAbs).admits (0 < l) =
      (Literal.holds v (match table.ofTruth? l.natAbs with
        | some ind => ind.literal (0 < l)
        | none => l) || (table.ofTruth? l.natAbs).any fun ind => ind.glutLiteral.holds v) := by
  unfold variableValue
  cases hi : table.ofTruth? l.natAbs with
  | none => simp [Literal.holds]
  | some ind =>
    obtain ⟨a, ha, -⟩ := (ofTruth?_eq_some_iff ht).mp hi
    have hr := ht.inRange _ ha
    simp only [Indicators.admits_value (hs _ ha), Indicators.holds_literal hr,
      Indicators.holds_glutLiteral hr, Option.any_some]

/-- **A widened clause over atoms and gate variables** holds just when one of its
literals is admitted. -/
theorem holds_widenGate (ht : table.WellFormed) (hs : table.Single v) (c : Clause) :
    (table.widenGate c).holds v = c.admitted (table.variableValue v) := by
  have hg : ∀ l : Literal, ((table.ofTruth? l.natAbs).any fun ind => ind.glutLiteral.holds v) ↔
      ∃ ind, table.ofTruth? l.natAbs = some ind ∧ ind.glutLiteral.holds v := fun l => by
    simp [Option.any_eq_true]
  rw [Bool.eq_iff_iff]
  simp only [widenGate, Clause.holds, Clause.admitted, List.any_append, any_eraseDups,
    List.any_map, Bool.or_eq_true, List.any_eq_true, List.mem_filterMap, Function.comp_apply,
    admits_variableValue ht hs, hg]
  constructor
  · intro hp
    rcases hp with ⟨l, hl, h⟩ | ⟨ind, ⟨l, hl, hi⟩, h⟩
    · exact ⟨l, hl, Or.inl h⟩
    · exact ⟨l, hl, Or.inr ⟨ind, hi, h⟩⟩
  · intro hp
    obtain ⟨l, hl, h | ⟨ind, hi, h⟩⟩ := hp
    · exact Or.inl ⟨l, hl, h⟩
    · exact Or.inr ⟨ind, ⟨l, hl, hi⟩, h⟩

/-- A clause over signed atoms that are listed, widened. -/
def widenListed (table : IndicatorTable) (c : SignedClause) : Clause :=
  c.map (fun l => (table.ofAtom l.atom).literal l.positive)
    ++ (c.map fun l => (table.ofAtom l.atom).glutLiteral).eraseDups

theorem widenSigned_eq {c : SignedClause}
    (hc : ∀ l ∈ c, table.Lists l.atom) : table.widenSigned c = .ok (table.widenListed c) := by
  have hm : (c.mapM fun a => table.find a.atom) = .ok (c.map fun a => table.ofAtom a.atom) :=
    mapM_eq_ok fun a ha => find_of_lists (hc a ha)
  simp only [widenSigned, widenListed, hm, bind, Except.bind, pure, Except.pure,
    List.zipWith_map_right, List.zipWith_self, List.map_map, Function.comp_def]

/-- **A widened clause over signed atoms** holds just when one of its literals is
admitted. -/
theorem holds_widenListed (ht : table.WellFormed) (hs : table.Single v) {c : SignedClause}
    (hc : ∀ l ∈ c, table.Lists l.atom) :
    (table.widenListed c).holds v = c.admitted (table.reading v) := by
  have ha : ∀ l ∈ c, (table.reading v l.atom).admits l.positive =
      (((table.ofAtom l.atom).literal l.positive).holds v ||
        (table.ofAtom l.atom).glutLiteral.holds v) := fun l hl => by
    have hr := ht.inRange _ (ofAtom_mem ht (hc l hl))
    rw [reading_of_lists (hc l hl), Indicators.admits_value (hs _ (ofAtom_mem ht (hc l hl))),
      Indicators.holds_literal hr, Indicators.holds_glutLiteral hr]
  rw [Bool.eq_iff_iff]
  simp only [widenListed, Clause.holds, SignedClause.admitted, List.any_append, any_eraseDups,
    List.any_map, Bool.or_eq_true, List.any_eq_true, Function.comp_apply]
  constructor
  · intro hp
    rcases hp with ⟨l, hl, h⟩ | ⟨l, hl, h⟩
    · exact ⟨l, hl, by rw [ha l hl, h, Bool.true_or]⟩
    · exact ⟨l, hl, by rw [ha l hl, h, Bool.or_true]⟩
  · intro hp
    obtain ⟨l, hl, h⟩ := hp
    rw [ha l hl, Bool.or_eq_true] at h
    exact h.imp (⟨l, hl, ·⟩) (⟨l, hl, ·⟩)

end IndicatorTable
end LeastGlut
