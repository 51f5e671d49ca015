/-
# What encodings say

The hard clauses of an encoding, with some choice of the gate variables, hold
just when every atom has a single indicator, every formula is designated under
the valuation that the indicators give, and every formula with a glutted atom
is flagged. `IndicatorTable.Projection` says this of a list of clauses about
any property of the first variables, and lists are put together by
`IndicatorTable.Projection.append`.

From normal forms there are no further variables, and the clauses say exactly
this.

Key definitions: `Encoding.Fits`, `KnowledgeBase.identCount`,
`IndicatorTable.Projection`.
-/
import LeastGlut.Proofs.Indicators

namespace LeastGlut

namespace IndicatorTable

/-- The indicators are among the first `n` variables. -/
def Below (table : IndicatorTable) (n : Nat) : Prop :=
  ∀ e ∈ table.entries, ∀ x, Ident.Upto n (e.2.get x)

theorem Below.mono {table : IndicatorTable} {m n : Nat} (hlo : table.Below m) (hmn : m ≤ n) :
    table.Below n := fun e he x => (hlo e he x).mono hmn

theorem below_behind {n : Nat} {atoms : List String} :
    (behind n atoms).Below (n + 3 * atoms.length) := by
  intro e he x
  obtain ⟨k, hk, he⟩ := mem_behind.mp he
  have hlt : k < atoms.length := (List.getElem?_eq_some_iff.mp hk).1
  have hx : x.place < 3 := by cases x <;> decide
  rw [he, Indicators.get_behind]
  exact ⟨by omega, by omega⟩

/-- The clauses range over the first `hi` variables, and an assignment of the first
`lo` in which each atom has a single indicator extends to the others so that they
hold just when it has the property `P`. -/
structure Projection (table : IndicatorTable) (lo hi : Nat) (cs : List Clause)
    (P : (Ident → Bool) → Prop) : Prop where
  le : lo ≤ hi
  below : table.Below lo
  within : ∀ c ∈ cs, c.Within hi
  congr : ∀ v w : Ident → Bool, Agree lo v w → P v → P w
  sound : ∀ v, table.Single v → (∀ c ∈ cs, c.holds v) → P v
  complete : ∀ v, table.Single v → P v →
    ∃ w, Agree lo v w ∧ ∀ c ∈ cs, c.holds w

variable {table : IndicatorTable} {lo mid hi : Nat} {cs ds : List Clause}
  {P Q : (Ident → Bool) → Prop}

theorem single_congr (hlo : table.Below lo) {v w : Ident → Bool}
    (hvw : Agree lo v w) (h : table.Single v) : table.Single w := by
  intro e he
  have hi : ∀ x, w (e.2.get x) = v (e.2.get x) := fun x => hvw _ (hlo e he x)
  have hs := h e he
  simp only [Indicators.single, hi] at hs ⊢
  exact hs

theorem reading_congr (ht : table.WellFormed) (hlo : table.Below lo)
    {v w : Ident → Bool} (hvw : Agree lo v w) :
    table.reading w = table.reading v := by
  funext a
  unfold reading
  cases ha : table.get? a with
  | none => rfl
  | some i =>
    have hi := hlo _ ((get?_eq_some_iff ht).mp ha)
    have hit : w i.t = v i.t := hvw _ (hi .t)
    have hif : w i.f = v i.f := hvw _ (hi .f)
    simp only [Indicators.value, hit, hif]

/-- Two lists of clauses say together what each of them says. -/
theorem Projection.append (h : table.Projection lo mid cs P) (h' : table.Projection mid hi ds Q)
    (hQ : ∀ v w : Ident → Bool, Agree lo v w → Q v → Q w) :
    table.Projection lo hi (cs ++ ds) fun v => P v ∧ Q v where
  le := Nat.le_trans h.le h'.le
  below := h.below
  within c hc := (List.mem_append.mp hc).elim (fun hc => (h.within c hc).mono h'.le) (h'.within c)
  congr v w hvw := And.imp (h.congr v w hvw) (hQ v w hvw)
  sound v hs hc := by
    rw [List.forall_mem_append] at hc
    exact ⟨h.sound v hs hc.1, h'.sound v hs hc.2⟩
  complete v hs hp := by
    obtain ⟨u, hu, hcs⟩ := h.complete v hs hp.1
    obtain ⟨w, hw, hds⟩ := h'.complete u (single_congr h.below hu hs) (hQ v u hu hp.2)
    refine ⟨w, hu.trans (hw.mono h.le), ?_⟩
    rw [List.forall_mem_append]
    -- the first clauses do not see the variables chosen for the others
    exact ⟨fun c hc => by rw [(h.within c hc).holds_congr hw]; exact hcs c hc, hds⟩

/-- Clauses over the first variables alone. -/
theorem Projection.of_holds_iff (hlo : table.Below lo)
    (hw : ∀ c ∈ cs, c.Within lo)
    (hP : ∀ v w : Ident → Bool, Agree lo v w → P v → P w)
    (h : ∀ v, table.Single v → ((∀ c ∈ cs, c.holds v) ↔ P v)) : table.Projection lo lo cs P where
  le := Nat.le_refl lo
  below := hlo
  within := hw
  congr := hP
  sound v hs := (h v hs).mp
  complete v hs hp := ⟨v, fun _ _ => rfl, (h v hs).mpr hp⟩

/-! ### Flags and normal forms -/

/-- What the clauses of a formula are to say: that it is designated, and that its flag
is set when it holds a glutted atom. -/
def Told (table : IndicatorTable) (f : Formula) (flag : Ident) (v : Ident → Bool) : Prop :=
  (f.glutted (table.reading v) → v flag) ∧ (f.eval (table.reading v)).designated

/-- Flags a formula when the atom is a glut. -/
def flagClause (table : IndicatorTable) (flag : Ident) (a : String) : Clause :=
  [.of flag true, .of (table.ofAtom a).b false]

theorem flagClauses_eq {f : Formula} (hf : ∀ a ∈ f.leaves, table.Lists a) (flag : Ident) :
    table.flagClauses flag f = .ok (f.atoms.map (table.flagClause flag)) :=
  mapM_eq_ok fun a ha => by
    rw [find_of_lists (hf a (Formula.mem_atoms.mp ha))]
    rfl

theorem cnfClauses_eq {f : Formula} {cs : List SignedClause} (hcs : f.signedClauses = .ok cs)
    (hl : ∀ c ∈ cs, ∀ l ∈ c, table.Lists l.atom) :
    table.cnfClauses f = .ok (cs.map table.widenListed) := by
  unfold cnfClauses
  rw [hcs]
  exact mapM_eq_ok fun c hc => widenSigned_eq (hl c hc)

section

variable (ht : table.WellFormed) (hlo : table.Below lo) {f : Formula}
  (hf : ∀ a ∈ f.leaves, table.Lists a)

include ht

theorem holds_flagClause {flag : Nat} (hflag : Ident.InRange flag) {v : Ident → Bool}
    (hs : table.Single v) {a : String} (ha : table.Lists a) :
    (table.flagClause flag a).holds v ↔ (table.reading v a = .b → v flag) := by
  have hm := ofAtom_mem ht ha
  have hb : v (table.ofAtom a).b ↔ (table.ofAtom a).value v = .b :=
    Indicators.single_iff.mp (hs _ hm) .b
  rw [reading_of_lists ha, ← hb]
  simp only [flagClause, Clause.holds, List.any_cons, List.any_nil, Literal.holds_of hflag,
    Literal.holds_of (ht.inRange _ hm).b]
  cases v flag <;> cases v (table.ofAtom a).b <;> decide

include hlo in
theorem within_ofAtom {a : String} (ha : table.Lists a) (x : Truth) (p : Bool) :
    Ident.Upto lo (Int.natAbs (Literal.of ((table.ofAtom a).get x) p)) := by
  have hm := ofAtom_mem ht ha
  rw [Literal.natAbs_of (ht.inRange _ hm x)]
  exact hlo _ hm x

include hlo in
theorem within_constraints : ∀ c ∈ table.constraints, c.Within lo := by
  intro c hc l hl
  obtain ⟨e, he, hc⟩ := List.mem_flatMap.mp hc
  have hup : ∀ x p, Ident.Upto lo (Int.natAbs (Literal.of (e.2.get x) p)) := fun x p => by
    rw [Literal.natAbs_of (ht.inRange e he x)]
    exact hlo e he x
  obtain ⟨x, p, hxp⟩ := Indicators.mem_constraints hc hl
  rw [hxp]
  exact hup x p

include hlo in
theorem within_flagClause {flag : Nat} (hflag : Ident.InRange flag) (hle : Ident.Upto lo flag)
    {a : String} (ha : table.Lists a) : (table.flagClause flag a).Within lo := by
  intro l hl
  simp only [flagClause, List.mem_cons, List.not_mem_nil, or_false] at hl
  rcases hl with hl | hl
  · rw [hl, Literal.natAbs_of hflag]
    exact hle
  · rw [hl]
    exact within_ofAtom ht hlo ha .b false

include hlo in
theorem within_widenListed {c : SignedClause} (hc : ∀ l ∈ c, table.Lists l.atom) :
    (table.widenListed c).Within lo := by
  intro l hl
  unfold widenListed at hl
  rw [List.mem_append, List.mem_eraseDups, List.mem_map, List.mem_map] at hl
  rcases hl with ⟨a, ha, rfl⟩ | ⟨a, ha, rfl⟩
  · rw [Indicators.literal_eq]
    exact within_ofAtom ht hlo (hc a ha) _ true
  · exact within_ofAtom ht hlo (hc a ha) .b true

include hlo hf in
/-- The clauses of a flag say that it is set when the formula holds a glutted atom. -/
theorem projection_flagClauses {flag : Nat} (hflag : Ident.InRange flag)
    (hle : Ident.Upto lo flag) :
    table.Projection lo lo (f.atoms.map (table.flagClause flag))
      fun v => f.glutted (table.reading v) → v flag := by
  refine .of_holds_iff hlo ?_ ?_ fun v hs => ?_
  · simp only [List.forall_mem_map, Formula.mem_atoms]
    exact fun a ha => within_flagClause ht hlo hflag hle (hf a ha)
  · intro v w hvw h hg
    rw [reading_congr ht hlo hvw] at hg
    rw [hvw flag hle]
    exact h hg
  · simp only [List.forall_mem_map, Formula.mem_atoms, Formula.glutted_iff]
    constructor
    · rintro h ⟨a, ha, hb⟩
      exact (holds_flagClause ht hflag hs (hf a ha)).mp (h a ha) hb
    · exact fun h a ha => (holds_flagClause ht hflag hs (hf a ha)).mpr fun hb => h ⟨a, ha, hb⟩

include hlo hf in
/-- **The clauses of a normal form** say that the formula is designated. -/
theorem exists_cnfClauses : ∃ cs, table.cnfClauses f = .ok cs ∧
    table.Projection lo lo cs fun v => (f.eval (table.reading v)).designated := by
  obtain ⟨cs, hcs, hd, hm⟩ := f.exists_signedClauses
  have hl : ∀ c ∈ cs, ∀ l ∈ c, table.Lists l.atom := fun c hc l hl => hf _ (hm c hc l hl)
  refine ⟨cs.map table.widenListed, cnfClauses_eq hcs hl, .of_holds_iff hlo ?_ ?_ fun v hs => ?_⟩
  · simp only [List.forall_mem_map]
    exact fun c hc => within_widenListed ht hlo (hl c hc)
  · intro v w hvw h
    rw [reading_congr ht hlo hvw]
    exact h
  · rw [hd, List.all_eq_true, List.forall_mem_map]
    exact forall₂_congr fun c hc => by rw [holds_widenListed ht hs (hl c hc)]

end

theorem Projection.nil (hlo : table.Below lo) : table.Projection lo lo [] fun _ => True :=
  .of_holds_iff hlo (by simp) (fun _ _ _ => id) (by simp)

theorem Projection.of_iff (h : table.Projection lo hi cs P) (hPQ : ∀ v, P v ↔ Q v) :
    table.Projection lo hi cs Q := by
  rwa [← funext fun v => propext (hPQ v)]

theorem told_congr (ht : table.WellFormed) (hlo : table.Below lo) {f : Formula} {flag : Nat}
    (hle : Ident.Upto lo flag) {v w : Ident → Bool} (hvw : Agree lo v w)
    (h : table.Told f flag v) : table.Told f flag w := by
  unfold Told
  rw [reading_congr ht hlo hvw, hvw flag hle]
  exact h

/-- Formulas over listed atoms, with flags among the first `lo` variables. -/
def Numbered (table : IndicatorTable) (lo : Nat) (p : Formula × Ident) : Prop :=
  Ident.InRange p.2 ∧ Ident.Upto lo p.2 ∧ ∀ a ∈ p.1.leaves, table.Lists a

end IndicatorTable

namespace KnowledgeBase

open IndicatorTable

/-- Formulas over listed atoms have clauses, whether or not these have literals. -/
theorem cnfHard_succeeds {table : IndicatorTable} {numbered : List (Formula × Ident)}
    (hn : ∀ p ∈ numbered, ∀ a ∈ p.1.leaves, table.Lists a) :
    ∃ cs, cnfHard table numbered = .ok cs := by
  induction numbered with
  | nil => exact ⟨[], rfl⟩
  | cons p numbered ih =>
    obtain ⟨f, flag⟩ := p
    obtain ⟨hf, hrest⟩ := List.forall_mem_cons.mp hn
    obtain ⟨cs, hcs, -, hm⟩ := f.exists_signedClauses
    have hclauses : table.cnfClauses f = .ok (cs.map table.widenListed) :=
      cnfClauses_eq hcs fun c hc l hl => hf _ (hm c hc l hl)
    obtain ⟨rest, hrest⟩ := ih hrest
    simp only [cnfHard, flagClauses_eq hf, hclauses, hrest]
    exact ⟨_, rfl⟩

theorem exists_cnfHard {table : IndicatorTable} {lo : Nat} (ht : table.WellFormed)
    (hlo : table.Below lo) {numbered : List (Formula × Ident)}
    (hn : ∀ p ∈ numbered, table.Numbered lo p) : ∃ cs, cnfHard table numbered = .ok cs ∧
      table.Projection lo lo cs fun v => ∀ p ∈ numbered, table.Told p.1 p.2 v := by
  induction numbered with
  | nil => exact ⟨[], rfl, (Projection.nil hlo).of_iff (by simp)⟩
  | cons p numbered ih =>
    obtain ⟨f, flag⟩ := p
    obtain ⟨hflag, hle, hf⟩ := hn _ List.mem_cons_self
    obtain ⟨rest, hrest, hr⟩ := ih fun p hp => hn p (List.mem_cons_of_mem _ hp)
    obtain ⟨cs, hcs, hc⟩ := exists_cnfClauses ht hlo hf
    have hfs := projection_flagClauses ht hlo hf hflag hle
    have hall : cnfHard table ((f, flag) :: numbered) =
        .ok (f.atoms.map (table.flagClause flag) ++ cs ++ rest) := by
      simp only [cnfHard, flagClauses_eq hf, hcs, hrest]
      rfl
    refine ⟨_, hall, ?_⟩
    refine ((hfs.append hc hc.congr).append hr hr.congr).of_iff fun v => ?_
    rw [List.forall_mem_cons]
    rfl

/-! ### Knowledge bases -/

/-- The indicators of the atoms, behind no other identifiers. -/
def table (kb : KnowledgeBase) : IndicatorTable := .behind 0 kb.atoms

/-- How many identifiers stand for atoms and formulas. -/
def namedCount (kb : KnowledgeBase) : Nat := 3 * kb.atoms.length + kb.size

/-- The flags of the formulas, behind the indicators. -/
def flags (kb : KnowledgeBase) : List Ident :=
  (List.range kb.size).map (3 * kb.atoms.length + · + 1)

end KnowledgeBase

/-- The number of nodes that are no atoms. -/
def Formula.compounds : Formula → Nat
  | .atom _ => 0
  | .verum => 1
  | .falsum => 1
  | .not inner => inner.compounds + 1
  | .binary _ lhs rhs => lhs.compounds + rhs.compounds + 1

namespace KnowledgeBase

/-- How many identifiers an encoding uses. -/
def identCount (kb : KnowledgeBase) : ClauseForm → Nat
  | .naive => kb.namedCount
  | .tseitin => kb.namedCount + (kb.formulas.map Formula.compounds).sum

theorem namedCount_le (kb : KnowledgeBase) (form : ClauseForm) :
    kb.namedCount ≤ kb.identCount form := by
  cases form
  · exact Nat.le_refl _
  · exact Nat.le_add_right _ _

theorem namedCount_lt {kb : KnowledgeBase} {form : ClauseForm} {n : Nat}
    (h : kb.identCount form < n) : kb.namedCount < n := Nat.lt_of_le_of_lt (kb.namedCount_le form) h

theorem nodup_atoms (kb : KnowledgeBase) : kb.atoms.Nodup := nodup_eraseDups _

theorem allocate_atoms (kb : KnowledgeBase) :
    IndicatorTable.allocate .empty kb.atoms = (kb.table, ⟨3 * kb.atoms.length⟩) := by
  unfold Supply.empty
  rw [IndicatorTable.allocate_eq, eraseDups_of_nodup kb.nodup_atoms, Nat.zero_add]
  rfl

/-- The encoding with the clauses `hard` behind the constraints of the atoms. -/
def encodingOf (kb : KnowledgeBase) (form : ClauseForm) (hard : List Clause) : Encoding :=
  ⟨form, ⟨kb.table.constraints ++ hard, kb.flags.map fun flag => ([Literal.of flag false], 1),
    kb.identCount form⟩, kb.table, kb.flags⟩

theorem map_fst_entries (kb : KnowledgeBase) : kb.table.entries.map (·.1) = kb.atoms :=
  IndicatorTable.map_fst_behind 0 kb.atoms

/-- The clauses of the formulas in either form, and the supply behind them. -/
def formulaHard (kb : KnowledgeBase) : ClauseForm → Except EncodeError (List Clause × Supply)
  | .naive => (cnfHard kb.table (kb.formulas.zip kb.flags)).map (·, ⟨kb.namedCount⟩)
  | .tseitin => gateHard kb.table (kb.formulas.zip kb.flags) ⟨kb.namedCount⟩

theorem encode_eq (kb : KnowledgeBase) (form : ClauseForm) : kb.encode form =
    (kb.formulaHard form).map fun r => ⟨form, ⟨kb.table.constraints ++ r.1,
      kb.flags.map fun flag => ([Literal.of flag false], 1), r.2.issued⟩, kb.table, kb.flags⟩ := by
  unfold encode
  rw [allocate_atoms]
  cases form with
  | naive =>
    unfold formulaHard
    cases hh : cnfHard kb.table (kb.formulas.zip kb.flags) <;>
    · change (cnfHard kb.table (kb.formulas.zip kb.flags)).map (·, Supply.mk kb.namedCount) >>= _ = _
      rw [hh]
      rfl
  | tseitin =>
    unfold formulaHard
    cases hh : gateHard kb.table (kb.formulas.zip kb.flags) ⟨kb.namedCount⟩ <;>
    · change gateHard kb.table (kb.formulas.zip kb.flags) ⟨kb.namedCount⟩ >>= _ = _
      rw [hh]
      rfl

/-- Whatever the clauses of the formulas, the table, the flags and the soft clauses of an
encoding are those of the knowledge base. -/
theorem exists_eq_of_encode {kb : KnowledgeBase} {form : ClauseForm} {e : Encoding}
    (he : kb.encode form = .ok e) : ∃ hard n, e = ⟨form, ⟨kb.table.constraints ++ hard,
      kb.flags.map fun flag => ([Literal.of flag false], 1), n⟩, kb.table, kb.flags⟩ := by
  rw [encode_eq] at he
  cases hh : kb.formulaHard form with
  | error failure =>
    rw [hh] at he
    cases he
  | ok r =>
    rw [hh] at he
    exact ⟨r.1, r.2.issued, (Except.ok.inj he).symm⟩

theorem atoms_of_encode {kb : KnowledgeBase} {form : ClauseForm} {e : Encoding}
    (he : kb.encode form = .ok e) : e.atoms = kb.table := by
  obtain ⟨hard, n, rfl⟩ := exists_eq_of_encode he
  rfl

/-- The soft clauses are of the flags alone, so the same in either form. -/
theorem soft_of_encode {kb : KnowledgeBase} {form : ClauseForm} {e : Encoding}
    (he : kb.encode form = .ok e) :
    e.clauses.soft = kb.flags.map fun flag => ([Literal.of flag false], 1) := by
  obtain ⟨hard, n, rfl⟩ := exists_eq_of_encode he
  rfl

theorem encode_naive {kb : KnowledgeBase} {hard : List Clause}
    (h : cnfHard kb.table (kb.formulas.zip kb.flags) = .ok hard) :
    kb.encode .naive = .ok (kb.encodingOf .naive hard) := by
  rw [encode_eq, formulaHard, h]
  rfl

theorem mem_flags {kb : KnowledgeBase} {flag : Ident} :
    flag ∈ kb.flags ↔ ∃ id, id < kb.size ∧ flag = 3 * kb.atoms.length + id + 1 := by
  simp only [flags, List.mem_map, List.mem_range, eq_comm]

theorem upto_of_mem_flags {kb : KnowledgeBase} {flag : Nat} (h : flag ∈ kb.flags) :
    Ident.Upto kb.namedCount flag := by
  obtain ⟨id, hid, rfl⟩ := mem_flags.mp h
  unfold namedCount
  exact ⟨by omega, by omega⟩

theorem getElem?_flags {kb : KnowledgeBase} {id : Nat} (h : id < kb.size) :
    kb.flags[id]? = some (3 * kb.atoms.length + id + 1) := by
  simp [flags, h]

theorem getElem?_zip_flags {kb : KnowledgeBase} {id : Nat} {f : Formula}
    (h : kb.formulas[id]? = some f) :
    (kb.formulas.zip kb.flags)[id]? = some (f, 3 * kb.atoms.length + id + 1) := by
  rw [List.getElem?_zip_eq_some, getElem?_flags (List.getElem?_eq_some_iff.mp h).1]
  exact ⟨h, rfl⟩

section

variable {kb : KnowledgeBase}

theorem lists_table {a : String} : kb.table.Lists a ↔ a ∈ kb.atoms := IndicatorTable.lists_behind

theorem below_table : kb.table.Below kb.namedCount := by
  refine IndicatorTable.below_behind.mono ?_
  unfold namedCount
  omega

theorem separate_table (kb : KnowledgeBase) : kb.table.Separate :=
  IndicatorTable.separate_behind kb.nodup_atoms

theorem wellFormed_table (h : kb.namedCount < 2 ^ 31) : kb.table.WellFormed := by
  refine IndicatorTable.wellFormed_behind kb.nodup_atoms ?_
  unfold namedCount at h
  omega

theorem lists_of_mem_zip {p : Formula × Ident} (hp : p ∈ kb.formulas.zip kb.flags) :
    ∀ a ∈ p.1.leaves, kb.table.Lists a := fun _ ha =>
  lists_table.mpr (mem_atoms.mpr ⟨p.1, (List.of_mem_zip hp).1, ha⟩)

theorem numbered_zip (h : kb.namedCount < 2 ^ 31) {p : Formula × Ident}
    (hp : p ∈ kb.formulas.zip kb.flags) : kb.table.Numbered kb.namedCount p := by
  have hup := upto_of_mem_flags (List.of_mem_zip hp).2
  exact ⟨hup.inRange h, hup, lists_of_mem_zip hp⟩

end

end KnowledgeBase

/-! ### Assignments that fit -/

namespace Encoding

/-- The variables that stand for atoms and formulas. -/
def named (e : Encoding) : List Ident :=
  e.atoms.entries.flatMap (fun p => Truth.all.map p.2.get) ++ e.flags

/-- Every atom has exactly one indicator set, every formula is designated under the
valuation that the indicators give, and every formula with a glutted atom is flagged. -/
structure Fits (e : Encoding) (kb : KnowledgeBase) (v : Ident → Bool) : Prop where
  single : ∀ a ∈ kb.atoms, ∃ i, e.atoms.get? a = some i ∧ i.single v
  designated : kb.Designates (e.atoms.reading v)
  flagged : ∀ (id : Nat) (f : Formula), kb.formulas[id]? = some f → f.glutted (e.atoms.reading v) →
    ∃ flag, e.flags[id]? = some flag ∧ v flag

end Encoding

namespace KnowledgeBase

variable {kb : KnowledgeBase} {form : ClauseForm} {hard : List Clause} {v : Ident → Bool}

theorem fits_iff (h : kb.namedCount < 2 ^ 31) : (kb.encodingOf form hard).Fits kb v ↔
    kb.table.Single v ∧ ∀ p ∈ kb.formulas.zip kb.flags, kb.table.Told p.1 p.2 v := by
  have ht := wellFormed_table h
  constructor
  · intro hv
    refine ⟨fun e he => ?_, fun p hp => ?_⟩
    · obtain ⟨i, hi, hs⟩ := hv.single e.1 (lists_table.mp ⟨e.2, he⟩)
      obtain rfl : e.2 = i :=
        Option.some_inj.mp (((IndicatorTable.get?_eq_some_iff ht).mpr he).symm.trans hi)
      exact hs
    · obtain ⟨id, hid⟩ := List.mem_iff_getElem?.mp hp
      obtain ⟨hf, hflag⟩ := List.getElem?_zip_eq_some.mp hid
      refine ⟨fun hg => ?_, hv.designated p.1 (List.mem_of_getElem? hf)⟩
      obtain ⟨flag, hl, hset⟩ := hv.flagged id p.1 hf hg
      rwa [← Option.some_inj.mp (hl.symm.trans hflag)]
  · intro hw
    obtain ⟨hs, hp⟩ := hw
    refine ⟨fun a ha => ?_, fun f hf => ?_, fun id f hf hg => ?_⟩
    · have hl := lists_table.mpr ha
      exact ⟨_, IndicatorTable.get?_of_lists hl, hs _ (IndicatorTable.ofAtom_mem ht hl)⟩
    · obtain ⟨id, hid⟩ := List.mem_iff_getElem?.mp hf
      exact (hp _ (List.mem_of_getElem? (getElem?_zip_flags hid))).2
    · exact ⟨_, getElem?_flags (List.getElem?_eq_some_iff.mp hf).1,
        (hp _ (List.mem_of_getElem? (getElem?_zip_flags hf))).1 hg⟩

theorem flags_eq (kb : KnowledgeBase) :
    kb.flags = List.range' (3 * kb.atoms.length + 1) kb.size := by
  unfold flags
  rw [List.range'_eq_map_range]
  exact List.map_congr_left fun id _ => Nat.add_right_comm _ id 1

/-- **Indicators and flags** take up the first identifiers without a gap. -/
theorem named_encodingOf :
    (kb.encodingOf form hard).named = List.range' 1 kb.namedCount := by
  show kb.table.entries.flatMap (fun e => Truth.all.map e.2.get) ++ kb.flags = _
  rw [table, IndicatorTable.indicators_behind, flags_eq, Nat.zero_add, Nat.add_comm _ 1,
    List.range'_append_1, namedCount]

theorem mem_named {i : Nat} :
    i ∈ (kb.encodingOf form hard).named ↔ Ident.Upto kb.namedCount i := by
  rw [named_encodingOf, List.mem_range'_1]
  unfold Ident.Upto
  omega

/-- **The hard clauses, with some choice of the gate variables, hold just when the
assignment fits.** -/
theorem exists_holds_iff_fits (h : kb.namedCount < 2 ^ 31) {hi : Nat}
    (hp : kb.table.Projection kb.namedCount hi hard
      fun v => ∀ p ∈ kb.formulas.zip kb.flags, kb.table.Told p.1 p.2 v) :
    (∃ w, Agree kb.namedCount v w ∧ ∀ c ∈ (kb.encodingOf form hard).clauses.hard, c.holds w) ↔
      (kb.encodingOf form hard).Fits kb v := by
  have ht := wellFormed_table h
  have hc : ∀ w, (∀ c ∈ (kb.encodingOf form hard).clauses.hard, c.holds w) ↔
      kb.table.Single w ∧ ∀ c ∈ hard, c.holds w := fun w => by
    rw [← IndicatorTable.holds_constraints_iff ht, ← List.forall_mem_append]
    rfl
  rw [fits_iff h]
  constructor
  · intro hq
    obtain ⟨w, hw, hh⟩ := hq
    obtain ⟨hs, hh⟩ := (hc w).mp hh
    have hw' : Agree kb.namedCount w v := fun i hi => (hw i hi).symm
    exact ⟨IndicatorTable.single_congr below_table hw' hs, hp.congr w v hw' (hp.sound w hs hh)⟩
  · intro hq
    obtain ⟨hs, hv⟩ := hq
    obtain ⟨w, hw, hh⟩ := hp.complete v hs hv
    exact ⟨w, hw, (hc w).mpr ⟨IndicatorTable.single_congr below_table hw hs, hh⟩⟩

/-- **The hard clauses from normal forms** hold just when the assignment fits. -/
theorem encode_naive_holds_iff_fits (kb : KnowledgeBase) (h : kb.identCount .naive < 2 ^ 31) :
    ∃ e, kb.encode .naive = .ok e ∧ e.clauses.varCount = kb.identCount .naive ∧
      ∀ v, (∀ c ∈ e.clauses.hard, c.holds v) ↔ e.Fits kb v := by
  have hn := Nat.lt_of_le_of_lt (kb.namedCount_le .naive) h
  have ht := wellFormed_table hn
  obtain ⟨hard, hh, hp⟩ := exists_cnfHard ht below_table (fun p hp => numbered_zip hn hp)
  refine ⟨kb.encodingOf .naive hard, encode_naive hh, rfl, fun v => ?_⟩
  rw [← exists_holds_iff_fits hn hp]
  constructor
  · exact fun hv => ⟨v, fun _ _ => rfl, hv⟩
  · intro hs
    obtain ⟨w, hw, hc⟩ := hs
    -- every variable is an indicator or a flag, so there is nothing to choose
    have hwithin : ∀ c ∈ (kb.encodingOf .naive hard).clauses.hard, c.Within kb.namedCount := by
      refine List.forall_mem_append.mpr ⟨?_, hp.within⟩
      exact IndicatorTable.within_constraints ht below_table
    intro c hm
    rw [← (hwithin c hm).holds_congr hw]
    exact hc c hm

theorem encode_naive_holds_iff_fits_conflict :
    let kb : KnowledgeBase := ⟨[.or (.atom "A") .verum, .atom "B", .not (.atom "B")]⟩
    kb.identCount .naive < 2 ^ 31 ∧
      ∃ e, kb.encode .naive = .ok e ∧ e.clauses.varCount = 9 ∧
        ∀ v, (∀ c ∈ e.clauses.hard, c.holds v) ↔ e.Fits kb v :=
  ⟨by decide, encode_naive_holds_iff_fits _ (by decide)⟩

end KnowledgeBase
end LeastGlut
