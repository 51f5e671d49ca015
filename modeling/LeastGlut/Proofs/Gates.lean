/-
# What gates say

Clauses that name a glutted atom are widened until they say nothing, so a gate
variable over a glut is no longer defined by its gate. What is left is a
relation: the clauses of a gate hold just when its variable is a Boolean that
the gate's value admits (`Gate.all_admitted_clauses`). By induction on the
formula, the variable of its root can only be a Boolean that the value of the
formula admits, and for each such Boolean the gate variables can be chosen so
that it is that Boolean (`IndicatorTable.Represents`,
`IndicatorTable.represents_auxiliaries`). Every compound has a variable of its
own, so the choices below it do not get in each other's way.

So the hard clauses from gates say what those from normal forms say, at any
depth.

Key definitions: `Gate.value`, `Gate.OverVariables`, `IndicatorTable.Represents`.
-/
import LeastGlut.Proofs.Auxiliaries

namespace LeastGlut

/-! ### One gate -/

theorem Clause.admitted_cons_of {i : Nat} (h : Ident.InRange i) (value : Ident → Truth) (p : Bool)
    (c : Clause) : Clause.admitted value (Literal.of i p :: c) =
      ((value i).admits p || Clause.admitted value c) := by
  unfold Clause.admitted
  rw [List.any_cons, Literal.natAbs_of h]
  congr 2
  simp [Literal.of_pos_iff h]

namespace Gate

/-- The value of a gate from those of its operands. -/
def value (value : Ident → Truth) : Gate → Truth
  | const p => .ofBool p
  | not a => (value a.natAbs).neg
  | binary op a b => op.apply (value a.natAbs) (value b.natAbs)

/-- The literals that a gate reads. -/
def operands : Gate → List Literal
  | const _ => []
  | not a => [a]
  | binary _ a b => [a, b]

/-- The operands are variables among the first `n`, taken positive. -/
def OverVariables (n : Nat) (g : Gate) : Prop :=
  ∀ a ∈ g.operands, ∃ i, Ident.Upto n i ∧ a = Literal.of i true

theorem value_congr {x y : Ident → Truth} {g : Gate}
    (h : ∀ a ∈ g.operands, x a.natAbs = y a.natAbs) : g.value x = g.value y := by
  cases g with
  | const q => rfl
  | not a => simp only [value, h a List.mem_cons_self]
  | binary op a b =>
    simp only [value, h a List.mem_cons_self, h b (List.mem_cons_of_mem _ List.mem_cons_self)]

theorem flip_of_true (i : Ident) : (Literal.of i true).flip = Literal.of i false := by
  simp only [Literal.of, if_true, Bool.false_eq_true, if_false]

/-- **The clauses of a gate** are admitted just when the value of the gate admits its
variable. -/
theorem all_admitted_clauses {n : Nat} (hn : n + 1 < 2 ^ 31) {g : Gate} (hg : g.OverVariables n)
    {val : Ident → Truth} {p : Bool} (hp : val (n + 1) = .ofBool p) :
    (g.clauses (Literal.of (n + 1) true)).all (Clause.admitted val) = (g.value val).admits p := by
  have hr : ∀ i, Ident.Upto n i → Ident.InRange i := fun i hi =>
    hi.inRange (Nat.lt_of_succ_lt hn)
  have ht : Ident.InRange (n + 1) := ⟨by omega, hn⟩
  have hnil : Clause.admitted val [] = false := rfl
  cases g with
  | const q =>
    cases q <;>
      simp only [clauses, flip_of_true, List.all_cons, List.all_nil, Clause.admitted_cons_of ht,
        hnil, hp, value] <;>
      cases p <;> rfl
  | not a =>
    obtain ⟨i, hi, ha⟩ := hg a List.mem_cons_self
    simp only [ha, clauses, flip_of_true, List.all_cons, List.all_nil, Clause.admitted_cons_of ht,
      Clause.admitted_cons_of (hr i hi), hnil, hp, value, Literal.natAbs_of (hr i hi)]
    cases val i <;> cases p <;> rfl
  | binary op a b =>
    obtain ⟨i, hi, ha⟩ := hg a List.mem_cons_self
    obtain ⟨j, hj, hb⟩ := hg b (List.mem_cons_of_mem _ List.mem_cons_self)
    cases op <;>
      simp only [ha, hb, clauses, flip_of_true, List.all_cons, List.all_nil,
        Clause.admitted_cons_of ht, Clause.admitted_cons_of (hr i hi),
        Clause.admitted_cons_of (hr j hj), hnil, hp, value, Literal.natAbs_of (hr i hi),
        Literal.natAbs_of (hr j hj)] <;>
      cases val i <;> cases val j <;> cases p <;> rfl

theorem mem_clauses {v l : Literal} {g : Gate} {c : Clause} (hc : c ∈ g.clauses v) (hl : l ∈ c) :
    l = v ∨ l = v.flip ∨ ∃ a ∈ g.operands, l = a ∨ l = a.flip := by
  cases g with
  | const q =>
    cases q <;> simp only [clauses, List.mem_singleton] at hc <;> simp_all
  | not a =>
    simp only [clauses, List.mem_cons, List.not_mem_nil, or_false] at hc
    rcases hc with rfl | rfl <;> simp only [List.mem_cons, List.not_mem_nil, or_false] at hl <;>
      simp only [operands, List.mem_singleton, exists_eq_left] <;> tauto
  | binary op a b =>
    simp only [operands, List.mem_cons, List.not_mem_nil, or_false, exists_eq_or_imp,
      exists_eq_left]
    cases op <;> simp only [clauses, List.mem_cons, List.not_mem_nil, or_false] at hc <;>
      rcases hc with rfl | rfl | rfl | rfl | rfl <;>
      simp only [List.mem_cons, List.not_mem_nil, or_false] at hl <;> tauto

/-- The clauses of a gate are over its operands and its variable. -/
theorem within_clauses {n : Nat} (hn : n + 1 < 2 ^ 31) {g : Gate} (hg : g.OverVariables n)
    {c : Clause} (hc : c ∈ g.clauses (Literal.of (n + 1) true)) : c.Within (n + 1) := by
  have hup : ∀ i, Ident.Upto (n + 1) i → ∀ p, Ident.Upto (n + 1) (Int.natAbs (Literal.of i p)) :=
    fun i hi p => by
      rw [Literal.natAbs_of (hi.inRange hn)]
      exact hi
  have htop : Ident.Upto (n + 1) (n + 1) := ⟨Nat.succ_pos n, Nat.le_refl _⟩
  intro l hl
  rcases mem_clauses hc hl with h | h | ⟨a, ha, h⟩
  · rw [h]
    exact hup _ htop true
  · rw [h, flip_of_true]
    exact hup _ htop false
  · obtain ⟨i, hi, hai⟩ := hg a ha
    rcases h with h | h
    · rw [h, hai]
      exact hup i (hi.mono (Nat.le_succ n)) true
    · rw [h, hai, flip_of_true]
      exact hup i (hi.mono (Nat.le_succ n)) false

end Gate

namespace IndicatorTable

variable {table : IndicatorTable} {n m : Nat} {v w : Ident → Bool} {f : Formula}

/-! ### Values of variables -/

theorem variableValue_atom (ht : table.WellFormed) {a : String} (ha : table.Lists a) :
    table.variableValue v (table.ofAtom a).t = table.reading v a := by
  rw [variableValue, (ofTruth?_eq_some_iff ht).mpr ⟨a, ofAtom_mem ht ha, rfl⟩,
    reading_of_lists ha]

theorem variableValue_fresh (ht : table.WellFormed) (hlo : table.Below n) :
    table.variableValue v (n + 1) = .ofBool (v (n + 1)) := by
  unfold variableValue
  cases hi : table.ofTruth? (n + 1) with
  | none => rfl
  | some ind =>
    obtain ⟨a, ha, hind⟩ := (ofTruth?_eq_some_iff ht).mp hi
    have hle : ind.t ≤ n := (hlo _ ha .t).2
    rw [hind] at hle
    exact absurd hle (Nat.not_succ_le_self n)

theorem variableValue_congr (ht : table.WellFormed) (hlo : table.Below n) (hvw : Agree n v w)
    {i : Nat} (hi : Ident.Upto n i) : table.variableValue w i = table.variableValue v i := by
  unfold variableValue
  cases ho : table.ofTruth? i with
  | none => exact congrArg Truth.ofBool (hvw i hi)
  | some ind =>
    obtain ⟨a, ha, -⟩ := (ofTruth?_eq_some_iff ht).mp ho
    have hit : w ind.t = v ind.t := hvw _ (hlo _ ha .t)
    have hif : w ind.f = v ind.f := hvw _ (hlo _ ha .f)
    simp only [Indicators.value, hit, hif]

theorem admitted_congr (ht : table.WellFormed) (hlo : table.Below n) (hvw : Agree n v w)
    {c : Clause} (hc : c.Within n) :
    c.admitted (table.variableValue w) = c.admitted (table.variableValue v) := by
  rw [Bool.eq_iff_iff, Clause.admitted, Clause.admitted, List.any_eq_true, List.any_eq_true]
  refine exists_congr fun l => and_congr_right fun hl => ?_
  rw [variableValue_congr ht hlo hvw (hc l hl)]

theorem within_widenGate (ht : table.WellFormed) (hlo : table.Below n) {c : Clause}
    (hc : c.Within n) : (table.widenGate c).Within n := by
  have hof : ∀ {i ind} x, table.ofTruth? i = some ind →
      Ident.Upto n (Int.natAbs (Literal.of (ind.get x) true)) := fun x hi => by
    obtain ⟨a, ha, -⟩ := (ofTruth?_eq_some_iff ht).mp hi
    rw [Literal.natAbs_of (ht.inRange _ ha x)]
    exact hlo _ ha x
  intro l hl
  unfold widenGate at hl
  rw [List.mem_append, List.mem_eraseDups, List.mem_map, List.mem_map] at hl
  rcases hl with ⟨k, hk, hl⟩ | ⟨ind, hind, hl⟩
  · rw [← hl]
    cases hi : table.ofTruth? k.natAbs with
    | none => exact hc k hk
    | some ind =>
      simp only [Indicators.literal_eq]
      exact hof _ hi
  · obtain ⟨k, -, hi⟩ := List.mem_filterMap.mp hind
    rw [← hl]
    exact hof .b hi

/-! ### Gates of a formula -/

/-- Clauses over the variables up to `m`, those up to `n` being given, leave to a value
only Booleans that the formula admits, and leave each of these for some choice of the
other variables. -/
structure Represents (table : IndicatorTable) (n m : Nat) (cs : List Clause)
    (value : (Ident → Bool) → Truth) (f : Formula) : Prop where
  le : n ≤ m
  within : ∀ c ∈ cs, c.Within m
  sound : ∀ v, table.Single v → (∀ c ∈ cs, c.admitted (table.variableValue v)) →
    ∀ p, (value v).admits p → (f.eval (table.reading v)).admits p
  complete : ∀ v, table.Single v → ∀ p, (f.eval (table.reading v)).admits p →
    ∃ w, Agree n v w ∧ (∀ c ∈ cs, c.admitted (table.variableValue w)) ∧ (value w).admits p

/-- Without clauses a value has to be that of the formula. -/
theorem Represents.of_eq {value : (Ident → Bool) → Truth}
    (h : ∀ v, value v = f.eval (table.reading v)) : table.Represents n n [] value f where
  le := Nat.le_refl n
  within := by simp
  sound v _ _ p := by
    rw [h]
    exact id
  complete v _ p hp := ⟨v, fun _ _ => rfl, by simp, by rwa [h]⟩

section

variable (ht : table.WellFormed) (hlo : table.Below n)

include ht hlo

/-- A gate on top of clauses that represent its value. -/
theorem Represents.extend {below : List Clause} {g : Gate} (hg : g.OverVariables m)
    (hm : m + 1 < 2 ^ 31)
    (h : table.Represents n m below (fun v => g.value (table.variableValue v)) f) :
    table.Represents n (m + 1) (below ++ g.clauses (Literal.of (m + 1) true))
      (fun v => table.variableValue v (m + 1)) f where
  le := Nat.le_succ_of_le h.le
  within c hc := (List.mem_append.mp hc).elim (fun hc => (h.within c hc).mono (Nat.le_succ m))
    (Gate.within_clauses hm hg)
  sound v hs hc p hp := by
    rw [List.forall_mem_append] at hc
    refine h.sound v hs hc.1 p ?_
    have hv := variableValue_fresh (v := v) ht (hlo.mono h.le)
    rw [hv, Truth.admits_ofBool, beq_iff_eq] at hp
    rw [hp] at hv
    rw [← Gate.all_admitted_clauses hm hg hv, List.all_eq_true]
    exact hc.2
  complete v hs p hp := by
    obtain ⟨u, hu, hc, hval⟩ := h.complete v hs p hp
    -- the variable of the gate is the next one, so nothing below sees its choice
    let w := fun i => if i = m + 1 then p else u i
    have hw : Agree m u w := fun i hi => if_neg fun h => by
      obtain ⟨-, hle⟩ := hi
      omega
    have hv : table.variableValue w (m + 1) = .ofBool p := by
      rw [variableValue_fresh ht (hlo.mono h.le)]
      exact congrArg Truth.ofBool (if_pos rfl)
    have hgv : g.value (table.variableValue w) = g.value (table.variableValue u) := by
      apply Gate.value_congr
      intro a ha
      obtain ⟨i, hi, hai⟩ := hg a ha
      rw [hai, Literal.natAbs_of (hi.inRange (by omega))]
      exact variableValue_congr ht (hlo.mono h.le) hw hi
    refine ⟨w, hu.trans (hw.mono h.le), ?_, by rw [hv, Truth.admits_ofBool, beq_self_eq_true]⟩
    rw [List.forall_mem_append]
    constructor
    · intro c hmem
      rw [admitted_congr ht (hlo.mono h.le) hw (h.within c hmem)]
      exact hc c hmem
    · rw [← List.all_eq_true, Gate.all_admitted_clauses hm hg hv, hgv]
      exact hval

/-- A connective over two operands, each with variables of its own. -/
theorem Represents.binary {l r : Formula} {cs ds : List Clause} {k i j : Nat} (op : Connective)
    (hi : Ident.Upto m i) (h : table.Represents n m cs (fun v => table.variableValue v i) l)
    (h' : table.Represents m k ds (fun v => table.variableValue v j) r) :
    table.Represents n k (cs ++ ds)
      (fun v => op.apply (table.variableValue v i) (table.variableValue v j))
      (.binary op l r) where
  le := Nat.le_trans h.le h'.le
  within c hc := (List.mem_append.mp hc).elim (fun hc => (h.within c hc).mono h'.le) (h'.within c)
  sound v hs hc p := by
    rw [List.forall_mem_append] at hc
    exact Connective.admits_apply_mono (h.sound v hs hc.1) (h'.sound v hs hc.2)
  complete v hs p hp := by
    obtain ⟨q, q', hq, hq', hop⟩ := (Connective.admits_apply op _ _ p).mp hp
    obtain ⟨u, hu, hcs, hval⟩ := h.complete v hs q hq
    rw [← reading_congr ht hlo hu] at hq'
    obtain ⟨w, hw, hds, hval'⟩ := h'.complete u (single_congr hlo hu hs) q' hq'
    have hm := hlo.mono h.le
    refine ⟨w, hu.trans (hw.mono h.le), ?_, ?_⟩
    · rw [List.forall_mem_append]
      refine ⟨fun c hc => ?_, hds⟩
      rw [admitted_congr ht hm hw (h.within c hc)]
      exact hcs c hc
    · refine (Connective.admits_apply op _ _ p).mpr ⟨q, q', ?_, hval', hop⟩
      rw [variableValue_congr ht hm hw hi]
      exact hval

end

theorem Represents.not {cs : List Clause} {i : Nat}
    (h : table.Represents n m cs (fun v => table.variableValue v i) f) :
    table.Represents n m cs (fun v => (table.variableValue v i).neg) (.not f) where
  le := h.le
  within := h.within
  sound v hs hc p hp := by
    rw [Truth.admits_neg] at hp
    unfold Formula.eval
    rw [Truth.admits_neg]
    exact h.sound v hs hc _ hp
  complete v hs p hp := by
    unfold Formula.eval at hp
    rw [Truth.admits_neg] at hp
    obtain ⟨w, hw, hc, hval⟩ := h.complete v hs _ hp
    exact ⟨w, hw, hc, by rwa [Truth.admits_neg]⟩

theorem upto_root (ht : table.WellFormed) (hf : ∀ a ∈ f.leaves, table.Lists a)
    (hlo : table.Below n) : Ident.Upto (n + f.compounds) (f.root table.truth n) :=
  Formula.upto_root fun a ha => hlo _ (ofAtom_mem ht (hf a ha)) .t

/-- **The auxiliaries of a formula** represent it at the variable of its root. -/
theorem represents_auxiliaries (ht : table.WellFormed) (hf : ∀ a ∈ f.leaves, table.Lists a)
    (hlo : table.Below n) (hn : n + f.compounds < 2 ^ 31) :
    table.Represents n (n + f.compounds)
      ((f.auxiliaries table.truth n).flatMap Auxiliary.clauses)
      (fun v => table.variableValue v (f.root table.truth n)) f := by
  induction f generalizing n with
  | atom a => exact .of_eq fun v => variableValue_atom ht (hf a (List.mem_singleton.mpr rfl))
  | verum =>
    exact Represents.extend ht hlo (g := .const true) (by simp [Gate.OverVariables, Gate.operands])
      hn (.of_eq fun v => rfl)
  | falsum =>
    exact Represents.extend ht hlo (g := .const false) (by simp [Gate.OverVariables, Gate.operands])
      hn (.of_eq fun v => rfl)
  | not inner ih =>
    have hlt : n + inner.compounds < 2 ^ 31 := Nat.lt_of_succ_lt hn
    have hi : Ident.Upto (n + inner.compounds) (inner.root table.truth n) := upto_root ht hf hlo
    let g := Gate.not (Literal.of (inner.root table.truth n) true)
    rw [Formula.auxiliaries, List.flatMap_append, List.flatMap_singleton]
    refine Represents.extend ht hlo (g := g) (fun a ha => ?_) hn ?_
    · exact ⟨_, hi, List.mem_singleton.mp ha⟩
    · simp only [g, Gate.value, Literal.natAbs_of (hi.inRange hlt)]
      exact (ih hf hlo hlt).not
  | binary op l r ihl ihr =>
    obtain ⟨hfl, hfr⟩ := List.forall_mem_append.mp hf
    have hcount : n + (Formula.binary op l r).compounds = n + l.compounds + r.compounds + 1 := by
      rw [Formula.compounds, ← Nat.add_assoc, ← Nat.add_assoc]
    have hroot : (Formula.binary op l r).root table.truth n = n + l.compounds + r.compounds + 1 :=
      hcount
    rw [hcount] at hn ⊢
    have hlt : n + l.compounds + r.compounds < 2 ^ 31 := Nat.lt_of_succ_lt hn
    have hltl : n + l.compounds < 2 ^ 31 := Nat.lt_of_le_of_lt (Nat.le_add_right _ _) hlt
    have hlor : table.Below (n + l.compounds) := hlo.mono (Nat.le_add_right _ _)
    have hi := upto_root ht hfl hlo
    have hj := upto_root ht hfr hlor
    have hrr := ihr hfr hlor hlt
    let g := Gate.binary op (Literal.of (l.root table.truth n) true)
      (Literal.of (r.root table.truth (n + l.compounds)) true)
    rw [Formula.auxiliaries, List.flatMap_append, List.flatMap_append, List.flatMap_singleton,
      hroot]
    refine Represents.extend ht hlo (g := g) (fun a ha => ?_) hn ?_
    · rcases List.mem_cons.mp ha with ha | ha
      · exact ⟨_, hi.mono hrr.le, ha⟩
      · exact ⟨_, hj, List.mem_singleton.mp ha⟩
    · simp only [g, Gate.value, Literal.natAbs_of (hi.inRange hltl),
        Literal.natAbs_of (hj.inRange hlt)]
      exact (ihl hfl hlo hltl).binary ht hlo op hi hrr

/-- The clauses of a formula's auxiliaries say that it is designated. -/
theorem projection_auxiliaryClauses (ht : table.WellFormed) (hf : ∀ a ∈ f.leaves, table.Lists a)
    (hlo : table.Below n) (hn : n + f.compounds < 2 ^ 31) :
    table.Projection n (n + f.compounds) (table.auxiliaryClauses n f)
      fun v => (f.eval (table.reading v)).designated := by
  have hr := represents_auxiliaries ht hf hlo hn
  have hk := upto_root ht hf hlo
  unfold auxiliaryClauses
  generalize f.root table.truth n = k at hr hk ⊢
  generalize (f.auxiliaries table.truth n).flatMap Auxiliary.clauses = cs at hr ⊢
  have hkr : Ident.InRange k := hk.inRange hn
  have htop : ∀ v, Clause.admitted (table.variableValue v) [Literal.of k true] =
      (table.variableValue v k).admits true := fun v => by
    rw [Clause.admitted_cons_of hkr, Clause.admitted, List.any_nil, Bool.or_false]
  have hholds : ∀ v, table.Single v →
      ((∀ c ∈ ([Literal.of k true] :: cs).map table.widenGate, c.holds v) ↔
        (table.variableValue v k).admits true ∧
          ∀ c ∈ cs, c.admitted (table.variableValue v)) := fun v hs => by
    rw [List.forall_mem_map, List.forall_mem_cons, holds_widenGate ht hs, htop]
    exact and_congr_right fun _ => forall₂_congr fun c _ => by rw [holds_widenGate ht hs]
  simp only [Truth.designated_eq_admits]
  refine ⟨hr.le, hlo, ?_, fun v w hvw h => ?_, fun v hs h => ?_, fun v hs h => ?_⟩
  · rw [List.forall_mem_map, List.forall_mem_cons]
    refine ⟨within_widenGate ht (hlo.mono hr.le) fun l hl => ?_,
      fun c hc => within_widenGate ht (hlo.mono hr.le) (hr.within c hc)⟩
    rw [List.mem_singleton.mp hl, Literal.natAbs_of hkr]
    exact hk
  · rwa [reading_congr ht hlo hvw]
  · obtain ⟨hv, hc⟩ := (hholds v hs).mp h
    exact hr.sound v hs hc true hv
  · obtain ⟨w, hw, hc, hv⟩ := hr.complete v hs true h
    exact ⟨w, hw, (hholds w (single_congr hlo hw hs)).mpr ⟨hv, hc⟩⟩

theorem Numbered.mono {p : Formula × Ident} (h : table.Numbered n p) (hnm : n ≤ m) :
    table.Numbered m p := ⟨h.1, h.2.1.mono hnm, h.2.2⟩

end IndicatorTable

namespace KnowledgeBase

open IndicatorTable

theorem projection_gateBlocks {table : IndicatorTable} {n : Nat} (ht : table.WellFormed)
    (hlo : table.Below n) {numbered : List (Formula × Ident)}
    (hn : ∀ p ∈ numbered, table.Numbered n p) (hr : n + gateCount numbered < 2 ^ 31) :
    table.Projection n (n + gateCount numbered) (gateBlocks table n numbered)
      fun v => ∀ p ∈ numbered, table.Told p.1 p.2 v := by
  induction numbered generalizing n with
  | nil => exact (Projection.nil hlo).of_iff (by simp)
  | cons p numbered ih =>
    obtain ⟨hflag, hle, hf⟩ := hn _ List.mem_cons_self
    rw [add_gateCount_cons] at hr ⊢
    have hc := projection_auxiliaryClauses ht hf hlo
      (Nat.lt_of_le_of_lt (Nat.le_add_right _ _) hr)
    have hn' : ∀ p ∈ numbered, table.Numbered n p := fun p hp => hn p (List.mem_cons_of_mem _ hp)
    have hrest := ih (hlo.mono hc.le) (fun p hp => (hn' p hp).mono hc.le) hr
    have hfs := projection_flagClauses ht hlo hf hflag hle
    refine ((hfs.append hc hc.congr).append hrest fun v w hvw h p hp => ?_).of_iff fun v => ?_
    · exact told_congr ht hlo (hn' p hp).2.1 hvw (h p hp)
    · rw [List.forall_mem_cons]
      rfl

/-- **An encoding with fewer than `2 ^ 31` identifiers** succeeds, and its clauses say
what the formulas are to say. -/
theorem exists_encode (kb : KnowledgeBase) (form : ClauseForm) (h : kb.identCount form < 2 ^ 31) :
    ∃ hard, kb.encode form = .ok (kb.encodingOf form hard) ∧
      kb.table.Projection kb.namedCount (kb.identCount form) hard
        fun v => ∀ p ∈ kb.formulas.zip kb.flags, kb.table.Told p.1 p.2 v := by
  have hn := namedCount_lt h
  have ht := wellFormed_table hn
  cases form with
  | naive =>
    obtain ⟨hard, hh, hp⟩ := exists_cnfHard ht below_table fun p hp => numbered_zip hn hp
    exact ⟨hard, encode_naive hh, hp⟩
  | tseitin =>
    rw [identCount_tseitin] at h ⊢
    exact ⟨_, kb.encode_tseitin,
      projection_gateBlocks ht below_table (fun p hp => numbered_zip hn hp) h⟩

/-- **The hard clauses from gates**, with some choice of the gate variables, hold just
when the assignment fits. -/
theorem encode_tseitin_holds_iff_fits (kb : KnowledgeBase) (h : kb.identCount .tseitin < 2 ^ 31) :
    ∃ e, kb.encode .tseitin = .ok e ∧ e.clauses.varCount = kb.identCount .tseitin ∧
      ∀ v, (∃ w, (∀ i ∈ e.named, w i = v i) ∧ ∀ c ∈ e.clauses.hard, c.holds w) ↔
        e.Fits kb v := by
  obtain ⟨hard, he, hp⟩ := exists_encode kb .tseitin h
  refine ⟨kb.encodingOf .tseitin hard, he, rfl, fun v => ?_⟩
  simp only [mem_named]
  exact exists_holds_iff_fits (Nat.lt_of_le_of_lt (kb.namedCount_le .tseitin) h) hp

theorem encode_tseitin_holds_iff_fits_conflict :
    let kb : KnowledgeBase :=
      ⟨[.iff (.not (.implies (.atom "A") .falsum)) (.atom "B"), .atom "B", .not (.atom "A")]⟩
    kb.identCount .tseitin < 2 ^ 31 ∧
      ∃ e, kb.encode .tseitin = .ok e ∧ e.clauses.varCount = 14 ∧
        ∀ v, (∃ w, (∀ i ∈ e.named, w i = v i) ∧ ∀ c ∈ e.clauses.hard, c.holds w) ↔
          e.Fits kb v :=
  ⟨by decide, encode_tseitin_holds_iff_fits _ (by decide)⟩

end KnowledgeBase
end LeastGlut
