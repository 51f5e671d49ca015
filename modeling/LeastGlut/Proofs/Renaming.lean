/-
# Encodings depend on atoms only up to renaming

Names serve to tell atoms apart and for nothing else. Under a renaming that is
one to one on the atoms of a knowledge base, atoms keep their order of first
reference (`KnowledgeBase.atoms_rename`), so the table gives a renamed atom the
indicators of the atom (`KnowledgeBase.table_rename`). Every clause is over
indicators that were looked up in it: of a flag (`IndicatorTable.flagClauses_rename`),
of a normal form (`IndicatorTable.cnfClauses_rename`) or of gates
(`IndicatorTable.gateClauses_rename`). So the clauses stay as they are, letter by
letter, and the names are changed in the table alone. In the facts of formulas
only the atoms' own facts hold names (`Fact.describe_rename`).

Key definitions: `Formula.rename`, `IndicatorTable.rename`, `Fact.rename`.
-/
import LeastGlut.Proofs.Auxiliaries
import LeastGlut.Proofs.ClauseLists
import LeastGlut.Program.Facts

namespace LeastGlut

/-! ### Renamings -/

/-- The formula with each atom under its new name. -/
def Formula.rename (r : String → String) : Formula → Formula
  | atom name => atom (r name)
  | verum => verum
  | falsum => falsum
  | not inner => not (inner.rename r)
  | binary op lhs rhs => binary op (lhs.rename r) (rhs.rename r)

def KnowledgeBase.rename (r : String → String) (kb : KnowledgeBase) : KnowledgeBase :=
  ⟨kb.formulas.map (Formula.rename r)⟩

/-- The same indicators in the same order, each triple under the new name of its atom. -/
def IndicatorTable.rename (r : String → String) (table : IndicatorTable) : IndicatorTable :=
  ⟨table.entries.map fun e => (r e.1, e.2)⟩

def SignedClause.rename (r : String → String) (c : SignedClause) : SignedClause :=
  c.map fun l => ⟨r l.atom, l.positive⟩

def Fact.rename (r : String → String) : Fact → Fact
  | isAtom node name => isAtom node (r name)
  | fact => fact

variable {r : String → String}

/-! ### Formulas and their clauses -/

theorem SignedClause.pairs_rename (cs ds : List SignedClause) :
    pairs (cs.map (rename r)) (ds.map (rename r)) = (pairs cs ds).map (rename r) := by
  simp only [pairs, List.flatMap_map, List.map_flatMap, List.map_map]
  congr
  funext c
  refine List.map_congr_left fun d _ => ?_
  exact List.map_append.symm

namespace Formula

theorem leaves_rename (f : Formula) : (f.rename r).leaves = f.leaves.map r := by
  induction f with
  | atom name => rfl
  | verum => rfl
  | falsum => rfl
  | not inner ih => exact ih
  | binary op lhs rhs ihl ihr => rw [rename, leaves, leaves, ihl, ihr, List.map_append]

theorem atoms_rename {f : Formula} (hr : Set.InjOn r {a | a ∈ f.leaves}) :
    (f.rename r).atoms = f.atoms.map r := by
  unfold atoms
  rw [leaves_rename, eraseDups_map _ hr]

theorem clauseList_rename (f : Formula) (positive : Bool) :
    (f.rename r).clauseList positive = (f.clauseList positive).map (SignedClause.rename r) := by
  induction f generalizing positive with
  | atom name => rfl
  | verum => cases positive <;> rfl
  | falsum => cases positive <;> rfl
  | not inner ih => exact ih _
  | binary op lhs rhs ihl ihr =>
    cases op <;> cases positive <;>
      simp only [rename, clauseList, ihl, ihr, SignedClause.pairs_rename, ← List.map_append,
        if_true, if_false, Bool.false_eq_true]

/-- Gates see of an atom only what the map holds for it. -/
theorem gates_rename {f : Formula} {ids ids' : List (String × Ident)}
    (h : ∀ a ∈ f.leaves, ∃ i, ids.lookup a = some i ∧ ids'.lookup (r a) = some i)
    (s : Supply) : (f.rename r).gates ids' s = f.gates ids s := by
  induction f generalizing s with
  | atom name =>
    obtain ⟨i, hi, hi'⟩ := h name (List.mem_singleton.mpr rfl)
    simp only [rename, gates, hi, hi']
  | verum => rfl
  | falsum => rfl
  | not inner ih => simp only [rename, gates, ih h]
  | binary op lhs rhs ihl ihr =>
    obtain ⟨hl, hr⟩ := List.forall_mem_append.mp h
    simp only [rename, gates, ihl hl, ihr hr]

end Formula

/-! ### Tables -/

namespace IndicatorTable

variable {table : IndicatorTable}

theorem behind_rename (n : Nat) (atoms : List String) :
    behind n (atoms.map r) = (behind n atoms).rename r := by
  refine congrArg IndicatorTable.mk (List.ext_getElem? fun k => ?_)
  rw [List.getElem?_map, List.getElem?_mapIdx, List.getElem?_map]
  unfold behind
  rw [List.getElem?_mapIdx, Option.map_map, Option.map_map]
  rfl

theorem constraints_rename : (table.rename r).constraints = table.constraints := by
  unfold constraints rename
  rw [List.flatMap_map]

theorem ofTruth?_rename (i : Ident) : (table.rename r).ofTruth? i = table.ofTruth? i := by
  unfold ofTruth? rename
  rw [List.find?_map, Option.map_map]
  rfl

theorem widenGate_rename (c : Clause) : (table.rename r).widenGate c = table.widenGate c := by
  simp only [widenGate, ofTruth?_rename]

/-- An indicator stands for the renamed atom, and for the same value. -/
theorem lookup_rename (i : Ident) :
    (table.rename r).lookup i = (table.lookup i).map fun p => (r p.1, p.2) := by
  unfold lookup rename
  rw [List.findSome?_map, List.map_findSome?]
  congr 1
  funext e
  obtain ⟨a, v⟩ := e
  simp only [Function.comp_apply, Option.map_map]
  rfl

theorem lists_rename {a : String} (ha : table.Lists a) : (table.rename r).Lists (r a) := by
  obtain ⟨i, hi⟩ := ha
  exact ⟨i, List.mem_map.mpr ⟨(a, i), hi, rfl⟩⟩

theorem lists_leaves_rename {f : Formula} (hf : ∀ a ∈ f.leaves, table.Lists a) :
    ∀ a ∈ (f.rename r).leaves, (table.rename r).Lists a := by
  rw [Formula.leaves_rename, List.forall_mem_map]
  exact fun a ha => lists_rename (hf a ha)

section

variable (hr : Set.InjOn r {a | table.Lists a}) {f : Formula}
  (hf : ∀ a ∈ f.leaves, table.Lists a)

include hr

/-- A renamed atom has the indicators of the atom. -/
theorem get?_rename {a : String} (ha : table.Lists a) :
    (table.rename r).get? (r a) = table.get? a :=
  lookup_map_key fun e he hae => hr ha ⟨e.2, he⟩ hae

theorem ofAtom_rename {a : String} (ha : table.Lists a) :
    (table.rename r).ofAtom (r a) = table.ofAtom a := by
  unfold ofAtom
  rw [get?_rename hr ha]

theorem widenListed_rename {c : SignedClause} (hc : ∀ l ∈ c, table.Lists l.atom) :
    (table.rename r).widenListed (c.rename r) = table.widenListed c := by
  have hmap : ∀ g : Indicators → Bool → Literal,
      (c.rename r).map (fun l => g ((table.rename r).ofAtom l.atom) l.positive) =
        c.map fun l => g (table.ofAtom l.atom) l.positive := fun g => by
    unfold SignedClause.rename
    rw [List.map_map]
    refine List.map_congr_left fun l hl => ?_
    exact congrArg (g · l.positive) (ofAtom_rename hr (hc l hl))
  unfold widenListed
  rw [hmap Indicators.literal, hmap fun i _ => i.glutLiteral]

include hf

theorem flagClauses_rename (flag : Ident) :
    (table.rename r).flagClauses flag (f.rename r) = table.flagClauses flag f := by
  have hinj : Set.InjOn r {a | a ∈ f.leaves} := hr.mono hf
  rw [flagClauses_eq (lists_leaves_rename hf), flagClauses_eq hf, Formula.atoms_rename hinj,
    List.map_map]
  refine congrArg Except.ok (List.map_congr_left fun a ha => ?_)
  simp only [Function.comp_apply, flagClause, ofAtom_rename hr (hf a (Formula.mem_atoms.mp ha))]

theorem cnfClauses_rename :
    (table.rename r).cnfClauses (f.rename r) = table.cnfClauses f := by
  have hcs : f.signedClauses = .ok (f.clauseList true) := f.signedClauses_eq
  have hlisted : ∀ c ∈ f.clauseList true, ∀ l ∈ c, table.Lists l.atom := by
    obtain ⟨cs, hcs', -, hm⟩ := f.exists_signedClauses
    obtain rfl : cs = f.clauseList true := Except.ok.inj (hcs'.symm.trans hcs)
    exact fun c hc l hl => hf _ (hm c hc l hl)
  have hcs' : (f.rename r).signedClauses = .ok ((f.clauseList true).map (.rename r)) := by
    rw [Formula.signedClauses_eq, Formula.clauseList_rename]
  have hlisted' : ∀ c ∈ (f.clauseList true).map (SignedClause.rename r), ∀ l ∈ c,
      (table.rename r).Lists l.atom := by
    simp only [List.forall_mem_map, SignedClause.rename]
    exact fun c hc l hl => lists_rename (hlisted c hc l hl)
  rw [cnfClauses_eq hcs hlisted, cnfClauses_eq hcs' hlisted', List.map_map]
  exact congrArg Except.ok (List.map_congr_left fun c hc => widenListed_rename hr (hlisted c hc))

theorem gateClauses_rename (s : Supply) :
    (table.rename r).gateClauses (f.rename r) s = table.gateClauses f s := by
  have hlookup : ∀ a ∈ f.leaves, ∃ i, table.truthVariables.lookup a = some i ∧
      (table.rename r).truthVariables.lookup (r a) = some i := fun a ha => by
    refine ⟨_, lookup_truthVariables_of_lists (hf a ha), ?_⟩
    rw [lookup_truthVariables_of_lists (lists_rename (hf a ha)), truth, truth,
      ofAtom_rename hr (hf a ha)]
  simp only [gateClauses, Formula.gates_rename hlookup, funext widenGate_rename]

end

end IndicatorTable

/-! ### Encodings -/

namespace KnowledgeBase

open IndicatorTable

section

variable {table : IndicatorTable} (hr : Set.InjOn r {a | table.Lists a})
  {numbered : List (Formula × Ident)} (hn : ∀ p ∈ numbered, ∀ a ∈ p.1.leaves, table.Lists a)

include hr hn

theorem cnfHard_rename :
    cnfHard (table.rename r) (numbered.map (Prod.map (Formula.rename r) id)) =
      cnfHard table numbered := by
  induction numbered with
  | nil => rfl
  | cons p numbered ih =>
    obtain ⟨f, flag⟩ := p
    obtain ⟨hf, hrest⟩ := List.forall_mem_cons.mp hn
    simp only [List.map_cons, Prod.map, cnfHard, id_eq, flagClauses_rename hr hf,
      cnfClauses_rename hr hf, ih hrest]

theorem gateHard_rename (s : Supply) :
    gateHard (table.rename r) (numbered.map (Prod.map (Formula.rename r) id)) s =
      gateHard table numbered s := by
  induction numbered generalizing s with
  | nil => rfl
  | cons p numbered ih =>
    obtain ⟨f, flag⟩ := p
    obtain ⟨hf, hrest⟩ := List.forall_mem_cons.mp hn
    simp only [List.map_cons, Prod.map, gateHard, id_eq, flagClauses_rename hr hf,
      gateClauses_rename hr hf, ih hrest]

end

variable {kb : KnowledgeBase}

theorem size_rename : (kb.rename r).size = kb.size := List.length_map _

variable (hr : Set.InjOn r {a | a ∈ kb.atoms})

include hr

/-- **Renamed atoms come in the order of the atoms.** -/
theorem atoms_rename : (kb.rename r).atoms = kb.atoms.map r := by
  have hleaves : (kb.rename r).formulas.flatMap Formula.leaves =
      (kb.formulas.flatMap Formula.leaves).map r := by
    simp only [rename, List.flatMap_map, List.map_flatMap, Formula.leaves_rename]
  unfold atoms
  rw [hleaves]
  exact eraseDups_map _ fun a ha b hb => hr (List.mem_eraseDups.mpr ha) (List.mem_eraseDups.mpr hb)

theorem table_rename : (kb.rename r).table = kb.table.rename r := by
  unfold table
  rw [atoms_rename hr, behind_rename]

theorem length_atoms_rename : (kb.rename r).atoms.length = kb.atoms.length := by
  rw [atoms_rename hr, List.length_map]

theorem flags_rename : (kb.rename r).flags = kb.flags := by
  unfold flags
  rw [size_rename, length_atoms_rename hr]

theorem formulaHard_rename (form : ClauseForm) :
    (kb.rename r).formulaHard form = kb.formulaHard form := by
  have hinj : Set.InjOn r {a | kb.table.Lists a} := hr.mono fun _ => lists_table.mp
  have hlists : ∀ p ∈ kb.formulas.zip kb.flags, ∀ a ∈ p.1.leaves, kb.table.Lists a :=
    fun _ => lists_of_mem_zip
  have hzip : (kb.rename r).formulas.zip (kb.rename r).flags =
      (kb.formulas.zip kb.flags).map (Prod.map (Formula.rename r) id) := by
    rw [flags_rename hr, rename, List.zip_map_left]
  have hcount : (kb.rename r).namedCount = kb.namedCount := by
    unfold namedCount
    rw [size_rename, length_atoms_rename hr]
  cases form with
  | naive => simp only [formulaHard, hzip, hcount, table_rename hr, cnfHard_rename hinj hlists]
  | tseitin => simp only [formulaHard, hzip, hcount, table_rename hr, gateHard_rename hinj hlists]

/-- **Renaming changes an encoding in its table alone.** -/
theorem encode_rename_eq (form : ClauseForm) : (kb.rename r).encode form =
    (kb.encode form).map fun e => { e with atoms := e.atoms.rename r } := by
  rw [encode_eq, encode_eq, formulaHard_rename hr, table_rename hr, flags_rename hr,
    constraints_rename]
  cases kb.formulaHard form <;> rfl

end KnowledgeBase

/-! ### Facts -/

namespace Fact

/-- The same description under the new names. -/
def Describer.rename (r : String → String) (d : Describer) : Describer := fun node next =>
  ((d node next).1.map (Fact.rename r), (d node next).2)

theorem declare_rename (d : Describer) (formula next : Nat) :
    declare (d.rename r) formula next =
      ((declare d formula next).1, (declare d formula next).2.1.map (Fact.rename r),
        (declare d formula next).2.2) := rfl

theorem describeNot_rename (d : Describer) :
    describeNot (d.rename r) = (describeNot d).rename r := by
  funext node next
  simp only [describeNot, declare_rename, Describer.rename, List.map_append]
  rfl

theorem describeJunction_rename (j : Junction) (d d' : Describer) :
    describeJunction j (d.rename r) (d'.rename r) = (describeJunction j d d').rename r := by
  funext node next
  simp only [describeJunction, declare_rename, Describer.rename, List.map_append]
  cases j <;> rfl

theorem describeImplies_rename (d d' : Describer) :
    describeImplies (d.rename r) (d'.rename r) = (describeImplies d d').rename r := by
  rw [describeImplies, describeNot_rename, describeJunction_rename, describeImplies]

/-- **A renamed formula is described as the formula is**, under the new names. -/
theorem describe_rename (f : Formula) : describe (f.rename r) = (describe f).rename r := by
  induction f with
  | atom name => rfl
  | verum => rfl
  | falsum => rfl
  | not inner ih => rw [Formula.rename, describe, ih, describeNot_rename, describe]
  | binary op lhs rhs ihl ihr =>
    cases op with
    | and | or => rw [Formula.rename, describe, ihl, ihr, describeJunction_rename, describe]
    | implies => rw [Formula.rename, describe, ihl, ihr, describeImplies_rename, describe]
    | iff =>
      rw [Formula.rename, describe, ihl, ihr, describeImplies_rename, describeImplies_rename,
        describeJunction_rename, describe]

theorem ofFormula_rename (id : Nat) (f : Formula) :
    ofFormula id (f.rename r) = (ofFormula id f).map (Fact.rename r) := by
  simp only [ofFormula, describe_rename, declare_rename, List.map_cons]
  rfl

end Fact

theorem Program.factsFrom_rename (id : Nat) (fs : List Formula) :
    factsFrom id (fs.map (Formula.rename r)) = (factsFrom id fs).map (Fact.rename r) := by
  induction fs generalizing id with
  | nil => rfl
  | cons f fs ih => rw [List.map_cons, factsFrom, factsFrom, Fact.ofFormula_rename, ih,
      List.map_append]

namespace KnowledgeBase

/-- **Encodings depend on atoms only up to renaming.** With atoms renamed one to one, a
knowledge base has the same hard and soft clauses, as many variables and the same flags, in
either form. Its table is the same up to the names, read in either direction, and so are its
facts. -/
theorem encode_rename (kb : KnowledgeBase) (r : String → String)
    (hr : Set.InjOn r {a | a ∈ kb.atoms}) :
    (∀ form, ∃ e, kb.encode form = .ok e ∧
      (kb.rename r).encode form = .ok { e with atoms := e.atoms.rename r } ∧
      (∀ a ∈ kb.atoms, (e.atoms.rename r).get? (r a) = e.atoms.get? a) ∧
      ∀ i, (e.atoms.rename r).lookup i = (e.atoms.lookup i).map fun p => (r p.1, p.2)) ∧
    (Program.ofKnowledgeBase (kb.rename r)).facts =
      (Program.ofKnowledgeBase kb).facts.map (Fact.rename r) := by
  refine ⟨fun form => ?_, Program.factsFrom_rename 0 kb.formulas⟩
  obtain ⟨e, he⟩ := kb.encode_succeeds form
  refine ⟨e, he, ?_, fun a ha => ?_, fun i => IndicatorTable.lookup_rename i⟩
  · rw [encode_rename_eq hr, he]
    rfl
  · rw [atoms_of_encode he]
    exact IndicatorTable.get?_rename (hr.mono fun _ => lists_table.mp) (lists_table.mpr ha)

/-- The names are exchanged, so no name tells by itself which atom is meant. -/
theorem encode_rename_exchanged :
    let kb : KnowledgeBase := ⟨[.iff (.atom "A") (.not (.atom "B")), .or (.atom "B") .falsum]⟩
    let r : String → String := fun a => if a = "A" then "B" else "A"
    Set.InjOn r {a | a ∈ kb.atoms} ∧
    kb.rename r = ⟨[.iff (.atom "B") (.not (.atom "A")), .or (.atom "A") .falsum]⟩ ∧
    (∃ e, kb.encode .tseitin = .ok e ∧ (kb.rename r).encode .tseitin =
      .ok { e with atoms := ⟨[("B", ⟨1, 2, 3⟩), ("A", ⟨4, 5, 6⟩)]⟩ }) ∧
    (Program.ofKnowledgeBase (kb.rename r)).facts =
      (Program.ofKnowledgeBase kb).facts.map (Fact.rename r) := by
  intro kb r
  have hr : Set.InjOn r {a | a ∈ kb.atoms} := by
    have hpairs : ∀ a ∈ kb.atoms, ∀ b ∈ kb.atoms, r a = r b → a = b := by decide
    exact fun a ha b hb => hpairs a ha b hb
  obtain ⟨hencode, hfacts⟩ := encode_rename kb r hr
  obtain ⟨e, he, he', -, -⟩ := hencode .tseitin
  have htable : kb.table.rename r = ⟨[("B", ⟨1, 2, 3⟩), ("A", ⟨4, 5, 6⟩)]⟩ := by decide
  rw [atoms_of_encode he, htable] at he'
  exact ⟨hr, rfl, ⟨e, he, he'⟩, hfacts⟩

end KnowledgeBase
end LeastGlut
