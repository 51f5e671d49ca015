/-
# The auxiliaries of gates

The gates of a formula give every compound a variable of its own, operands
before the node (`Formula.gates_eq`), so the variables of its compounds follow
each other (`Formula.map_ident_auxiliaries`), and those of a formula follow the
ones of the formulas before it. The hard clauses from gates are those of the
auxiliaries, formula by formula (`KnowledgeBase.gateHard_eq`).

Key definitions: `Auxiliary`, `Formula.auxiliaries`, `KnowledgeBase.auxiliaries`.
-/
import LeastGlut.Proofs.Encodings

namespace LeastGlut

/-- A compound of a formula, with the variable that stands for it and its gate. -/
structure Auxiliary where
  node : Formula
  ident : Ident
  gate : Gate

/-- The clauses that define the variable. -/
def Auxiliary.clauses (a : Auxiliary) : List Clause := a.gate.clauses (Literal.of a.ident true)

namespace Formula

/-- Every node that is no atom, each occurrence for itself, operands before the node. -/
def compoundNodes : Formula → List Formula
  | atom _ => []
  | verum => [verum]
  | falsum => [falsum]
  | not inner => inner.compoundNodes ++ [not inner]
  | binary op lhs rhs => lhs.compoundNodes ++ rhs.compoundNodes ++ [binary op lhs rhs]

/-- The variable of the formula itself, when those of its compounds follow `n` others. -/
def root (var : String → Ident) (n : Nat) : Formula → Ident
  | atom name => var name
  | f => n + f.compounds

/-- The compounds with their variables, which follow `n` others, and their gates. -/
def auxiliaries (var : String → Ident) (n : Nat) : Formula → List Auxiliary
  | atom _ => []
  | verum => [⟨verum, n + 1, .const true⟩]
  | falsum => [⟨falsum, n + 1, .const false⟩]
  | not inner => inner.auxiliaries var n ++
    [⟨not inner, n + inner.compounds + 1, .not (Literal.of (inner.root var n) true)⟩]
  | binary op lhs rhs =>
    let m := n + lhs.compounds
    lhs.auxiliaries var n ++ rhs.auxiliaries var m ++
      [⟨binary op lhs rhs, m + rhs.compounds + 1,
        .binary op (Literal.of (lhs.root var n) true) (Literal.of (rhs.root var m) true)⟩]

variable {var : String → Ident}

theorem map_node_auxiliaries (f : Formula) (n : Nat) :
    (f.auxiliaries var n).map Auxiliary.node = f.compoundNodes := by
  induction f generalizing n with
  | atom name => rfl
  | verum => rfl
  | falsum => rfl
  | not inner ih => simp only [auxiliaries, compoundNodes, List.map_append, ih, List.map_singleton]
  | binary op lhs rhs ihl ihr =>
    simp only [auxiliaries, compoundNodes, List.map_append, ihl, ihr, List.map_singleton]

/-- **The variables of the compounds follow each other**, from the first that is free. -/
theorem map_ident_auxiliaries (f : Formula) (n : Nat) :
    (f.auxiliaries var n).map Auxiliary.ident = List.range' (n + 1) f.compounds := by
  induction f generalizing n with
  | atom name => rfl
  | verum => rfl
  | falsum => rfl
  | not inner ih =>
    have hlast : n + inner.compounds + 1 = n + 1 + inner.compounds := by omega
    simp only [auxiliaries, compounds, List.map_append, ih, List.map_singleton, hlast,
      List.range'_1_concat]
  | binary op lhs rhs ihl ihr =>
    have hrhs : n + lhs.compounds + 1 = n + 1 + lhs.compounds := by omega
    have hlast : n + lhs.compounds + rhs.compounds + 1 =
        n + 1 + (lhs.compounds + rhs.compounds) := by omega
    simp only [auxiliaries, compounds, List.map_append, ihl, ihr, List.map_singleton, hlast, hrhs,
      List.range'_append_1, List.range'_1_concat]

theorem upto_root {f : Formula} {n : Nat} (hvar : ∀ a ∈ f.leaves, Ident.Upto n (var a)) :
    Ident.Upto (n + f.compounds) (f.root var n) := by
  cases f with
  | atom a => exact hvar a (List.mem_singleton.mpr rfl)
  | verum => exact ⟨Nat.succ_pos n, Nat.le_refl _⟩
  | falsum => exact ⟨Nat.succ_pos n, Nat.le_refl _⟩
  | not inner => exact ⟨Nat.succ_pos _, Nat.le_refl _⟩
  | binary op l r => exact ⟨Nat.succ_pos _, Nat.le_refl _⟩

/-- **The gates of a formula** are those of its auxiliaries, and its literal is that of its
root. -/
theorem gates_eq {atoms : List (String × Ident)} (f : Formula) (n : Nat)
    (hf : ∀ a ∈ f.leaves, atoms.lookup a = some (var a)) : f.gates atoms ⟨n⟩ =
      (⟨n + f.compounds⟩,
        .ok ⟨Literal.of (f.root var n) true, (f.auxiliaries var n).flatMap Auxiliary.clauses⟩) := by
  induction f generalizing n with
  | atom name =>
    simp only [gates, hf name (List.mem_singleton.mpr rfl)]
    rfl
  | verum => rfl
  | falsum => rfl
  | not inner ih =>
    simp only [gates, ih n hf, GateCnf.extend, Supply.fresh, compounds, auxiliaries,
      List.flatMap_append, List.flatMap_singleton, Auxiliary.clauses, root, Nat.add_assoc]
  | binary op lhs rhs ihl ihr =>
    obtain ⟨hl, hr⟩ := List.forall_mem_append.mp hf
    simp only [gates, ihl n hl, ihr (n + lhs.compounds) hr, GateCnf.extend, Supply.fresh, compounds,
      auxiliaries, List.flatMap_append, List.flatMap_singleton, Auxiliary.clauses, root,
      Nat.add_assoc]

end Formula

namespace IndicatorTable

variable {table : IndicatorTable}

/-- The variable of an atom: its `t` indicator. -/
def truth (table : IndicatorTable) (a : String) : Ident := (table.ofAtom a).t

/-- The clauses of a formula's auxiliaries behind `n` variables, and that its root holds. -/
def auxiliaryClauses (table : IndicatorTable) (n : Nat) (f : Formula) : List Clause :=
  ([Literal.of (f.root table.truth n) true] ::
    (f.auxiliaries table.truth n).flatMap Auxiliary.clauses).map table.widenGate

theorem lookup_truthVariables_of_lists {a : String} (ha : table.Lists a) :
    table.truthVariables.lookup a = some (table.truth a) := by
  rw [lookup_truthVariables, get?_of_lists ha, Option.map_some, truth]

theorem gateClauses_eq {f : Formula} (hf : ∀ a ∈ f.leaves, table.Lists a)
    (n : Nat) : table.gateClauses f ⟨n⟩ = .ok (table.auxiliaryClauses n f, ⟨n + f.compounds⟩) := by
  have hlookup : ∀ a ∈ f.leaves, table.truthVariables.lookup a = some (table.truth a) :=
    fun a ha => lookup_truthVariables_of_lists (hf a ha)
  simp only [gateClauses, Formula.gates_eq f n hlookup, bind, Except.bind, pure, Except.pure]
  rfl

end IndicatorTable

namespace KnowledgeBase

open IndicatorTable

/-- The number of compounds in formulas with their flags. -/
def gateCount (numbered : List (Formula × Ident)) : Nat :=
  (numbered.map fun p => p.1.compounds).sum

theorem add_gateCount_cons (n : Nat) (p : Formula × Ident) (numbered : List (Formula × Ident)) :
    n + gateCount (p :: numbered) = n + p.1.compounds + gateCount numbered := by
  rw [gateCount, List.map_cons, List.sum_cons, Nat.add_assoc]
  rfl

/-- The clauses of formulas with their flags, gates behind `n` variables. -/
def gateBlocks (table : IndicatorTable) (n : Nat) : List (Formula × Ident) → List Clause
  | [] => []
  | p :: rest => p.1.atoms.map (table.flagClause p.2) ++ table.auxiliaryClauses n p.1 ++
    gateBlocks table (n + p.1.compounds) rest

/-- **The hard clauses from gates**, formula by formula. -/
theorem gateHard_eq {table : IndicatorTable} {numbered : List (Formula × Ident)}
    (hn : ∀ p ∈ numbered, ∀ a ∈ p.1.leaves, table.Lists a)
    (n : Nat) : gateHard table numbered ⟨n⟩ =
      .ok (gateBlocks table n numbered, ⟨n + gateCount numbered⟩) := by
  induction numbered generalizing n with
  | nil => rfl
  | cons p numbered ih =>
    obtain ⟨f, flag⟩ := p
    obtain ⟨hf, hrest⟩ := List.forall_mem_cons.mp hn
    rw [add_gateCount_cons]
    simp only [gateHard, flagClauses_eq hf, gateClauses_eq hf, ih hrest, bind, Except.bind]
    rfl

/-- The auxiliaries of formulas, behind `n` variables. -/
def auxiliariesFrom (var : String → Ident) (n : Nat) : List Formula → List Auxiliary
  | [] => []
  | f :: rest => f.auxiliaries var n ++ auxiliariesFrom var (n + f.compounds) rest

/-- The auxiliaries of an encoding, behind the indicators and the flags. -/
def auxiliaries (kb : KnowledgeBase) : ClauseForm → List Auxiliary
  | .naive => []
  | .tseitin => auxiliariesFrom kb.table.truth kb.namedCount kb.formulas

variable {var : String → Ident} {kb : KnowledgeBase}

theorem map_node_auxiliariesFrom (formulas : List Formula) (n : Nat) :
    (auxiliariesFrom var n formulas).map Auxiliary.node =
      formulas.flatMap Formula.compoundNodes := by
  induction formulas generalizing n with
  | nil => rfl
  | cons f rest ih =>
    rw [auxiliariesFrom, List.map_append, Formula.map_node_auxiliaries, ih, List.flatMap_cons]

theorem map_ident_auxiliariesFrom (formulas : List Formula) (n : Nat) :
    (auxiliariesFrom var n formulas).map Auxiliary.ident =
      List.range' (n + 1) (formulas.map Formula.compounds).sum := by
  induction formulas generalizing n with
  | nil => rfl
  | cons f rest ih =>
    rw [auxiliariesFrom, List.map_append, Formula.map_ident_auxiliaries, ih, List.map_cons,
      List.sum_cons, Nat.add_right_comm n _ 1, List.range'_append_1]

/-- The clauses of every auxiliary are among those of its formula. -/
theorem widenGate_mem_gateBlocks {table : IndicatorTable} {numbered : List (Formula × Ident)}
    {n : Nat} {a : Auxiliary} (ha : a ∈ auxiliariesFrom table.truth n (numbered.map (·.1)))
    {c : Clause} (hc : c ∈ a.clauses) : table.widenGate c ∈ gateBlocks table n numbered := by
  induction numbered generalizing n with
  | nil => cases ha
  | cons p numbered ih =>
    rw [gateBlocks, List.mem_append]
    rcases List.mem_append.mp ha with ha | ha
    · refine Or.inl (List.mem_append_right _ (List.mem_map_of_mem (List.mem_cons_of_mem _ ?_)))
      exact List.mem_flatMap.mpr ⟨a, ha, hc⟩
    · exact Or.inr (ih ha)

theorem named_append_idents (kb : KnowledgeBase) (form : ClauseForm) :
    List.range' 1 kb.namedCount ++ (kb.auxiliaries form).map Auxiliary.ident =
      List.range' 1 (kb.identCount form) := by
  cases form with
  | naive => exact List.append_nil _
  | tseitin =>
    rw [auxiliaries, map_ident_auxiliariesFrom, Nat.add_comm _ 1, List.range'_append_1, identCount]

theorem identCount_eq (kb : KnowledgeBase) (form : ClauseForm) :
    kb.identCount form = kb.namedCount + (kb.auxiliaries form).length := by
  have hlength := congrArg List.length (kb.named_append_idents form)
  simp only [List.length_append, List.length_map, List.length_range'] at hlength
  exact hlength.symm

/-! ### The encoding from gates -/

theorem map_fst_zip_flags (kb : KnowledgeBase) :
    (kb.formulas.zip kb.flags).map (·.1) = kb.formulas := by
  refine List.map_fst_zip ?_
  unfold flags
  rw [List.length_map, List.length_range]
  exact Nat.le_refl _

theorem gateCount_zip_flags :
    gateCount (kb.formulas.zip kb.flags) = (kb.formulas.map Formula.compounds).sum := by
  unfold gateCount
  rw [← Function.comp_def, ← List.map_map, map_fst_zip_flags]

theorem identCount_tseitin : kb.identCount .tseitin =
    kb.namedCount + gateCount (kb.formulas.zip kb.flags) := by
  rw [gateCount_zip_flags, identCount]

/-- **The encoding from gates** holds the clauses of the auxiliaries. -/
theorem encode_tseitin (kb : KnowledgeBase) : kb.encode .tseitin =
    .ok (kb.encodingOf .tseitin
      (gateBlocks kb.table kb.namedCount (kb.formulas.zip kb.flags))) := by
  rw [encode_eq, formulaHard, gateHard_eq fun p hp => lists_of_mem_zip hp, encodingOf,
    identCount_tseitin]
  rfl

/-- **Every knowledge base has an encoding,** in either form. -/
theorem encode_succeeds (kb : KnowledgeBase) (form : ClauseForm) :
    ∃ e, kb.encode form = .ok e := by
  cases form with
  | naive =>
    obtain ⟨hard, hhard⟩ := cnfHard_succeeds fun p hp => lists_of_mem_zip (p := p) hp
    exact ⟨_, encode_naive hhard⟩
  | tseitin => exact ⟨_, kb.encode_tseitin⟩

end KnowledgeBase
end LeastGlut
