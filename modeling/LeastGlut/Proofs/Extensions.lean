/-
# Assignments of the gate variables

The compounds of a formula have the variables behind those that are given, in the order of
`Formula.compoundNodes` (`Formula.getElem?_auxiliaries`). Over Booleans the clauses of a gate
hold just when its variable has the value of the gate (`Gate.holds_clauses_iff`), so by
induction the clauses of a formula hold just when every compound's variable has the Boolean
value of the compound (`Formula.holds_auxiliaries_iff`). An assignment of the given variables
therefore extends to the gate variables in exactly one way (`Formula.gates_define`).

Once the clauses are widened by gluts, a gate above a glut defines nothing. Its variable can
only be a Boolean that the value of its compound admits, as the compound has all clauses of a
formula of its own (`Formula.exists_auxiliaries_subset`), and at the root every such Boolean is
had by some extension (`IndicatorTable.gates_above_glut`).

Key definitions: `Gate.isTrue`, `Formula.extend`.
-/
import LeastGlut.Proofs.Conservativity

namespace LeastGlut

/-! ### Compounds and their variables -/

namespace Formula

variable {var : String → Ident} {f g : Formula} {n k : Nat} {a : Auxiliary}

theorem length_compoundNodes (f : Formula) : f.compoundNodes.length = f.compounds := by
  let var : String → Ident := fun _ => 0
  have hnode : (f.auxiliaries var 0).map Auxiliary.node = f.compoundNodes :=
    map_node_auxiliaries f 0
  calc f.compoundNodes.length = (f.auxiliaries var 0).length := by rw [← hnode, List.length_map]
    _ = ((f.auxiliaries var 0).map Auxiliary.ident).length := by rw [List.length_map]
    _ = f.compounds := by rw [map_ident_auxiliaries, List.length_range']

/-- The compound at place `k` has the variable `k` places behind the first that is free. -/
theorem getElem?_auxiliaries (h : (f.auxiliaries var n)[k]? = some a) :
    n + k + 1 = a.ident ∧ f.compoundNodes[k]? = some a.node := by
  have hident : ((f.auxiliaries var n).map Auxiliary.ident)[k]? = some a.ident := by
    rw [List.getElem?_map, h, Option.map_some]
  have hnode : ((f.auxiliaries var n).map Auxiliary.node)[k]? = some a.node := by
    rw [List.getElem?_map, h, Option.map_some]
  rw [map_node_auxiliaries] at hnode
  have hk : k < f.compounds := by
    rw [← length_compoundNodes]
    exact (List.getElem?_eq_some_iff.mp hnode).1
  rw [map_ident_auxiliaries, List.getElem?_range' hk, Option.some_inj] at hident
  refine ⟨?_, hnode⟩
  rw [← hident]
  omega

theorem exists_auxiliary (var : String → Ident) (n : Nat) (h : f.compoundNodes[k]? = some g) :
    ∃ a ∈ f.auxiliaries var n, a.node = g ∧ n + k + 1 = a.ident := by
  have hnode : (f.auxiliaries var n).map Auxiliary.node = f.compoundNodes :=
    map_node_auxiliaries f n
  rw [← hnode, List.getElem?_map, Option.map_eq_some_iff] at h
  obtain ⟨a, ha, rfl⟩ := h
  exact ⟨a, List.mem_of_getElem? ha, rfl, (getElem?_auxiliaries ha).1⟩

theorem leaves_subset_of_mem_compoundNodes (h : g ∈ f.compoundNodes) : g.leaves ⊆ f.leaves := by
  induction f with
  | atom name => cases h
  | verum | falsum =>
    rw [List.mem_singleton.mp h]
    exact List.Subset.refl _
  | not inner ih =>
    rcases List.mem_append.mp h with h | h
    · exact ih h
    · rw [List.mem_singleton.mp h]
      exact List.Subset.refl _
  | binary op lhs rhs ihl ihr =>
    rw [compoundNodes, List.mem_append, List.mem_append] at h
    rcases h with (h | h) | h
    · exact List.subset_append_of_subset_left _ (ihl h)
    · exact List.subset_append_of_subset_right _ (ihr h)
    · rw [List.mem_singleton.mp h]
      exact List.Subset.refl _

/-- **The auxiliaries of a compound** are among those of the formula, behind more variables. -/
theorem exists_auxiliaries_subset (h : a ∈ f.auxiliaries var n) : ∃ m, n ≤ m ∧
    m + a.node.compounds ≤ n + f.compounds ∧ a.node.root var m = a.ident ∧
      a.node.auxiliaries var m ⊆ f.auxiliaries var n := by
  induction f generalizing n with
  | atom name => cases h
  | verum | falsum =>
    rw [List.mem_singleton.mp h]
    exact ⟨n, Nat.le_refl n, Nat.le_refl _, rfl, List.Subset.refl _⟩
  | not inner ih =>
    rcases List.mem_append.mp h with hinner | hlast
    · obtain ⟨m, hm, hle, hroot, hsub⟩ := ih hinner
      exact ⟨m, hm, Nat.le_succ_of_le hle, hroot, List.subset_append_of_subset_left _ hsub⟩
    · rw [List.mem_singleton.mp hlast]
      exact ⟨n, Nat.le_refl n, Nat.le_refl _, rfl, List.Subset.refl _⟩
  | binary op lhs rhs ihl ihr =>
    have hcount : n + lhs.compounds + rhs.compounds + 1 = n + (binary op lhs rhs).compounds := by
      rw [compounds]
      omega
    have hall : (binary op lhs rhs).auxiliaries var n = lhs.auxiliaries var n ++
        rhs.auxiliaries var (n + lhs.compounds) ++ [⟨binary op lhs rhs,
          n + lhs.compounds + rhs.compounds + 1, .binary op (Literal.of (lhs.root var n) true)
            (Literal.of (rhs.root var (n + lhs.compounds)) true)⟩] := rfl
    rw [hall, List.mem_append, List.mem_append] at h
    rcases h with (hl | hr) | hlast
    · obtain ⟨m, hm, hle, hroot, hsub⟩ := ihl hl
      refine ⟨m, hm, by omega, hroot, ?_⟩
      rw [hall, List.append_assoc]
      exact List.subset_append_of_subset_left _ hsub
    · obtain ⟨m, hm, hle, hroot, hsub⟩ := ihr hr
      refine ⟨m, by omega, by omega, hroot, ?_⟩
      rw [hall]
      exact List.subset_append_of_subset_left _ (List.subset_append_of_subset_right _ hsub)
    · rw [List.mem_singleton.mp hlast]
      exact ⟨n, Nat.le_refl n, Nat.le_refl _, hcount.symm, List.Subset.refl _⟩

end Formula

/-! ### Gates over Booleans -/

/-- The Boolean value of a gate. -/
def Gate.isTrue (w : Ident → Bool) : Gate → Bool
  | const p => p
  | not a => !w a.natAbs
  | binary op a b => op.onBools (w a.natAbs) (w b.natAbs)

theorem Gate.value_ofBool (w : Ident → Bool) (g : Gate) :
    g.value (fun i => .ofBool (w i)) = .ofBool (g.isTrue w) := by
  cases g with
  | const p => rfl
  | not a => exact Truth.neg_ofBool _
  | binary op a b => exact op.apply_ofBool _ _

theorem Clause.admitted_ofBool (w : Ident → Bool) (c : Clause) :
    c.admitted (fun i => .ofBool (w i)) = c.holds w := by
  simp only [admitted, holds, Truth.admits_ofBool]
  rfl

/-- **The clauses of a gate over Booleans** hold just when its variable has its value. -/
theorem Gate.holds_clauses_iff {m : Nat} (hm : m + 1 < 2 ^ 31) {g : Gate} (hg : g.OverVariables m)
    (w : Ident → Bool) :
    (∀ c ∈ g.clauses (Literal.of (m + 1) true), c.holds w) ↔ w (m + 1) = g.isTrue w := by
  have hall := @Gate.all_admitted_clauses m hm g hg (fun i => .ofBool (w i)) _ rfl
  simp only [Gate.value_ofBool, Truth.admits_ofBool] at hall
  rw [eq_comm, ← beq_iff_eq, ← hall, List.all_eq_true]
  simp only [Clause.admitted_ofBool]

namespace Formula

variable {var : String → Ident} {f g : Formula} {n k : Nat} {a : Auxiliary} {v w : Ident → Bool}
  {p q : String → Bool}

theorem isTrue_congr (h : ∀ a ∈ f.leaves, p a = q a) : f.isTrue p = f.isTrue q := by
  have heval : f.eval (fun a => .ofBool (p a)) = f.eval fun a => .ofBool (q a) :=
    eval_congr fun a ha => congrArg Truth.ofBool (h a ha)
  rw [eval_ofBool, eval_ofBool] at heval
  calc f.isTrue p = (Truth.ofBool (f.isTrue p)).designated := (Truth.designated_ofBool _).symm
    _ = (Truth.ofBool (f.isTrue q)).designated := by rw [heval]
    _ = f.isTrue q := Truth.designated_ofBool _

/-- The root has its Boolean value, when the compounds have theirs. -/
theorem root_eq_isTrue
    (h : ∀ a ∈ f.auxiliaries var n, w a.ident = a.node.isTrue fun b => w (var b)) :
    w (f.root var n) = f.isTrue fun b => w (var b) := by
  cases f with
  | atom name => rfl
  | verum | falsum => exact h _ List.mem_cons_self
  | not inner => exact h _ (List.mem_append_right _ List.mem_cons_self)
  | binary op lhs rhs =>
    have hlast := h _ (List.mem_append_right _ List.mem_cons_self)
    have hroot : n + lhs.compounds + rhs.compounds + 1 = (binary op lhs rhs).root var n := by
      show _ = n + (lhs.compounds + rhs.compounds + 1)
      omega
    rw [← hroot]
    exact hlast

/-- **The clauses of a formula over Booleans** hold just when every compound's variable has
the Boolean value of the compound. -/
theorem holds_auxiliaries_iff (hvar : ∀ a ∈ f.leaves, Ident.Upto n (var a))
    (hn : n + f.compounds < 2 ^ 31) (w : Ident → Bool) :
    (∀ c ∈ (f.auxiliaries var n).flatMap Auxiliary.clauses, c.holds w) ↔
      ∀ a ∈ f.auxiliaries var n, w a.ident = a.node.isTrue fun b => w (var b) := by
  induction f generalizing n with
  | atom name => simp [auxiliaries]
  | verum =>
    have hg : Gate.OverVariables n (.const true) := by simp [Gate.OverVariables, Gate.operands]
    rw [auxiliaries, List.flatMap_singleton, List.forall_mem_singleton]
    exact Gate.holds_clauses_iff hn hg w
  | falsum =>
    have hg : Gate.OverVariables n (.const false) := by simp [Gate.OverVariables, Gate.operands]
    rw [auxiliaries, List.flatMap_singleton, List.forall_mem_singleton]
    exact Gate.holds_clauses_iff hn hg w
  | not inner ih =>
    have hlt : n + inner.compounds < 2 ^ 31 := Nat.lt_of_succ_lt hn
    have hi : Ident.Upto (n + inner.compounds) (inner.root var n) := upto_root hvar
    have hg : Gate.OverVariables (n + inner.compounds) (.not (Literal.of (inner.root var n) true)) :=
      fun a ha => ⟨_, hi, List.mem_singleton.mp ha⟩
    rw [auxiliaries, List.flatMap_append, List.flatMap_singleton, List.forall_mem_append,
      List.forall_mem_append, ih hvar hlt, List.forall_mem_singleton]
    refine and_congr_right fun hinner => ?_
    have hroot := root_eq_isTrue hinner
    have hgate := Gate.holds_clauses_iff hn hg w
    simp only [Gate.isTrue, Literal.natAbs_of (hi.inRange hlt), hroot] at hgate
    exact hgate
  | binary op lhs rhs ihl ihr =>
    obtain ⟨hvl, hvr⟩ := List.forall_mem_append.mp hvar
    let m := n + lhs.compounds
    have hle : n ≤ m := Nat.le_add_right _ _
    have hlast : m + rhs.compounds + 1 < 2 ^ 31 := by
      rw [compounds] at hn
      omega
    have hlt : m + rhs.compounds < 2 ^ 31 := Nat.lt_of_succ_lt hlast
    have hltl : n + lhs.compounds < 2 ^ 31 := Nat.lt_of_le_of_lt (Nat.le_add_right _ _) hlt
    have hvm : ∀ a ∈ rhs.leaves, Ident.Upto m (var a) := fun a ha => (hvr a ha).mono hle
    have hi : Ident.Upto m (lhs.root var n) := upto_root hvl
    have hj : Ident.Upto (m + rhs.compounds) (rhs.root var m) := upto_root hvm
    have hg : Gate.OverVariables (m + rhs.compounds)
        (.binary op (Literal.of (lhs.root var n) true) (Literal.of (rhs.root var m) true)) := by
      intro a ha
      rcases List.mem_cons.mp ha with ha | ha
      · exact ⟨_, hi.mono (Nat.le_add_right _ _), ha⟩
      · exact ⟨_, hj, List.mem_singleton.mp ha⟩
    rw [auxiliaries, List.flatMap_append, List.flatMap_append, List.flatMap_singleton,
      List.forall_mem_append, List.forall_mem_append, List.forall_mem_append,
      List.forall_mem_append, ihl hvl hltl, ihr hvm hlt, List.forall_mem_singleton]
    refine and_congr_right fun hboth => ?_
    have hrootl := root_eq_isTrue hboth.1
    have hrootr := root_eq_isTrue hboth.2
    have hgate := Gate.holds_clauses_iff hlast hg w
    simp only [Gate.isTrue, Literal.natAbs_of (hi.inRange hltl),
      Literal.natAbs_of (hj.inRange hlt), hrootl, hrootr] at hgate
    exact hgate

/-! ### The one extension over Booleans -/

/-- Leaves the first `n` variables as they are, and gives the variable of every compound its
Boolean value. -/
def extend (var : String → Ident) (n : Nat) (f : Formula) (v : Ident → Bool) (i : Nat) : Bool :=
  if i ≤ n then v i else (f.compoundNodes[i - n - 1]?).any (isTrue fun b => v (var b))

theorem agree_extend : Agree n v (f.extend var n v) := by
  intro i hi
  obtain ⟨-, hle⟩ := hi
  exact if_pos hle

theorem extend_of_getElem? (h : f.compoundNodes[k]? = some g) :
    f.extend var n v (n + k + 1) = g.isTrue fun b => v (var b) := by
  have hgt : ¬n + k + 1 ≤ n := by omega
  have hk : n + k + 1 - n - 1 = k := by omega
  rw [extend, if_neg hgt, hk, h, Option.any_some]

/-- The values of the compounds depend on the given variables only. -/
theorem isTrue_compound_congr (hvar : ∀ a ∈ f.leaves, Ident.Upto n (var a)) (hvw : Agree n v w)
    (hg : g ∈ f.compoundNodes) :
    (g.isTrue fun b => w (var b)) = g.isTrue fun b => v (var b) :=
  isTrue_congr fun a ha => hvw _ (hvar a (leaves_subset_of_mem_compoundNodes hg ha))

/-- The clauses hold of an assignment that extends `v` just when it is the extension. -/
theorem holds_auxiliaries_iff_agree (hvar : ∀ a ∈ f.leaves, Ident.Upto n (var a))
    (hn : n + f.compounds < 2 ^ 31) (hvw : Agree n v w) :
    (∀ c ∈ (f.auxiliaries var n).flatMap Auxiliary.clauses, c.holds w) ↔
      Agree (n + f.compounds) (f.extend var n v) w := by
  rw [holds_auxiliaries_iff hvar hn]
  constructor
  · intro h i hi
    obtain ⟨h0, hle⟩ := hi
    by_cases hin : i ≤ n
    · rw [hvw i ⟨h0, hin⟩, agree_extend i ⟨h0, hin⟩]
    · obtain ⟨k, rfl⟩ : ∃ k, i = n + k + 1 := ⟨i - n - 1, by omega⟩
      have hk : k < f.compoundNodes.length := by
        rw [length_compoundNodes]
        omega
      obtain ⟨g, hg⟩ : ∃ g, f.compoundNodes[k]? = some g := ⟨_, List.getElem?_eq_getElem hk⟩
      obtain ⟨a, ha, rfl, hident⟩ := exists_auxiliary var n hg
      calc w (n + k + 1) = w a.ident := by rw [← hident]
        _ = a.node.isTrue fun b => w (var b) := h a ha
        _ = a.node.isTrue fun b => v (var b) :=
          isTrue_compound_congr hvar hvw (List.mem_of_getElem? hg)
        _ = f.extend var n v (n + k + 1) := (extend_of_getElem? hg).symm
  · intro h a ha
    obtain ⟨k, hk⟩ := List.mem_iff_getElem?.mp ha
    obtain ⟨hident, hnode⟩ := getElem?_auxiliaries hk
    have hlt : k < f.compounds := by
      rw [← length_compoundNodes]
      exact (List.getElem?_eq_some_iff.mp hnode).1
    calc w a.ident = w (n + k + 1) := by rw [hident]
      _ = f.extend var n v (n + k + 1) := h _ ⟨by omega, by omega⟩
      _ = a.node.isTrue fun b => v (var b) := extend_of_getElem? hnode
      _ = a.node.isTrue fun b => w (var b) :=
        (isTrue_compound_congr hvar hvw (List.mem_of_getElem? hnode)).symm

/-- **Gates are definitions over Booleans.** Above `n` variables, among which are those of the
atoms, a formula is given gates whose variables are the next ones, and every assignment of
the given variables extends to them in exactly one way so that the clauses hold. There the
literal of the root says whether the formula is true. -/
theorem gates_define (f : Formula) (n : Nat) (atoms : List (String × Ident))
    (hatoms : ∀ a ∈ f.leaves, ∃ i, atoms.lookup a = some i ∧ Ident.Upto n i)
    (hn : n + f.compounds < 2 ^ 31) :
    ∃ c, f.gates atoms ⟨n⟩ = (⟨n + f.compounds⟩, .ok c) ∧
      ∀ v : Ident → Bool, ∃ w, Agree n v w ∧ (∀ d ∈ c.clauses, d.holds w) ∧
        (∀ u, Agree n v u → (∀ d ∈ c.clauses, d.holds u) → Agree (n + f.compounds) w u) ∧
        (c.top.holds w ↔ f.isTrue fun a => v ((atoms.lookup a).getD 0)) := by
  let var : String → Ident := fun a => (atoms.lookup a).getD 0
  have hlookup : ∀ a ∈ f.leaves, atoms.lookup a = some (var a) := fun a ha => by
    obtain ⟨i, hi, -⟩ := hatoms a ha
    simp only [var, hi, Option.getD_some]
  have hvar : ∀ a ∈ f.leaves, Ident.Upto n (var a) := fun a ha => by
    obtain ⟨i, hi, hup⟩ := hatoms a ha
    simpa only [var, hi, Option.getD_some] using hup
  refine ⟨_, gates_eq f n hlookup, fun v => ?_⟩
  have hagree : Agree n v (f.extend var n v) := agree_extend
  have hholds := (holds_auxiliaries_iff_agree hvar hn hagree).mpr fun _ _ => rfl
  refine ⟨f.extend var n v, hagree, hholds,
    fun u hvu hu => (holds_auxiliaries_iff_agree hvar hn hvu).mp hu, ?_⟩
  have hroot : f.extend var n v (f.root var n) = f.isTrue fun b => v (var b) :=
    calc f.extend var n v (f.root var n)
        = f.isTrue fun b => f.extend var n v (var b) :=
          root_eq_isTrue ((holds_auxiliaries_iff hvar hn _).mp hholds)
      _ = f.isTrue fun b => v (var b) := isTrue_congr fun a ha => hagree _ (hvar a ha)
  have hr : Ident.InRange (f.root var n) := (upto_root hvar).inRange hn
  rw [Literal.holds_of hr, hroot, beq_true]

/-- Two atoms share a variable, and one compound is a constant. -/
theorem gates_define_shared :
    let f : Formula := .iff (.not (.implies (.atom "A") .falsum)) (.atom "B")
    let atoms : List (String × Ident) := [("A", 2), ("B", 2)]
    (∀ a ∈ f.leaves, ∃ i, atoms.lookup a = some i ∧ Ident.Upto 3 i) ∧ 3 + f.compounds < 2 ^ 31 ∧
      ∃ c, f.gates atoms ⟨3⟩ = (⟨7⟩, .ok c) ∧
        ∀ v : Ident → Bool, ∃ w, Agree 3 v w ∧ (∀ d ∈ c.clauses, d.holds w) ∧
          (∀ u, Agree 3 v u → (∀ d ∈ c.clauses, d.holds u) → Agree 7 w u) ∧ c.top.holds w := by
  intro f atoms
  have hatoms : ∀ a ∈ f.leaves, ∃ i, atoms.lookup a = some i ∧ Ident.Upto 3 i := by
    have hup : Ident.Upto 3 2 := ⟨by decide, by decide⟩
    have hleaves : f.leaves = ["A", "B"] := rfl
    rw [hleaves, List.forall_mem_cons, List.forall_mem_singleton]
    exact ⟨⟨2, rfl, hup⟩, ⟨2, rfl, hup⟩⟩
  have hn : 3 + f.compounds < 2 ^ 31 := by decide
  obtain ⟨c, hc, hext⟩ := gates_define f 3 atoms hatoms hn
  refine ⟨hatoms, hn, c, hc, fun v => ?_⟩
  obtain ⟨w, hvw, hholds, hone, htop⟩ := hext v
  refine ⟨w, hvw, hholds, hone, htop.mpr ?_⟩
  have htrue : (f.isTrue fun a => v ((atoms.lookup a).getD 0)) = ((!(!v 2 || false)) == v 2) := rfl
  rw [htrue]
  cases v 2 <;> rfl

end Formula

/-! ### Extensions above a glut -/

namespace IndicatorTable

variable {table : IndicatorTable} {f g : Formula} {n k : Nat} {v w : Ident → Bool}

section

variable (ht : table.WellFormed) (hlo : table.Below n) (hf : ∀ a ∈ f.leaves, table.Lists a)
  (hn : n + f.compounds < 2 ^ 31)

include ht hlo hf hn

/-- **The variable of a compound** can only be a Boolean that its value admits. -/
theorem admits_of_holds_widenGate (hs : table.Single w)
    (h : ∀ c ∈ (f.auxiliaries table.truth n).flatMap Auxiliary.clauses, (table.widenGate c).holds w)
    (hg : f.compoundNodes[k]? = some g) :
    (g.eval (table.reading w)).admits (w (n + k + 1)) := by
  obtain ⟨a, ha, rfl, hident⟩ := Formula.exists_auxiliary table.truth n hg
  obtain ⟨m, hnm, hle, hroot, hsub⟩ := Formula.exists_auxiliaries_subset ha
  have hleaves := Formula.leaves_subset_of_mem_compoundNodes (List.mem_of_getElem? hg)
  have hrep := represents_auxiliaries ht (fun b hb => hf b (hleaves hb)) (hlo.mono hnm)
    (Nat.lt_of_le_of_lt hle hn)
  refine hrep.sound w hs (fun c hc => ?_) _ ?_
  · obtain ⟨d, hd, hcd⟩ := List.mem_flatMap.mp hc
    rw [← holds_widenGate ht hs]
    exact h c (List.mem_flatMap.mpr ⟨d, hsub hd, hcd⟩)
  · -- no atom has a variable as late as that of a compound
    have hfresh : table.variableValue w (n + k + 1) = .ofBool (w (n + k + 1)) :=
      variableValue_fresh ht (hlo.mono (Nat.le_add_right n k))
    rw [hroot, ← hident, hfresh, Truth.admits_ofBool, beq_self_eq_true]

/-- **Every Boolean that the value of the formula admits** is had at its root. -/
theorem exists_holds_widenGate (hs : table.Single v) {p : Bool}
    (hp : (f.eval (table.reading v)).admits p) : ∃ w, Agree n v w ∧
      (∀ c ∈ (f.auxiliaries table.truth n).flatMap Auxiliary.clauses,
        (table.widenGate c).holds w) ∧
      (table.widenGate [Literal.of (f.root table.truth n) p]).holds w := by
  have hr : Ident.InRange (f.root table.truth n) := (upto_root ht hf hlo).inRange hn
  obtain ⟨w, hw, hc, hroot⟩ := (represents_auxiliaries ht hf hlo hn).complete v hs p hp
  have hsw := single_congr hlo hw hs
  refine ⟨w, hw, fun c hmem => ?_, ?_⟩
  · rw [holds_widenGate ht hsw]
    exact hc c hmem
  · rw [holds_widenGate ht hsw, Clause.admitted_cons_of hr, hroot, Bool.true_or]

end

/-- **Gates above a glut are free.** Take any table that was allocated, with atoms among which
are those of the formula, and any assignment that sets one indicator of each atom. If the
formula is a glut, the gate variables can be chosen for either sign so that the widened
clauses of the gates hold and so does the widened literal of the root with that sign. Whatever
the formula is, a gate variable can only be a Boolean that the value of its compound admits. -/
theorem gates_above_glut (f : Formula) (s : Supply) (atoms : List String) (n : Nat)
    (hatoms : ∀ a ∈ f.leaves, a ∈ atoms) (hs : (allocate s atoms).2.issued ≤ n)
    (hn : n + f.compounds < 2 ^ 31) :
    let table := (allocate s atoms).1
    ∃ c, f.gates table.truthVariables ⟨n⟩ = (⟨n + f.compounds⟩, .ok c) ∧
      ∀ v : Ident → Bool, table.Single v →
        (f.eval (table.reading v) = .b → ∀ p : Bool, ∃ w, Agree n v w ∧
          (∀ d ∈ c.clauses, (table.widenGate d).holds w) ∧
          (table.widenGate [if p then c.top else c.top.flip]).holds w) ∧
        ∀ w, Agree n v w → (∀ d ∈ c.clauses, (table.widenGate d).holds w) →
          ∀ k g, f.compoundNodes[k]? = some g →
            (w (n + k + 1) = true →
              g.eval (table.reading v) = .t ∨ g.eval (table.reading v) = .b) ∧
            (w (n + k + 1) = false →
              g.eval (table.reading v) = .f ∨ g.eval (table.reading v) = .b) := by
  intro table
  obtain ⟨m⟩ := s
  have htable : table = behind m atoms.eraseDups := congrArg Prod.fst (allocate_eq m atoms)
  have hissued : m + 3 * atoms.eraseDups.length ≤ n := by
    rw [allocate_eq] at hs
    exact hs
  have ht : table.WellFormed := by
    rw [htable]
    exact wellFormed_behind (nodup_eraseDups atoms) (by omega)
  have hlo : table.Below n := by
    rw [htable]
    exact below_behind.mono hissued
  have hf : ∀ a ∈ f.leaves, table.Lists a := fun a ha => by
    rw [htable, lists_behind, List.mem_eraseDups]
    exact hatoms a ha
  have hr : Ident.InRange (f.root table.truth n) := (upto_root ht hf hlo).inRange hn
  refine ⟨_, Formula.gates_eq f n fun a ha => lookup_truthVariables_of_lists (hf a ha),
    fun v hv => ⟨fun hb p => ?_, fun w hw hc k g hg => ?_⟩⟩
  · have hadmits : (f.eval (table.reading v)).admits p := by
      rw [hb]
      rfl
    have htop : (if p then Literal.of (f.root table.truth n) true
        else (Literal.of (f.root table.truth n) true).flip) =
          Literal.of (f.root table.truth n) p := by
      cases p with
      | true => rw [if_pos rfl]
      | false => rw [if_neg Bool.false_ne_true, Gate.flip_of_true]
    simp only [htop]
    exact exists_holds_widenGate ht hlo hf hn hv hadmits
  · have hadmits := admits_of_holds_widenGate ht hlo hf hn (single_congr hlo hw hv) hc hg
    rw [reading_congr ht hlo hw, Truth.admits_iff] at hadmits
    refine ⟨fun hset => ?_, fun hunset => ?_⟩
    · rw [hset] at hadmits
      exact hadmits.symm
    · rw [hunset] at hadmits
      exact hadmits.symm

/-- The second operand of a conjunction is true, and the first is a glut, with indicators
behind two other variables. -/
theorem gates_above_glut_conjunction :
    let f : Formula := .and (.atom "A") (.not (.atom "B"))
    let table := (allocate ⟨2⟩ ["B", "A", "B"]).1
    let v : Ident → Bool := fun i => i = 4 || i = 8
    (∀ a ∈ f.leaves, a ∈ ["B", "A", "B"]) ∧ (allocate ⟨2⟩ ["B", "A", "B"]).2.issued ≤ 9 ∧
      9 + f.compounds < 2 ^ 31 ∧ table.Single v ∧ f.eval (table.reading v) = .b ∧
      ∃ c, f.gates table.truthVariables ⟨9⟩ = (⟨11⟩, .ok c) ∧
        ∀ p : Bool, ∃ w, Agree 9 v w ∧ (∀ d ∈ c.clauses, (table.widenGate d).holds w) ∧
          (table.widenGate [if p then c.top else c.top.flip]).holds w ∧ w 10 = true := by
  intro f table v
  have hatoms : ∀ a ∈ f.leaves, a ∈ ["B", "A", "B"] := by decide
  have hs : (allocate ⟨2⟩ ["B", "A", "B"]).2.issued ≤ 9 := by decide
  have hn : 9 + f.compounds < 2 ^ 31 := by decide
  have htable : table = behind 2 ["B", "A"] := congrArg Prod.fst (allocate_eq 2 ["B", "A", "B"])
  have hv : table.Single v := by
    rw [htable]
    unfold Single
    decide
  have hb : f.eval (table.reading v) = .b := by
    rw [htable]
    decide
  obtain ⟨c, hc, hfree⟩ := gates_above_glut f ⟨2⟩ ["B", "A", "B"] 9 hatoms hs hn
  obtain ⟨hsome, hall⟩ := hfree v hv
  refine ⟨hatoms, hs, hn, hv, hb, c, hc, fun p => ?_⟩
  obtain ⟨w, hw, hclauses, htop⟩ := hsome hb p
  refine ⟨w, hw, hclauses, htop, ?_⟩
  have hnode := (hall w hw hclauses 0 (.not (.atom "B")) rfl).2
  cases hset : w 10 with
  | true => rfl
  | false => exact absurd (hnode hset) (by decide)

/-- Behind `2 ^ 31` variables the gate of a negation is over another variable. With `A` true
and that variable set, the widened clauses hold, and the variable of `!A` is true. -/
theorem gates_above_glut_wrapped :
    let f : Formula := .not (.atom "A")
    let table := (allocate ⟨0⟩ ["A"]).1
    let v : Ident → Bool := fun i => i = 1 || i = 2147483647
    let w : Ident → Bool := fun i => i = 1 || i = 2147483647 || i = 2147483649
    (∀ a ∈ f.leaves, a ∈ ["A"]) ∧ (allocate ⟨0⟩ ["A"]).2.issued ≤ 2147483648 ∧ table.Single v ∧
      ∃ c, f.gates table.truthVariables ⟨2147483648⟩ = (⟨2147483649⟩, .ok c) ∧
        Agree 2147483648 v w ∧ (∀ d ∈ c.clauses, (table.widenGate d).holds w) ∧
        f.compoundNodes[0]? = some f ∧ w 2147483649 = true ∧ f.eval (table.reading v) = .f := by
  intro f table v w
  have hsingle : table.Single v := by
    unfold Single
    decide
  have hagree : Agree 2147483648 v w := fun i hi => by
    obtain ⟨-, hle⟩ := hi
    have hne : i ≠ 2147483649 := by omega
    simp only [v, w, hne, decide_false, Bool.or_false]
  exact ⟨by decide, by decide, hsingle, ⟨-2147483647, [[2147483647, -1], [-2147483647, 1]]⟩,
    by decide, hagree, by decide, rfl, rfl, by decide⟩

end IndicatorTable

end LeastGlut
