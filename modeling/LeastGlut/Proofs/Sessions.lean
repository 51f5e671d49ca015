/-
# Sessions over one supply

In a session one supply serves requests for single identifiers, for tables of atoms
and for gates of formulas, in any order, each with what the ones before it left. Gates
stop at the first atom that their map does not hold and keep what they took before it,
so a failed request moves the supply too.

A ledger is a supply that also notes each identifier it gives out. The operations on
ledgers are those on supplies, with `Ledger.fresh` for `Supply.fresh`, and they answer
the same (`Ledger.serve_supply`). Nothing but `Ledger.fresh` moves a ledger, so each
request leaves it without a gap (`Ledger.Gapless.serve`), and by induction a whole
session does (`Ledger.Gapless.serveAll`).

What a request takes is counted on its argument: three identifiers for each distinct
atom, and one for each compound that stands, in post-order, before the leaf at which
the gates stop (`Formula.exists_firstUnmapped`).

Key definitions: `Request`, `Supply.serveAll`, `Ledger`, `Formula.postorder`,
`Formula.FirstUnmapped`.
-/
import LeastGlut.Proofs.Auxiliaries

namespace LeastGlut

/-! ### Requests -/

/-- What may be asked of a supply: an identifier, a table of atoms, or the gates of a
formula over a map of atoms. -/
inductive Request
  | fresh
  | table (atoms : List String)
  | gates (f : Formula) (ids : List (String × Ident))

inductive Reply
  | ident (i : Ident)
  | table (table : IndicatorTable)
  | gates (result : Except EncodeError GateCnf)

namespace Supply

def serve (s : Supply) : Request → Reply × Supply
  | .fresh =>
    let (i, s) := s.fresh
    (.ident i, s)
  | .table atoms =>
    let (table, s) := IndicatorTable.allocate s atoms
    (.table table, s)
  | .gates f ids =>
    let (s, result) := f.gates ids s
    (.gates result, s)

/-- The replies to requests in order, each served with what the ones before it left. -/
def serveAll (s : Supply) : List Request → List Reply × Supply
  | [] => ([], s)
  | q :: rest =>
    let (reply, s) := s.serve q
    let (replies, s) := s.serveAll rest
    (reply :: replies, s)

end Supply

/-! ### Ledgers -/

/-- A supply with every identifier taken from it, in the order in which they were taken. -/
structure Ledger where
  supply : Supply
  taken : List Ident

namespace Ledger

def blank : Ledger := ⟨.empty, []⟩

/-- Takes an identifier and notes it. -/
def fresh (l : Ledger) : Ident × Ledger :=
  let (i, s) := l.supply.fresh
  (i, ⟨s, l.taken ++ [i]⟩)

def allocateEach (l : Ledger) : List String → List (String × Indicators) × Ledger
  | [] => ([], l)
  | atom :: rest =>
    let (t, l) := l.fresh
    let (f, l) := l.fresh
    let (b, l) := l.fresh
    let (entries, l) := l.allocateEach rest
    ((atom, ⟨t, f, b⟩) :: entries, l)

def allocate (l : Ledger) (atoms : List String) : IndicatorTable × Ledger :=
  let (entries, l) := l.allocateEach atoms.eraseDups
  (⟨entries⟩, l)

def extend (below : List Clause) (g : Gate) (l : Ledger) : Ledger × Except EncodeError GateCnf :=
  let (v, l) := l.fresh
  let top := Literal.of v true
  (l, .ok ⟨top, below ++ g.clauses top⟩)

def gates (ids : List (String × Ident)) : Formula → Ledger → Ledger × Except EncodeError GateCnf
  | .atom name, l => match ids.lookup name with
    | some i => (l, .ok ⟨Literal.of i true, []⟩)
    | none => (l, .error (.unmappedAtom name))
  | .verum, l => extend [] (.const true) l
  | .falsum, l => extend [] (.const false) l
  | .not inner, l => match gates ids inner l with
    | (l, .ok c) => extend c.clauses (.not c.top) l
    | (l, .error e) => (l, .error e)
  | .binary op lhs rhs, l => match gates ids lhs l with
    | (l, .ok c) => match gates ids rhs l with
      | (l, .ok d) => extend (c.clauses ++ d.clauses) (.binary op c.top d.top) l
      | (l, .error e) => (l, .error e)
    | (l, .error e) => (l, .error e)

def serve (l : Ledger) : Request → Reply × Ledger
  | .fresh =>
    let (i, l) := l.fresh
    (.ident i, l)
  | .table atoms =>
    let (table, l) := l.allocate atoms
    (.table table, l)
  | .gates f ids =>
    let (l, result) := gates ids f l
    (.gates result, l)

def serveAll (l : Ledger) : List Request → List Reply × Ledger
  | [] => ([], l)
  | q :: rest =>
    let (reply, l) := l.serve q
    let (replies, l) := l.serveAll rest
    (reply :: replies, l)

/-! ### A ledger answers as its supply does -/

theorem allocateEach_supply (l : Ledger) (atoms : List String) :
    IndicatorTable.allocateEach l.supply atoms =
      ((l.allocateEach atoms).1, (l.allocateEach atoms).2.supply) := by
  induction atoms generalizing l with
  | nil => rfl
  | cons a atoms ih =>
    have hrest := ih l.fresh.2.fresh.2.fresh.2
    simp only [fresh] at hrest
    simp only [IndicatorTable.allocateEach, allocateEach, fresh, hrest]

theorem gates_supply (ids : List (String × Ident)) (f : Formula) (l : Ledger) :
    f.gates ids l.supply = ((gates ids f l).1.supply, (gates ids f l).2) := by
  induction f generalizing l with
  | atom name =>
    simp only [Formula.gates, gates]
    cases ids.lookup name <;> rfl
  | verum => rfl
  | falsum => rfl
  | not inner ih =>
    simp only [Formula.gates, gates, ih]
    obtain ⟨l', result⟩ := gates ids inner l
    cases result <;> rfl
  | binary op lhs rhs ihl ihr =>
    simp only [Formula.gates, gates, ihl]
    obtain ⟨l', result⟩ := gates ids lhs l
    cases result with
    | error e => rfl
    | ok c =>
      simp only [ihr]
      obtain ⟨l'', result⟩ := gates ids rhs l'
      cases result <;> rfl

theorem serve_supply (l : Ledger) (q : Request) :
    l.supply.serve q = ((l.serve q).1, (l.serve q).2.supply) := by
  cases q with
  | fresh => rfl
  | table atoms => simp only [Supply.serve, serve, IndicatorTable.allocate, allocate,
      allocateEach_supply]
  | gates f ids => simp only [Supply.serve, serve, gates_supply]

theorem serveAll_supply (l : Ledger) (requests : List Request) :
    l.supply.serveAll requests = ((l.serveAll requests).1, (l.serveAll requests).2.supply) := by
  induction requests generalizing l with
  | nil => rfl
  | cons q rest ih => simp only [Supply.serveAll, serveAll, serve_supply, ih]

/-! ### No gap and no repeat -/

/-- The identifiers taken are the first ones, in order, each once. -/
def Gapless (l : Ledger) : Prop := l.taken = List.range' 1 l.supply.issued

theorem Gapless.blank : blank.Gapless := rfl

variable {l : Ledger}

theorem Gapless.fresh (h : l.Gapless) : l.fresh.2.Gapless := by
  have hlast : l.supply.issued + 1 = 1 + l.supply.issued := Nat.add_comm _ _
  show l.taken ++ [l.supply.issued + 1] = List.range' 1 (l.supply.issued + 1)
  rw [List.range'_1_concat, hlast, h]

theorem Gapless.allocateEach (h : l.Gapless) (atoms : List String) :
    (l.allocateEach atoms).2.Gapless := by
  induction atoms generalizing l with
  | nil => exact h
  | cons a atoms ih => exact ih h.fresh.fresh.fresh

theorem Gapless.gates (h : l.Gapless) (ids : List (String × Ident)) (f : Formula) :
    (Ledger.gates ids f l).1.Gapless := by
  induction f generalizing l with
  | atom name =>
    unfold Ledger.gates
    cases ids.lookup name <;> exact h
  | verum => exact h.fresh
  | falsum => exact h.fresh
  | not inner ih =>
    have hinner := ih h
    unfold Ledger.gates
    generalize Ledger.gates ids inner l = r at hinner ⊢
    obtain ⟨l', _ | c⟩ := r
    · exact hinner
    · exact hinner.fresh
  | binary op lhs rhs ihl ihr =>
    have hl := ihl h
    unfold Ledger.gates
    generalize Ledger.gates ids lhs l = r at hl ⊢
    obtain ⟨l', _ | c⟩ := r
    · exact hl
    · have hr := ihr hl
      dsimp only at hr ⊢
      generalize Ledger.gates ids rhs l' = r at hr ⊢
      obtain ⟨l'', _ | d⟩ := r
      · exact hr
      · exact hr.fresh

/-- **A request leaves no gap**, also one that fails. -/
theorem Gapless.serve (h : l.Gapless) (q : Request) : (l.serve q).2.Gapless := by
  cases q with
  | fresh => exact h.fresh
  | table atoms => exact h.allocateEach _
  | gates f ids => exact h.gates ids f

theorem Gapless.serveAll (h : l.Gapless) (requests : List Request) :
    (l.serveAll requests).2.Gapless := by
  induction requests generalizing l with
  | nil => exact h
  | cons q rest ih => exact ih (h.serve q)

end Ledger

/-! ### Where gates stop -/

namespace Formula

/-- Every node, operands before the node. -/
def postorder : Formula → List Formula
  | atom name => [atom name]
  | verum => [verum]
  | falsum => [falsum]
  | not inner => inner.postorder ++ [not inner]
  | binary op lhs rhs => lhs.postorder ++ rhs.postorder ++ [binary op lhs rhs]

/-- The name of an atom. -/
def name? : Formula → Option String
  | atom name => some name
  | _ => none

/-- Whether a node is no atom. -/
def isCompound (f : Formula) : Bool := f.name?.isNone

theorem filterMap_postorder (f : Formula) : f.postorder.filterMap name? = f.leaves := by
  induction f with
  | atom name => rfl
  | verum => rfl
  | falsum => rfl
  | not inner ih =>
    rw [postorder, List.filterMap_append, ih]
    exact List.append_nil _
  | binary op lhs rhs ihl ihr =>
    rw [postorder, List.filterMap_append, List.filterMap_append, ihl, ihr]
    exact List.append_nil _

theorem countP_postorder (f : Formula) : f.postorder.countP isCompound = f.compounds := by
  induction f with
  | atom name => rfl
  | verum => rfl
  | falsum => rfl
  | not inner ih =>
    rw [postorder, List.countP_append, ih]
    rfl
  | binary op lhs rhs ihl ihr =>
    rw [postorder, List.countP_append, List.countP_append, ihl, ihr]
    rfl

theorem atom_mem_postorder {f : Formula} {a : String} : atom a ∈ f.postorder ↔ a ∈ f.leaves := by
  rw [← filterMap_postorder, List.mem_filterMap]
  constructor
  · exact fun h => ⟨atom a, h, rfl⟩
  · rintro ⟨g, hg, hname⟩
    cases g with
    | atom name => rwa [← Option.some.inj hname]
    | _ => cases hname

/-- The atom `a`, with `before` in front of it, is the first node that is an atom which the map
does not hold. -/
structure FirstUnmapped (ids : List (String × Ident)) (nodes before : List Formula)
    (a : String) : Prop where
  split : ∃ after, nodes = before ++ atom a :: after
  mapped : ∀ b, atom b ∈ before → ids.lookup b ≠ none
  unmapped : ids.lookup a = none

variable {ids : List (String × Ident)} {f : Formula} {nodes before : List Formula} {a : String}

theorem FirstUnmapped.append (h : FirstUnmapped ids nodes before a) (more : List Formula) :
    FirstUnmapped ids (nodes ++ more) before a := by
  obtain ⟨after, hsplit⟩ := h.split
  refine ⟨⟨after ++ more, ?_⟩, h.mapped, h.unmapped⟩
  rw [hsplit, List.append_assoc, List.cons_append]

theorem FirstUnmapped.behind (h : FirstUnmapped ids nodes before a) {front : List Formula}
    (hfront : ∀ b, atom b ∈ front → ids.lookup b ≠ none) :
    FirstUnmapped ids (front ++ nodes) (front ++ before) a := by
  obtain ⟨after, hsplit⟩ := h.split
  refine ⟨⟨after, ?_⟩, fun b hb => ?_, h.unmapped⟩
  · rw [hsplit, List.append_assoc]
  · exact (List.mem_append.mp hb).elim (hfront b) (h.mapped b)

/-- A map that holds all atoms of a formula leads to gates, one for each compound. -/
theorem exists_gates_eq (hf : ∀ a ∈ f.leaves, ids.lookup a ≠ none) (s : Supply) :
    ∃ c, f.gates ids s = (⟨s.issued + f.compounds⟩, .ok c) := by
  have hlookup : ∀ a ∈ f.leaves, ids.lookup a = some ((ids.lookup a).getD 0) := fun a ha => by
    obtain ⟨i, hi⟩ := Option.ne_none_iff_exists'.mp (hf a ha)
    rw [hi, Option.getD_some]
  exact ⟨_, f.gates_eq s.issued hlookup⟩

/-- In post-order the leaves come from left to right. -/
theorem FirstUnmapped.find? (h : FirstUnmapped ids f.postorder before a) :
    f.leaves.find? (fun b => (ids.lookup b).isNone) = some a := by
  obtain ⟨after, hsplit⟩ := h.split
  rw [← filterMap_postorder, hsplit, List.filterMap_append, List.find?_eq_some_iff_append]
  refine ⟨by rw [h.unmapped]; rfl, _, _, rfl, fun b hb => ?_⟩
  obtain ⟨g, hg, hname⟩ := List.mem_filterMap.mp hb
  cases g with
  | atom name =>
    obtain rfl := Option.some.inj hname
    rw [Option.not_isNone, Option.isSome_iff_ne_none]
    exact h.mapped name hg
  | _ => cases hname

/-- **Gates stop at the first atom that the map does not hold**, with a variable taken for each
compound before it. -/
theorem exists_firstUnmapped (hf : ∃ a ∈ f.leaves, ids.lookup a = none) :
    ∃ before a, FirstUnmapped ids f.postorder before a ∧ ∀ s, f.gates ids s =
      (⟨s.issued + before.countP isCompound⟩, .error (.unmappedAtom a)) := by
  induction f with
  | atom name =>
    obtain ⟨a, ha, hnone⟩ := hf
    obtain rfl := List.mem_singleton.mp ha
    refine ⟨[], a, ⟨⟨[], rfl⟩, fun _ hb => absurd hb List.not_mem_nil, hnone⟩, fun s => ?_⟩
    simp only [gates, hnone]
    rfl
  | verum | falsum =>
    obtain ⟨a, ha, -⟩ := hf
    cases ha
  | not inner ih =>
    obtain ⟨before, a, hfirst, hgates⟩ := ih hf
    refine ⟨before, a, hfirst.append _, fun s => ?_⟩
    simp only [gates, hgates]
  | binary op lhs rhs ihl ihr =>
    by_cases hl : ∃ a ∈ lhs.leaves, ids.lookup a = none
    · obtain ⟨before, a, hfirst, hgates⟩ := ihl hl
      refine ⟨before, a, (hfirst.append _).append _, fun s => ?_⟩
      simp only [gates, hgates]
    -- the left operand takes all its variables, so the right one starts behind them
    · have hlhs : ∀ a ∈ lhs.leaves, ids.lookup a ≠ none := fun a ha hnone => hl ⟨a, ha, hnone⟩
      have hr : ∃ a ∈ rhs.leaves, ids.lookup a = none := by
        obtain ⟨a, ha, hnone⟩ := hf
        rcases List.mem_append.mp ha with ha | ha
        · exact absurd hnone (hlhs a ha)
        · exact ⟨a, ha, hnone⟩
      obtain ⟨before, a, hfirst, hgates⟩ := ihr hr
      have hbehind := hfirst.behind fun b hb => hlhs b (atom_mem_postorder.mp hb)
      refine ⟨lhs.postorder ++ before, a, hbehind.append _, fun s => ?_⟩
      obtain ⟨c, hc⟩ := exists_gates_eq hlhs s
      simp only [gates, hc, hgates, List.countP_append, countP_postorder, Nat.add_assoc]

end Formula

/-! ### Whole sessions -/

namespace Supply

open Formula

/-- **No identifier is given out twice in a session.** What the requests of a session take
from its supply are the first identifiers, in order. A table takes three for each distinct atom,
and gates one for each compound. Gates fail just when the map does not hold an atom of the
formula: then they name the first such leaf, and have taken one identifier for each compound in
front of it in post-order. -/
theorem session_identifiers :
    (∀ requests : List Request,
      (Ledger.blank.serveAll requests).1 = (empty.serveAll requests).1 ∧
      (Ledger.blank.serveAll requests).2.supply = (empty.serveAll requests).2 ∧
      (Ledger.blank.serveAll requests).2.taken =
        List.range' 1 (empty.serveAll requests).2.issued ∧
      (Ledger.blank.serveAll requests).2.taken.Nodup) ∧
    (∀ (s : Supply) (atoms : List String),
      (IndicatorTable.allocate s atoms).2.issued = s.issued + 3 * atoms.eraseDups.length ∧
      (IndicatorTable.allocate s atoms).1.entries.flatMap (fun e => Truth.all.map e.2.get) =
        List.range' (s.issued + 1) (3 * atoms.eraseDups.length)) ∧
    ∀ (s : Supply) (f : Formula) (ids : List (String × Ident)),
      ((∃ e, (f.gates ids s).2 = .error e) ↔ ∃ a ∈ f.atoms, ids.lookup a = none) ∧
      (∀ c, (f.gates ids s).2 = .ok c →
        (f.gates ids s).1.issued = s.issued + f.postorder.countP isCompound) ∧
      ∀ e, (f.gates ids s).2 = .error e → ∃ before a, FirstUnmapped ids f.postorder before a ∧
        f.leaves.find? (fun b => (ids.lookup b).isNone) = some a ∧ e = .unmappedAtom a ∧
        (f.gates ids s).1.issued = s.issued + before.countP isCompound := by
  refine ⟨fun requests => ?_, fun s atoms => ?_, fun s f ids => ?_⟩
  · have hserve := Ledger.serveAll_supply Ledger.blank requests
    have hgapless := Ledger.Gapless.blank.serveAll requests
    rw [show empty.serveAll requests = _ from hserve]
    refine ⟨rfl, rfl, hgapless, ?_⟩
    rw [hgapless]
    exact List.nodup_range'
  · rw [IndicatorTable.allocate_eq s.issued atoms]
    exact ⟨rfl, IndicatorTable.indicators_behind _ _⟩
  · simp only [mem_atoms]
    by_cases hf : ∃ a ∈ f.leaves, ids.lookup a = none
    · obtain ⟨before, a, hfirst, hgates⟩ := exists_firstUnmapped hf
      rw [hgates s]
      refine ⟨iff_of_true ⟨_, rfl⟩ hf, fun c hc => ?_, fun e he => ?_⟩
      · cases hc
      · exact ⟨before, a, hfirst, hfirst.find?, (Except.error.inj he).symm, rfl⟩
    · obtain ⟨c, hc⟩ := exists_gates_eq (fun a ha hnone => hf ⟨a, ha, hnone⟩) s
      rw [hc, countP_postorder]
      refine ⟨iff_of_false (fun he => ?_) hf, fun _ _ => rfl, fun e he => ?_⟩
      · obtain ⟨e, he⟩ := he
        cases he
      · cases he

/-- Gates that stop at `B` have taken three variables; the table goes on behind them. -/
theorem session_identifiers_interrupted :
    let f : Formula := .or (.and (.not (.atom "A")) .verum) (.iff (.atom "B") (.atom "C"))
    let ids : List (String × Ident) := [("A", 1)]
    (Ledger.blank.serveAll [.fresh, .gates f ids, .table ["A", "A"]]).2.taken =
      [1, 2, 3, 4, 5, 6, 7] ∧
    (f.gates ids ⟨1⟩).2 = .error (.unmappedAtom "B") ∧
    ∃ before, FirstUnmapped ids f.postorder before "B" ∧
      (f.gates ids ⟨1⟩).1.issued = 1 + before.countP isCompound ∧ before.countP isCompound = 3 := by
  intro f ids
  obtain ⟨hruns, -, hgates⟩ := session_identifiers
  obtain ⟨-, -, htaken, -⟩ := hruns [.fresh, .gates f ids, .table ["A", "A"]]
  obtain ⟨-, -, hfails⟩ := hgates ⟨1⟩ f ids
  have herror : (f.gates ids ⟨1⟩).2 = .error (.unmappedAtom "B") := rfl
  obtain ⟨before, a, hfirst, -, hname, hissued⟩ := hfails _ herror
  obtain rfl : "B" = a := EncodeError.unmappedAtom.inj hname
  have hcount : 1 + 3 = 1 + before.countP isCompound := hissued
  exact ⟨htaken, herror, before, hfirst, hissued, (Nat.add_left_cancel hcount).symm⟩

end Supply
end LeastGlut
