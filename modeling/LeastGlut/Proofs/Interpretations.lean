/-
# What the shown terms say, in any order

Each shown term is read by itself, so the terms in another order are read as the same
things in another order. Of these, an atom's value counts only where it is the one value
found, and formulas are listed by their identifiers. So no order of the terms changes a
solution that is read, or makes one out of a refusal (`KnowledgeBase.interpret_perm`).

Terms that give each atom one value, by either name of it, and flag the formulas of a set
are read as this valuation and this set (`KnowledgeBase.interpret_of_tells`).

Key definitions: `Shown.given?`, `Term.IsOther`, `KnowledgeBase.calledInconsistent`,
`KnowledgeBase.Tells`, `Solution.Records`.
-/
import LeastGlut.Interpretation
import LeastGlut.Proofs.Encodings
import Mathlib.Data.Finset.Card
import Mathlib.Data.List.Nodup
import Mathlib.Data.List.Sort

namespace LeastGlut

/-! ### Values found -/

section

variable {atoms : List String} {found found' : List (String × Truth)} {a : String}

theorem valuesOf_eq (hn : found.Nodup) {x : Truth} (h : ∀ y, (a, y) ∈ found ↔ y = x) :
    valuesOf found a = [x] := by
  have hmem : ∀ y, y ∈ valuesOf found a ↔ y ∈ [x] := fun y => by
    rw [List.mem_singleton, ← h, valuesOf, List.mem_map]
    constructor
    · intro hp
      obtain ⟨⟨b, z⟩, hz, rfl⟩ := hp
      obtain ⟨hz, hb⟩ := List.mem_filter.mp hz
      exact (of_decide_eq_true hb : b = a) ▸ hz
    · exact fun hy => ⟨(a, y), List.mem_filter.mpr ⟨hy, decide_eq_true rfl⟩, rfl⟩
  have hnodup : (valuesOf found a).Nodup := by
    refine (hn.filter _).map_on fun d hd e he hde => Prod.ext ?_ hde
    have hda := of_decide_eq_true (List.mem_filter.mp hd).2
    have hea := of_decide_eq_true (List.mem_filter.mp he).2
    exact hda.trans hea.symm
  exact List.perm_singleton.mp
    ((List.perm_ext_iff_of_nodup hnodup (List.nodup_singleton x)).mpr hmem)

/-- Where each atom is found with one value, the valuation gives it that value. -/
theorem valuation_eq {x : String → Truth} (hn : found.Nodup)
    (h : ∀ a ∈ atoms, ∀ y, (a, y) ∈ found ↔ y = x a) :
    valuation atoms found = .ok ((atoms.map fun a => ⟨a, x a⟩).mergeSort
      fun d e => decide (d.atom ≤ e.atom)) := by
  have hvalues : atoms.mapM (valueOf found) = .ok (atoms.map fun a => ⟨a, x a⟩) := by
    apply mapM_eq_ok
    intro a ha
    unfold valueOf
    rw [valuesOf_eq hn (h a ha)]
  unfold valuation
  rw [hvalues]
  rfl

theorem valueOf_eq_ok_iff {e : Solution.Entry} :
    valueOf found a = .ok e ↔ a = e.atom ∧ valuesOf found a = [e.value] := by
  unfold valueOf
  split
  next value hone =>
    rw [hone]
    constructor
    · intro h
      cases h
      exact ⟨rfl, rfl⟩
    · rintro ⟨rfl, h⟩
      rw [(List.cons.inj h).1]
  next values hvalues =>
    refine iff_of_false (fun h => by cases h) ?_
    rintro ⟨-, h⟩
    exact hvalues _ h

theorem valueOf_eq_error {e : SolveError} (h : valueOf found a = .error e) :
    e = .values a (valuesOf found a) := by
  unfold valueOf at h
  split at h
  next => cases h
  next => exact (Except.error.inj h).symm

/-- One value is all there is, in any order of what is found. -/
theorem valueOf_perm (h : found.Perm found') {e : Solution.Entry} (he : valueOf found a = .ok e) :
    valueOf found' a = .ok e := by
  have hvalues : (valuesOf found a).Perm (valuesOf found' a) := (h.filter _).map _
  obtain ⟨ha, hone⟩ := valueOf_eq_ok_iff.mp he
  rw [hone] at hvalues
  exact valueOf_eq_ok_iff.mpr ⟨ha, List.perm_singleton.mp hvalues.symm⟩

theorem valuation_eq_ok_iff {es : List Solution.Entry} : valuation atoms found = .ok es ↔
    ∃ entries, atoms.mapM (valueOf found) = .ok entries ∧
      entries.mergeSort (fun d e => decide (d.atom ≤ e.atom)) = es := by
  unfold valuation
  cases atoms.mapM (valueOf found) with
  | error e => simp [Except.map]
  | ok entries => simp [Except.map]

theorem exists_of_valuation_eq_error {e : SolveError} (h : valuation atoms found = .error e) :
    ∃ a ∈ atoms, e = .values a (valuesOf found a) := by
  unfold valuation at h
  cases hm : atoms.mapM (valueOf found) with
  | ok es =>
    rw [hm] at h
    cases h
  | error e' =>
    rw [hm] at h
    cases h
    obtain ⟨a, ha, hvalue⟩ := exists_of_mapM_eq_error hm
    exact ⟨a, ha, valueOf_eq_error hvalue⟩

theorem valuation_perm (h : found.Perm found') {es : List Solution.Entry}
    (hes : valuation atoms found = .ok es) : valuation atoms found' = .ok es := by
  obtain ⟨entries, hentries, hsort⟩ := valuation_eq_ok_iff.mp hes
  refine valuation_eq_ok_iff.mpr ⟨entries, ?_, hsort⟩
  exact mapM_eq_ok_iff.mpr ((mapM_eq_ok_iff.mp hentries).imp fun _ _ => valueOf_perm h)

/-- Entries of different atoms are in strict order once sorted. -/
theorem pairwise_mergeSort_atom {es : List Solution.Entry} (h : (es.map (·.atom)).Nodup) :
    (es.mergeSort fun d e => decide (d.atom ≤ e.atom)).Pairwise (·.atom < ·.atom) := by
  have hle : (es.mergeSort fun d e => decide (d.atom ≤ e.atom)).Pairwise
      fun d e => decide (d.atom ≤ e.atom) = true := by
    refine List.pairwise_mergeSort (fun c d e hcd hde => ?_) (fun d e => ?_) es
    · rw [decide_eq_true_eq] at hcd hde ⊢
      exact String.le_trans hcd hde
    · rw [Bool.or_eq_true, decide_eq_true_eq, decide_eq_true_eq]
      exact String.le_total d.atom e.atom
  have hne : (es.mergeSort fun d e => decide (d.atom ≤ e.atom)).Pairwise
      fun d e => d.atom ≠ e.atom :=
    List.pairwise_map.mp (((List.mergeSort_perm es _).map _).nodup_iff.mpr h)
  refine hle.imp₂ (fun d e hle hne => ?_) hne
  exact String.not_le.mp fun hge => hne (String.le_antisymm (of_decide_eq_true hle) hge)

/-- **A valuation** has one entry for each atom, with the one value found for it, in strict
order of the atoms. -/
theorem valuation_eq_ok_iff_values (hn : atoms.Nodup) {es : List Solution.Entry} :
    valuation atoms found = .ok es ↔ (es.map (·.atom)).Perm atoms ∧
      es.Pairwise (·.atom < ·.atom) ∧ ∀ e ∈ es, valuesOf found e.atom = [e.value] := by
  rw [valuation_eq_ok_iff]
  have hatoms : ∀ entries, List.Forall₂ (fun b e => valueOf found b = .ok e) atoms entries →
      entries.map (·.atom) = atoms := fun entries h => by
    have heq : List.Forall₂ Eq atoms (entries.map (·.atom)) :=
      List.forall₂_map_right_iff.mpr (h.imp fun _ _ hb => (valueOf_eq_ok_iff.mp hb).1)
    rw [List.forall₂_eq_eq_eq] at heq
    exact heq.symm
  constructor
  · rintro ⟨entries, hentries, rfl⟩
    have hvalues := mapM_eq_ok_iff.mp hentries
    have hmap := hatoms entries hvalues
    refine ⟨?_, pairwise_mergeSort_atom (hmap ▸ hn), fun e he => ?_⟩
    · exact ((List.mergeSort_perm _ _).map _).trans (List.Perm.of_eq hmap)
    · obtain ⟨b, -, hb⟩ := exists_mem_of_forall₂ hvalues (List.mem_mergeSort.mp he)
      obtain ⟨rfl, hone⟩ := valueOf_eq_ok_iff.mp hb
      exact hone
  · rintro ⟨hperm, hsorted, hvalues⟩
    have hentry : ∀ b ∈ atoms, ∃ e ∈ es, valueOf found b = .ok e := fun b hb => by
      obtain ⟨e, he, rfl⟩ := List.mem_map.mp (hperm.mem_iff.mpr hb)
      exact ⟨e, he, valueOf_eq_ok_iff.mpr ⟨rfl, hvalues e he⟩⟩
    obtain ⟨entries, hentries⟩ := exists_forall₂ fun b hb => (hentry b hb).imp fun _ h => h.2
    have hmem : ∀ e, e ∈ entries ↔ e ∈ es := fun e => by
      constructor
      · intro he
        obtain ⟨b, hb, hbe⟩ := exists_mem_of_forall₂ hentries he
        obtain ⟨d, hd, hbd⟩ := hentry b hb
        rwa [Except.ok.inj (hbe.symm.trans hbd)]
      · intro he
        have hatom : e.atom ∈ atoms := hperm.mem_iff.mp (List.mem_map_of_mem he)
        obtain ⟨d, hd, hed⟩ := exists_mem_of_forall₂ hentries.flip hatom
        rwa [Except.ok.inj ((valueOf_eq_ok_iff.mpr ⟨rfl, hvalues e he⟩).symm.trans hed)]
    refine ⟨entries, mapM_eq_ok_iff.mpr hentries, ?_⟩
    have hnodup : (entries.map (·.atom)).Nodup := hatoms entries hentries ▸ hn
    have hes : (es.map (·.atom)).Nodup := hperm.nodup_iff.mpr hn
    have hsame : entries.Perm es :=
      (List.perm_ext_iff_of_nodup (.of_map _ hnodup) (.of_map _ hes)).mpr hmem
    exact ((List.mergeSort_perm _ _).trans hsame).eq_of_pairwise
      (fun d e _ _ hde hed => absurd hed (String.lt_asymm hde)) (pairwise_mergeSort_atom hnodup)
      hsorted

end

/-! ### What a term says -/

/-- The atom and the value that it is given. -/
def Shown.given? : Shown → Option (String × Truth)
  | value a v => some (a, v)
  | _ => none

/-- A function that is neither `val` of a text and a constant nor `f_inconsistent` of a
number. -/
def Term.IsOther : Term → Prop
  | .function "val" [.text _, .function _ []] => False
  | .function "f_inconsistent" [.number _] => False
  | .function _ _ => True
  | _ => False

theorem Truth.ofName?_name (v : Truth) : ofName? v.name = .ok v := by
  cases v <;> rfl

theorem Truth.ofName?_text (v : Truth) : ofName? (Program.ValueTerm.value v).text = .ok v := by
  cases v <;> rfl

namespace Shown

variable {kb : KnowledgeBase} {a name : String} {v : Truth} {id : Nat} {t : Term}

theorem ofTerm_val (ha : a ∈ kb.atoms) (hv : Truth.ofName? name = .ok v) :
    ofTerm kb (.function "val" [.text a, .function name []]) = .ok (.value a v) := by
  have hcontains : kb.atoms.contains a = true := List.contains_iff_mem.mpr ha
  simp only [ofTerm, hv, hcontains, if_true]

theorem ofTerm_inconsistent (h : id < kb.size) :
    ofTerm kb (.function "f_inconsistent" [.number id]) = .ok (.inconsistent id) := by
  have hid : (0 : Int) ≤ id ∧ (id : Int) < kb.size := ⟨Int.natCast_nonneg id, Int.ofNat_lt.mpr h⟩
  simp only [ofTerm, if_pos hid, Int.toNat_natCast]

theorem ofTerm_of_isOther (h : t.IsOther) : ofTerm kb t = .ok .other := by
  unfold ofTerm
  split
  next => exact h.elim
  next => exact h.elim
  next => rfl
  next hfunction =>
    cases t with
    | function f args => exact absurd rfl (hfunction f args)
    | _ => exact h.elim

end Shown

namespace KnowledgeBase

variable {kb : KnowledgeBase} {a b : Answer} {s : Solution} {shown shown' : List Shown}

/-- The formulas that are called inconsistent, in ascending order. -/
def calledInconsistent (kb : KnowledgeBase) (shown : List Shown) : List Nat :=
  (List.range kb.size).filter fun id => shown.contains (.inconsistent id)

theorem mem_calledInconsistent {id : Nat} :
    id ∈ kb.calledInconsistent shown ↔ id < kb.size ∧ .inconsistent id ∈ shown := by
  rw [calledInconsistent, List.mem_filter, List.mem_range, List.contains_iff_mem]

theorem calledInconsistent_perm (h : shown.Perm shown') :
    kb.calledInconsistent shown = kb.calledInconsistent shown' := by
  refine List.filter_congr fun id _ => ?_
  rw [Bool.eq_iff_iff, List.contains_iff_mem, List.contains_iff_mem, h.mem_iff]

/-- **A solution is read** when each term is, each atom has its one value and the cost is the
number of the formulas that are called inconsistent. -/
theorem interpret_eq_ok_iff : kb.interpret a = .ok s ↔
    ∃ shown entries, a.terms.mapM (Shown.ofTerm kb) = .ok shown ∧
      valuation kb.atoms (shown.filterMap Shown.given?) = .ok entries ∧
      (kb.calledInconsistent shown).length = a.cost ∧
      s = ⟨.asp, a.cost, kb.calledInconsistent shown, entries⟩ := by
  have hbind : kb.interpret a = a.terms.mapM (Shown.ofTerm kb) >>= fun shown =>
      valuation kb.atoms (shown.filterMap Shown.given?) >>= fun entries =>
        let inconsistent := kb.calledInconsistent shown
        if inconsistent.length ≠ a.cost then
          .error (.solver (.inconsistentCount a.cost inconsistent.length))
        else .ok ⟨.asp, inconsistent.length, inconsistent, entries⟩ := rfl
  simp only [hbind, bind_eq_ok_iff]
  constructor
  · rintro ⟨shown, hshown, entries, hentries, h⟩
    split at h
    next => cases h
    next hcount =>
      have hcount := not_not.mp hcount
      cases h
      exact ⟨shown, entries, hshown, hentries, hcount, by rw [← hcount]⟩
  · rintro ⟨shown, entries, hshown, hentries, hcount, rfl⟩
    refine ⟨shown, hshown, entries, hentries, ?_⟩
    rw [if_neg (not_not.mpr hcount), hcount]

/-- **The order of the terms does not matter.** -/
theorem interpret_perm (hterms : a.terms.Perm b.terms) (hcost : a.cost = b.cost)
    (h : kb.interpret a = .ok s) : kb.interpret b = .ok s := by
  obtain ⟨shown, entries, hshown, hentries, hcount, rfl⟩ := interpret_eq_ok_iff.mp h
  obtain ⟨shown', hshown', hperm⟩ := mapM_perm hterms hshown
  refine interpret_eq_ok_iff.mpr ⟨shown', entries, hshown', ?_, ?_, ?_⟩
  · exact valuation_perm (hperm.filterMap _) hentries
  · rw [← calledInconsistent_perm hperm, hcount, hcost]
  · rw [← calledInconsistent_perm hperm, hcost]

/-! ### Terms that tell a valuation and a set of formulas -/

/-- The terms tell that the atoms have these values and that just the formulas in `S` are
inconsistent, in any order: one `val` for each atom, with the long or the short name of its
value, one `f_inconsistent` or more for each formula, and functions that say neither. -/
def Tells (kb : KnowledgeBase) (v : String → Truth) (S : Finset Nat) (terms : List Term) : Prop :=
  ∃ (name : String → String) (ids : List Nat) (others : List Term),
    (∀ b ∈ kb.atoms, name b = (v b).name ∨ name b = (Program.ValueTerm.value (v b)).text) ∧
      (∀ id, id ∈ ids ↔ id ∈ S) ∧ (∀ t ∈ others, t.IsOther) ∧
      terms.Perm (kb.atoms.map (fun b => .function "val" [.text b, .function (name b) []]) ++
        ids.map (fun id : Nat => .function "f_inconsistent" [.number id]) ++ others)

end KnowledgeBase

/-- The solution holds just these values, in strict order of the atoms, and just the formulas
in `S`, in ascending order. -/
structure Solution.Records (s : Solution) (kb : KnowledgeBase) (v : String → Truth)
    (S : Finset Nat) : Prop where
  strategy : s.strategy = .asp
  cost : s.cost = S.card
  ascending : s.inconsistent.Pairwise (· < ·)
  mem_inconsistent : ∀ id, id ∈ s.inconsistent ↔ id ∈ S
  sorted : s.valuation.Pairwise (·.atom < ·.atom)
  valuation : s.valuation.Perm (kb.atoms.map fun b => ⟨b, v b⟩)

namespace KnowledgeBase

variable {kb : KnowledgeBase} {v : String → Truth} {S : Finset Nat} {terms : List Term}

theorem exists_shown_of_tells (hS : ∀ id ∈ S, id < kb.size) (h : kb.Tells v S terms) :
    ∃ shown, terms.mapM (Shown.ofTerm kb) = .ok shown ∧
      (shown.filterMap Shown.given?).Perm (kb.atoms.map fun b => (b, v b)) ∧
      ∀ id, .inconsistent id ∈ shown ↔ id ∈ S := by
  obtain ⟨name, ids, others, hname, hids, hothers, hterms⟩ := h
  have hvalues : (kb.atoms.map fun b => Term.function "val" [.text b, .function (name b) []]).mapM
      (Shown.ofTerm kb) = .ok (kb.atoms.map fun b => .value b (v b)) := by
    rw [List.mapM_map]
    refine mapM_eq_ok fun b hb => Shown.ofTerm_val hb ?_
    rcases hname b hb with h | h
    · rw [h, Truth.ofName?_name]
    · rw [h, Truth.ofName?_text]
  have hflags : (ids.map fun id : Nat => Term.function "f_inconsistent" [.number id]).mapM
      (Shown.ofTerm kb) = .ok (ids.map .inconsistent) := by
    rw [List.mapM_map]
    exact mapM_eq_ok fun id hid => Shown.ofTerm_inconsistent (hS id ((hids id).mp hid))
  have hrest : others.mapM (Shown.ofTerm kb) = .ok (others.map fun _ => .other) :=
    mapM_eq_ok fun t ht => Shown.ofTerm_of_isOther (hothers t ht)
  obtain ⟨shown, hshown, hperm⟩ := mapM_perm hterms.symm (f := Shown.ofTerm kb) (by
    rw [List.mapM_append, List.mapM_append, hvalues, hflags, hrest]
    rfl)
  refine ⟨shown, hshown, ?_, fun id => ?_⟩
  · refine (hperm.symm.filterMap _).trans (List.Perm.of_eq ?_)
    simp [List.filterMap_append, List.filterMap_map, Function.comp_def, Shown.given?]
  · rw [← hperm.mem_iff, ← hids]
    simp

theorem interpret_of_tells (hS : ∀ id ∈ S, id < kb.size) (h : kb.Tells v S terms) :
    ∃ s, kb.interpret ⟨S.card, terms⟩ = .ok s ∧ s.Records kb v S := by
  obtain ⟨shown, hshown, hfound, hflags⟩ := exists_shown_of_tells hS h
  have hnodup : (kb.atoms.map fun b => (b, v b)).Nodup :=
    kb.nodup_atoms.map fun b c h => congrArg Prod.fst h
  have hvaluation := @valuation_eq kb.atoms _ v (hfound.nodup_iff.mpr hnodup) fun b hb y => by
    rw [hfound.mem_iff, List.mem_map]
    constructor
    · rintro ⟨c, -, hc⟩
      cases hc
      rfl
    · rintro rfl
      exact ⟨b, hb, rfl⟩
  have hmem : ∀ id, id ∈ kb.calledInconsistent shown ↔ id ∈ S := fun id => by
    rw [mem_calledInconsistent, hflags]
    exact ⟨fun h => h.2, fun h => ⟨hS id h, h⟩⟩
  have hcount : (kb.calledInconsistent shown).length = S.card := by
    have hnodup : (kb.calledInconsistent shown).Nodup := List.nodup_range.filter _
    rw [← List.toFinset_card_of_nodup hnodup]
    exact congrArg Finset.card (Finset.ext fun id => by rw [List.mem_toFinset, hmem])
  refine ⟨_, interpret_eq_ok_iff.mpr ⟨shown, _, hshown, hvaluation, hcount, rfl⟩, rfl, rfl,
    List.pairwise_lt_range.filter _, hmem, pairwise_mergeSort_atom ?_, List.mergeSort_perm _ _⟩
  rw [List.map_map]
  exact (List.map_id _).symm ▸ kb.nodup_atoms

/-- **What the terms tell is what is read,** whatever their order; and of no terms at all does
the order matter to the solution that is read, or to whether one is. -/
theorem interpret_faithful (kb : KnowledgeBase) :
    (∀ v S terms, (∀ id ∈ S, id < kb.size) → kb.Tells v S terms →
      ∃ s, kb.interpret ⟨S.card, terms⟩ = .ok s ∧ s.Records kb v S) ∧
    ∀ a b s, a.terms.Perm b.terms → a.cost = b.cost →
      (kb.interpret a = .ok s ↔ kb.interpret b = .ok s) :=
  ⟨fun _ _ _ hS h => interpret_of_tells hS h, fun _ _ _ hterms hcost =>
    ⟨interpret_perm hterms hcost, interpret_perm hterms.symm hcost.symm⟩⟩

theorem interpret_faithful_reversed :
    let kb : KnowledgeBase := ⟨[.atom "b", .and (.not (.atom "b")) (.atom "a")]⟩
    let v : String → Truth := fun b => if b = "b" then .b else .t
    let terms : List Term := [.function "val" [.text "c"], .function "f_inconsistent" [.number 1],
      .function "f_inconsistent" [.number 0], .function "f_inconsistent" [.number 1],
      .function "val" [.text "a", .function "t" []],
      .function "val" [.text "b", .function "both" []]]
    (∀ id ∈ ({0, 1} : Finset Nat), id < kb.size) ∧ kb.Tells v {0, 1} terms ∧
      ∃ s, kb.interpret ⟨2, terms⟩ = .ok s ∧ s.Records kb v {0, 1} ∧
        kb.interpret ⟨2, terms.reverse⟩ = .ok s := by
  intro kb v terms
  have hS : ∀ id ∈ ({0, 1} : Finset Nat), id < kb.size := by decide
  have htells : kb.Tells v {0, 1} terms := by
    refine ⟨fun b => if b = "b" then "both" else "t", [1, 0, 1], [.function "val" [.text "c"]],
      by decide, by simp, ?_, (List.reverse_perm terms).symm⟩
    exact List.forall_mem_singleton.mpr trivial
  obtain ⟨s, hs, hrecords⟩ := (interpret_faithful kb).1 v {0, 1} terms hS htells
  refine ⟨hS, htells, s, hs, hrecords, ?_⟩
  exact ((interpret_faithful kb).2 ⟨2, terms⟩ ⟨2, terms.reverse⟩ s
    (List.reverse_perm terms).symm rfl).mp hs

end KnowledgeBase
end LeastGlut
