/-
# Programs and clauses agree

An answer set is shown by the terms of its values and of its inconsistent
formulas. Every shown term of an answer set is read back as what its atom says
(`Shown.ofTerm_of_term?`), so the terms, in whichever order, are read as the
valuation that the answer set chooses and the formulas that hold one of its
gluts (`KnowledgeBase.interpret_eq_of_shows`).

The answer sets are the valuations that designate the knowledge base. A model
of the hard clauses costs at least as much as its valuation, and each valuation
is had at its cost (`KnowledgeBase.exists_costs`), so the least answer set and
the least model cost the same.

Key definitions: `inconsistentIn`, `Program.IsLeastAnswer`, `Shown.term?`,
`Answer.Shows`.
-/
import LeastGlut.Proofs.Mirrors
import LeastGlut.Proofs.Programs

namespace LeastGlut

open AnswerSets

/-! ### Least answer sets -/

/-- The formulas that a set of atoms calls inconsistent. -/
def inconsistentIn (I : Set GroundAtom) : Set Nat := {id | .inconsistent id ∈ I}

/-- An answer set of the program that calls as few formulas inconsistent as any. -/
structure Program.IsLeastAnswer (p : Program) (I : Set GroundAtom) : Prop where
  isAnswerSet : IsAnswerSet p.rules I
  least : ∀ J, IsAnswerSet p.rules J → (inconsistentIn I).encard ≤ (inconsistentIn J).encard

namespace KnowledgeBase

variable {kb : KnowledgeBase} {x : String → Truth} {I : Set GroundAtom}

theorem encard_inconsistentIn_answer :
    (inconsistentIn (kb.answer x)).encard = (kb.glutted x).length := by
  have hnodup : (kb.glutted x).Nodup := List.nodup_range.filter _
  have hset : inconsistentIn (kb.answer x) = ((kb.glutted x).toFinset : Set Nat) := by
    ext id
    rw [Finset.mem_coe, List.mem_toFinset]
    rfl
  rw [hset, Set.encard_coe_eq_coe_finsetCard, List.toFinset_card_of_nodup hnodup]

/-- **A least answer set** is that of a valuation with as few inconsistent formulas as any
that designates the knowledge base. -/
theorem isLeastAnswer_iff : (Program.ofKnowledgeBase kb).IsLeastAnswer I ↔
    ∃ x, I = kb.answer x ∧ kb.Designates x ∧
      ∀ y, kb.Designates y → (kb.glutted x).length ≤ (kb.glutted y).length := by
  constructor
  · intro h
    obtain ⟨x, hx, rfl⟩ := isAnswerSet_rules_iff.mp h.isAnswerSet
    refine ⟨x, rfl, hx, fun y hy => ?_⟩
    have hle := h.least _ (isAnswerSet_rules_iff.mpr ⟨y, hy, rfl⟩)
    rw [encard_inconsistentIn_answer, encard_inconsistentIn_answer] at hle
    exact Nat.cast_le.mp hle
  · rintro ⟨x, rfl, hx, hleast⟩
    refine ⟨isAnswerSet_rules_iff.mpr ⟨x, hx, rfl⟩, fun J hJ => ?_⟩
    obtain ⟨y, hy, rfl⟩ := isAnswerSet_rules_iff.mp hJ
    rw [encard_inconsistentIn_answer, encard_inconsistentIn_answer]
    exact Nat.cast_le.mpr (hleast y hy)

end KnowledgeBase

/-! ### Shown terms -/

/-- The term that says so: `val/2` and `f_inconsistent/1` are shown, and nothing else. -/
def Shown.term? : Shown → Option Term
  | value a v => some (.function "val" [.text a, .function (Program.ValueTerm.value v).text []])
  | inconsistent id => some (.function "f_inconsistent" [.number id])
  | other => none

/-- What a ground atom says of the knowledge base. -/
def GroundAtom.shown : GroundAtom → Shown
  | val a v => .value a v
  | inconsistent id => .inconsistent id
  | _ => .other

/-- The terms are those of the answer set's shown atoms, each once and in any order, and
the cost is the number of inconsistent formulas. -/
structure Answer.Shows (a : Answer) (I : Set GroundAtom) : Prop where
  nodup : a.terms.Nodup
  mem_terms : ∀ t, t ∈ a.terms ↔ ∃ g ∈ I, g.shown.term? = some t
  cost : (inconsistentIn I).encard = a.cost

/-- Which order the terms are in does not matter. -/
theorem Answer.Shows.perm {a b : Answer} {I : Set GroundAtom} (h : a.Shows I)
    (hterms : a.terms.Perm b.terms) (hcost : a.cost = b.cost) : b.Shows I where
  nodup := hterms.nodup_iff.mp h.nodup
  mem_terms t := hterms.mem_iff.symm.trans (h.mem_terms t)
  cost := hcost ▸ h.cost

/-- The atom or the formula is one of the knowledge base. -/
def Shown.Known (kb : KnowledgeBase) : Shown → Prop
  | value a _ => a ∈ kb.atoms
  | inconsistent id => id < kb.size
  | other => True

/-- A term says one thing only. -/
theorem Shown.eq_of_term? {s s' : Shown} {t : Term} (h : s.term? = some t)
    (h' : s'.term? = some t) : s = s' := by
  have he := h.trans h'.symm
  cases s with
  | value a v =>
    cases s' with
    | value b w =>
      simp only [term?, Option.some.injEq, Term.function.injEq, List.cons.injEq,
        Term.text.injEq, true_and, and_true] at he
      obtain ⟨rfl, hname⟩ := he
      have hvalue := Truth.ofName?_text v
      rw [hname, Truth.ofName?_text] at hvalue
      rw [Except.ok.inj hvalue]
    | inconsistent id => simp [term?] at he
    | other => cases h'
  | inconsistent id =>
    cases s' with
    | value b w => simp [term?] at he
    | inconsistent id' => simpa [term?] using he
    | other => cases h'
  | other => cases h

/-- **A shown term is read back** as what it says. -/
theorem Shown.ofTerm_of_term? {kb : KnowledgeBase} {s : Shown} {t : Term} (hs : s.Known kb)
    (h : s.term? = some t) : Shown.ofTerm kb t = .ok s := by
  cases s with
  | value a v =>
    obtain rfl := Option.some_inj.mp h
    exact ofTerm_val hs (Truth.ofName?_text v)
  | inconsistent id =>
    obtain rfl := Option.some_inj.mp h
    exact ofTerm_inconsistent hs
  | other => cases h

namespace KnowledgeBase

variable {kb : KnowledgeBase} {x : String → Truth} {I : Set GroundAtom} {a : Answer}

theorem known_shown {g : GroundAtom} (hg : g ∈ kb.answer x) : g.shown.Known kb := by
  cases g with
  | val b v => exact hg.1
  | inconsistent id => exact List.mem_range.mp (List.mem_filter.mp hg).1
  | _ => trivial

/-- All terms of an answer are read, each as what an atom of the answer set says. -/
theorem exists_shown (h : a.Shows (kb.answer x)) : ∃ shown : List Shown,
    a.terms.mapM (Shown.ofTerm kb) = .ok shown ∧ shown.Nodup ∧
      ∀ s, s ∈ shown ↔ s ≠ .other ∧ ∃ g ∈ kb.answer x, g.shown = s := by
  let read := fun t => (Shown.ofTerm kb t).toOption.getD .other
  have hread : ∀ g ∈ kb.answer x, ∀ t, g.shown.term? = some t →
      Shown.ofTerm kb t = .ok g.shown ∧ read t = g.shown := fun g hg t ht => by
    have hok := Shown.ofTerm_of_term? (known_shown hg) ht
    exact ⟨hok, by simp only [read, hok]; rfl⟩
  refine ⟨a.terms.map read, mapM_eq_ok fun t ht => ?_, h.nodup.map_on ?_, fun s => ?_⟩
  · obtain ⟨g, hg, hgt⟩ := (h.mem_terms t).mp ht
    obtain ⟨hok, hr⟩ := hread g hg t hgt
    rw [hok, hr]
  · -- what is read has one term, so two terms are not read alike
    intro t ht u hu htu
    obtain ⟨g, hg, hgt⟩ := (h.mem_terms t).mp ht
    obtain ⟨k, hk, hku⟩ := (h.mem_terms u).mp hu
    rw [(hread g hg t hgt).2, (hread k hk u hku).2] at htu
    rw [htu, hku] at hgt
    exact (Option.some_inj.mp hgt).symm
  · rw [List.mem_map]
    constructor
    · rintro ⟨t, ht, rfl⟩
      obtain ⟨g, hg, hgt⟩ := (h.mem_terms t).mp ht
      rw [(hread g hg t hgt).2]
      refine ⟨fun ho => ?_, g, hg, rfl⟩
      rw [ho] at hgt
      cases hgt
    · rintro ⟨ho, g, hg, rfl⟩
      obtain ⟨t, ht⟩ : ∃ t, g.shown.term? = some t := by
        cases hs : g.shown with
        | value b v => exact ⟨_, rfl⟩
        | inconsistent id => exact ⟨_, rfl⟩
        | other => exact absurd hs ho
      exact ⟨t, (h.mem_terms t).mpr ⟨g, hg, ht⟩, (hread g hg t ht).2⟩

theorem value_shown_iff {b : String} {v : Truth} :
    (∃ g ∈ kb.answer x, g.shown = .value b v) ↔ b ∈ kb.atoms ∧ x b = v := by
  constructor
  · intro h
    obtain ⟨g, hg, hs⟩ := h
    cases g with
    | val c w =>
      cases hs
      exact hg
    | _ => cases hs
  · exact fun h => ⟨.val b v, h, rfl⟩

theorem inconsistent_shown_iff {id : Nat} :
    (∃ g ∈ kb.answer x, g.shown = .inconsistent id) ↔ id ∈ kb.glutted x := by
  constructor
  · intro h
    obtain ⟨g, hg, hs⟩ := h
    cases g with
    | inconsistent i =>
      cases hs
      exact hg
    | _ => cases hs
  · exact fun h => ⟨.inconsistent id, h, rfl⟩

/-- An answer that shows what is concluded from a valuation, in the order of the atoms and
then of the formulas. -/
def shownAnswer (kb : KnowledgeBase) (x : String → Truth) : Answer where
  cost := (kb.glutted x).length
  terms := (kb.atoms.map (fun b => Shown.value b (x b)) ++
    (kb.glutted x).map Shown.inconsistent).filterMap Shown.term?

/-- **Every answer set can be shown.** -/
theorem shows_shownAnswer : (kb.shownAnswer x).Shows (kb.answer x) where
  nodup := by
    have hvalues : (kb.atoms.map fun b => Shown.value b (x b)).Nodup :=
      kb.nodup_atoms.map fun b c h => (Shown.value.inj h).1
    have hids : ((kb.glutted x).map Shown.inconsistent).Nodup :=
      (List.nodup_range.filter _).map fun i j h => Shown.inconsistent.inj h
    refine List.Nodup.filterMap (fun s s' t hs hs' => ?_) (hvalues.append hids ?_)
    · exact Shown.eq_of_term? hs hs'
    · intro s hs hs'
      obtain ⟨b, -, rfl⟩ := List.mem_map.mp hs
      obtain ⟨id, -, he⟩ := List.mem_map.mp hs'
      cases he
  mem_terms t := by
    have hsaid : ∀ s, s ∈ kb.atoms.map (fun b => Shown.value b (x b)) ++
        (kb.glutted x).map Shown.inconsistent ↔
        s ≠ .other ∧ ∃ g ∈ kb.answer x, g.shown = s := fun s => by
      rw [List.mem_append, List.mem_map, List.mem_map]
      cases s with
      | value b v => simp [value_shown_iff, eq_comm]
      | inconsistent id => simp [inconsistent_shown_iff]
      | other => simp
    show t ∈ List.filterMap _ _ ↔ _
    rw [List.mem_filterMap]
    constructor
    · rintro ⟨s, hs, ht⟩
      obtain ⟨-, g, hg, rfl⟩ := (hsaid s).mp hs
      exact ⟨g, hg, ht⟩
    · rintro ⟨g, hg, ht⟩
      exact ⟨g.shown, (hsaid _).mpr ⟨fun ho => (by rw [ho] at ht; cases ht), g, hg, rfl⟩, ht⟩
  cost := encard_inconsistentIn_answer

/-- **Reading an answer** gives each atom its value, and flags the formulas that hold a
glutted atom. -/
theorem interpret_eq_of_shows (h : a.Shows (kb.answer x)) :
    kb.interpret a = .ok ⟨.asp, (kb.glutted x).length, kb.glutted x,
      (kb.atoms.map fun b => ⟨b, x b⟩).mergeSort fun d e => decide (d.atom ≤ e.atom)⟩ := by
  obtain ⟨shown, hshown, hnodup, hmem⟩ := exists_shown h
  let found := shown.filterMap Shown.given?
  have hfound : ∀ b v, (b, v) ∈ found ↔ b ∈ kb.atoms ∧ x b = v := fun b v => by
    rw [← value_shown_iff, List.mem_filterMap]
    constructor
    · rintro ⟨s, hs, he⟩
      cases s with
      | value c w =>
        cases he
        exact ((hmem _).mp hs).2
      | inconsistent id => cases he
      | other => cases he
    · exact fun hs => ⟨.value b v, (hmem _).mpr ⟨by simp, hs⟩, rfl⟩
  have hdistinct : found.Nodup := by
    refine hnodup.filterMap fun s s' p hp hp' => ?_
    cases s <;> cases s' <;> cases hp <;> cases hp'
    rfl
  have hvaluation := @valuation_eq kb.atoms found x hdistinct fun b hb v => by
    rw [hfound]
    exact ⟨fun hv => hv.2.symm, fun hv => ⟨hb, hv.symm⟩⟩
  have hcalled : kb.calledInconsistent shown = kb.glutted x := by
    refine List.filter_congr fun id hid => ?_
    rw [Bool.eq_iff_iff, List.contains_iff_mem, hmem, inconsistent_shown_iff, glutted,
      List.mem_filter]
    exact ⟨fun hs => hs.2.2, fun hg => ⟨by simp, hid, hg⟩⟩
  have hcost : a.cost = (kb.glutted x).length := by
    have hc := h.cost
    rw [encard_inconsistentIn_answer] at hc
    exact (Nat.cast_inj.mp hc).symm
  refine interpret_eq_ok_iff.mpr ⟨shown, _, hshown, hvaluation, ?_, ?_⟩
  · rw [hcalled, hcost]
  · rw [hcalled, hcost]

/-! ### Agreement -/

/-- What the models of the hard clauses cost, in either form: at least what their
valuations do, and each valuation is had at its cost. -/
theorem exists_costs {e : Encoding} (he : kb.encode form = .ok e)
    (h : kb.identCount form < 2 ^ 31) :
    (∀ v, (∀ c ∈ e.clauses.hard, c.holds v) →
      ∃ y, kb.Designates y ∧ (kb.glutted y).length ≤ e.clauses.cost v) ∧
    ∀ y, kb.Designates y →
      ∃ v, (∀ c ∈ e.clauses.hard, c.holds v) ∧ e.clauses.cost v = (kb.glutted y).length := by
  have hn := namedCount_lt h
  obtain ⟨hard, he', hp⟩ := exists_encode kb form h
  obtain rfl := Except.ok.inj (he'.symm.trans he)
  refine ⟨fun v hv => ?_, fun y hy => exists_cost_eq hn hp hy⟩
  have hfits := (exists_holds_iff_fits hn hp).mp ⟨v, fun _ _ => rfl, hv⟩
  refine ⟨kb.table.reading v, hfits.designated, ?_⟩
  rw [cost_encodingOf hn]
  exact (glutted_sublist_flagged hfits).length_le

/-- **The program and the clauses agree.** An engine that shows a least answer set is read
as a solution that designates the knowledge base by the values chosen, and flags the
formulas that hold a glutted atom. Every knowledge base has an encoding in either form. As
long as no literal of it wraps round, that cost is the least cost of a model of the hard
clauses, and there is an answer set just when these have a model. -/
theorem solveProgram_agrees (kb : KnowledgeBase) :
    (∀ engine a I, engine (.ofKnowledgeBase kb) = .ok a →
      (Program.ofKnowledgeBase kb).IsLeastAnswer I → a.Shows I →
      ∃ s x, kb.solveProgram engine = .ok s ∧ kb.Chooses I x ∧ s.Solves kb x ∧
        ∀ form, ∃ e, kb.encode form = .ok e ∧ (kb.identCount form < 2 ^ 31 →
          IsLeast {n | ∃ v, (∀ c ∈ e.clauses.hard, c.holds v) ∧ e.clauses.cost v = n} s.cost)) ∧
    ∀ form, ∃ e, kb.encode form = .ok e ∧ (kb.identCount form < 2 ^ 31 →
      ((∃ I, IsAnswerSet (Program.ofKnowledgeBase kb).rules I) ↔
        ∃ v, ∀ c ∈ e.clauses.hard, c.holds v)) := by
  constructor
  · intro engine a I ha hI hshows
    obtain ⟨x, rfl, hx, hleast⟩ := isLeastAnswer_iff.mp hI
    have hsolve : kb.solveProgram engine = kb.interpret a := by
      unfold solveProgram
      rw [ha]
      rfl
    have hmin : IsLeast {n | ∃ y, kb.Designates y ∧ (kb.glutted y).length = n}
        (kb.glutted x).length := by
      refine ⟨⟨x, hx, rfl⟩, ?_⟩
      rintro _ ⟨y, hy, rfl⟩
      exact hleast y hy
    refine ⟨_, x, hsolve.trans (interpret_eq_of_shows hshows), chooses_answer,
      ⟨List.mergeSort_perm _ _, hx, rfl, rfl, hmin⟩, fun form => ?_⟩
    obtain ⟨e, he⟩ := kb.encode_succeeds form
    refine ⟨e, he, fun h => ?_⟩
    obtain ⟨hcosts, hhad⟩ := exists_costs he h
    refine ⟨hhad x hx, ?_⟩
    rintro _ ⟨v, hv, rfl⟩
    obtain ⟨y, hy, hle⟩ := hcosts v hv
    exact Nat.le_trans (hleast y hy) hle
  · intro form
    obtain ⟨e, he⟩ := kb.encode_succeeds form
    refine ⟨e, he, fun h => ?_⟩
    obtain ⟨hcosts, hhad⟩ := exists_costs he h
    constructor
    · intro hp
      obtain ⟨I, hI⟩ := hp
      obtain ⟨x, hx, -⟩ := isAnswerSet_rules_iff.mp hI
      obtain ⟨v, hv, -⟩ := hhad x hx
      exact ⟨v, hv⟩
    · intro hp
      obtain ⟨v, hv⟩ := hp
      obtain ⟨y, hy, -⟩ := hcosts v hv
      exact ⟨_, isAnswerSet_rules_iff.mpr ⟨y, hy, rfl⟩⟩

theorem solveProgram_agrees_conflict :
    let kb : KnowledgeBase := ⟨[.atom "A", .not (.or (.atom "A") .falsum), .atom "B"]⟩
    let a : Answer := ⟨2, [.function "f_inconsistent" [.number 1],
      .function "f_inconsistent" [.number 0], .function "val" [.text "B", .function "t" []],
      .function "val" [.text "A", .function "b" []]]⟩
    (∃ I, (Program.ofKnowledgeBase kb).IsLeastAnswer I ∧ a.Shows I) ∧
      kb.identCount .tseitin < 2 ^ 31 ∧
      ∃ s e, kb.solveProgram (fun _ => .ok a) = .ok s ∧ s.inconsistent = [0, 1] ∧
        kb.encode .tseitin = .ok e ∧
        IsLeast {n | ∃ v, (∀ c ∈ e.clauses.hard, c.holds v) ∧ e.clauses.cost v = n} s.cost := by
  intro kb a
  let x : String → Truth := fun b => if b = "A" then .b else .t
  have hglutted : kb.glutted x = [0, 1] := by decide
  have hforced : ∀ y, kb.Designates y → y "A" = .b := by
    intro y hy
    have hpos := hy (.atom "A") (by simp [kb])
    have hneg := hy (.not (.or (.atom "A") .falsum)) (by simp [kb])
    revert hpos hneg
    simp only [Formula.eval]
    cases y "A" <;> decide
  have hI : (Program.ofKnowledgeBase kb).IsLeastAnswer (kb.answer x) := by
    refine isLeastAnswer_iff.mpr ⟨x, rfl, by decide, fun y hy => ?_⟩
    rw [hglutted]
    have hsub : [0, 1] ⊆ kb.glutted y := by
      refine List.cons_subset.mpr ⟨?_, List.cons_subset.mpr ⟨?_, List.nil_subset _⟩⟩ <;>
        exact glutted_mem_iff.mpr
          ⟨_, rfl, Formula.glutted_iff.mpr ⟨"A", by decide, hforced y hy⟩⟩
    exact (List.subperm_of_subset (by decide) hsub).length_le
  have hshows : a.Shows (kb.answer x) :=
    shows_shownAnswer.perm (List.reverse_perm a.terms) rfl
  have ht : kb.identCount .tseitin < 2 ^ 31 := by decide
  obtain ⟨s, y, hs, hy, hsolves, hform⟩ :=
    (solveProgram_agrees kb).1 (fun _ => .ok a) a _ rfl hI hshows
  obtain ⟨e, he, hleast⟩ := hform .tseitin
  have hxy : ∀ b ∈ kb.atoms, x b = y b := fun b hb =>
    (chooses_answer b hb _).mp ((hy b hb _).mpr rfl)
  refine ⟨⟨_, hI, hshows⟩, ht, s, e, hs, ?_, he, hleast ht⟩
  rw [hsolves.inconsistent, ← glutted_congr hxy, hglutted]

/-- With enough atoms that two mirror each other, the program has an answer set and the
hard clauses have no model. -/
theorem isAnswerSet_numerals :
    (∃ I, IsAnswerSet (Program.ofKnowledgeBase (numerals 715827884)).rules I) ∧
      ∀ form e, (numerals 715827884).encode form = .ok e →
        ¬∃ v, ∀ c ∈ e.clauses.hard, c.holds v := by
  have hx : (numerals 715827884).Designates fun _ => .t := fun f hf => by
    obtain ⟨i, rfl⟩ := mem_numerals hf
    rfl
  refine ⟨⟨_, isAnswerSet_rules_iff.mpr ⟨_, hx, rfl⟩⟩, fun form e he => ?_⟩
  refine not_exists.mpr (not_holds_of_length_atoms he ?_)
  rw [length_atoms_numerals]
  decide

end KnowledgeBase
end LeastGlut
