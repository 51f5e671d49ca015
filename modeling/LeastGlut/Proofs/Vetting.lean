/-
# What a solution vouches for

A solution by way of a program has passed the run, its report and the terms of the answer.
The run counts only with the exit code for an exhausted search (`Answer.ofRun_eq_ok_iff`). The
report counts only with a last answer that it proves least (`AnswerReport.ofReport_eq_ok_iff`).
The terms count only where each says something of the knowledge base
(`Shown.ofTerm_eq_ok_iff`), and together they give each atom one value and flag as many
formulas as the answer costs (`KnowledgeBase.interpret_eq_ok_iff_vetted`). Nothing that the solver
writes as an error is read.

Key definitions: `Term.Says`, `Term.gives?`, `Solution.Vetted`, `SolverRun.withErrors`.
-/
import LeastGlut.Proofs.Interpretations
import LeastGlut.Proofs.Reports
import LeastGlut.Solving

namespace LeastGlut

/-! ### Terms of an answer -/

/-- What a term says of a knowledge base that holds what it names. -/
inductive Term.Says (kb : KnowledgeBase) : Term → Shown → Prop
  | value {a name : String} {v : Truth} (ha : a ∈ kb.atoms) (hv : Truth.ofName? name = .ok v) :
    Says kb (.function "val" [.text a, .function name []]) (.value a v)
  | inconsistent {id : Nat} (hid : id < kb.size) :
    Says kb (.function "f_inconsistent" [.number id]) (.inconsistent id)
  | other {t : Term} (ht : t.IsOther) : Says kb t .other

/-- The atom and the value that a term gives it. -/
def Term.gives? : Term → Option (String × Truth)
  | .function "val" [.text a, .function name []] => (Truth.ofName? name).toOption.map (a, ·)
  | _ => none

section

variable {kb : KnowledgeBase} {t : Term} {terms : List Term} {what : Shown} {shown : List Shown}

/-- **A term is read** just as what it says, and refused where it says nothing. -/
theorem Shown.ofTerm_eq_ok_iff : ofTerm kb t = .ok what ↔ t.Says kb what := by
  constructor
  · intro h
    unfold ofTerm at h
    split at h
    next a name =>
      cases hv : Truth.ofName? name with
      | error e =>
        rw [hv] at h
        cases h
      | ok v =>
        simp only [hv] at h
        split at h
        next ha =>
          cases h
          exact .value (List.contains_iff_mem.mp ha) hv
        next => cases h
    next id =>
      split at h
      next hid =>
        obtain ⟨n, rfl⟩ := Int.eq_ofNat_of_zero_le hid.1
        cases h
        exact .inconsistent (Int.ofNat_lt.mp hid.2)
      next => cases h
    next f args hval hflag =>
      cases h
      refine .other ?_
      unfold Term.IsOther
      split
      next heq =>
        obtain ⟨hf, hargs⟩ := Term.function.inj heq
        exact hval _ _ hf hargs
      next heq =>
        obtain ⟨hf, hargs⟩ := Term.function.inj heq
        exact hflag _ hf hargs
      next => trivial
      next hfunction => exact hfunction f args rfl
    next => cases h
  · rintro (⟨ha, hv⟩ | hid | ht)
    · exact ofTerm_val ha hv
    · exact ofTerm_inconsistent hid
    · exact ofTerm_of_isOther ht

theorem Term.Says.gives?_eq (h : t.Says kb what) : t.gives? = what.given? := by
  cases h with
  | value ha hv =>
    rw [gives?, hv]
    rfl
  | inconsistent hid => rfl
  | other ht =>
    unfold gives?
    split
    next => exact ht.elim
    next => rfl

theorem Term.Says.eq_inconsistent_iff {id : Int} (h : t.Says kb what) :
    t = .function "f_inconsistent" [.number id] ↔ ∃ n : Nat, what = .inconsistent n ∧ n = id := by
  cases h with
  | value ha hv => simp
  | inconsistent hid => simp
  | other ht =>
    refine iff_of_false ?_ (by simp)
    rintro rfl
    exact ht

/-- The terms give what is found in what they say. -/
theorem filterMap_gives? (h : List.Forall₂ (Term.Says kb) terms shown) :
    terms.filterMap Term.gives? = shown.filterMap Shown.given? := by
  induction h with
  | nil => rfl
  | cons hmeans _ ih => rw [List.filterMap_cons, List.filterMap_cons, hmeans.gives?_eq, ih]

theorem mem_inconsistent_iff {id : Int} (h : List.Forall₂ (Term.Says kb) terms shown) :
    .function "f_inconsistent" [.number id] ∈ terms ↔
      ∃ n : Nat, .inconsistent n ∈ shown ∧ n = id := by
  induction h with
  | nil => simp
  | cons hmeans _ ih =>
    simp only [List.mem_cons, ih, eq_comm (a := Term.function _ _), hmeans.eq_inconsistent_iff,
      or_and_right, exists_or, eq_comm (a := Shown.inconsistent _)]

end

/-! ### The answer and the solution -/

/-- The solution is what the terms of the answer say. -/
structure Solution.Vetted (s : Solution) (kb : KnowledgeBase) (a : Answer) : Prop where
  strategy : s.strategy = .asp
  /-- No term names an atom, a value or a formula that is not there. -/
  known : ∀ t ∈ a.terms, ∃ what, t.Says kb what
  atoms : (s.valuation.map (·.atom)).Perm kb.atoms
  sorted : s.valuation.Pairwise (·.atom < ·.atom)
  /-- The terms give each atom its value, once, and no other value. -/
  values : ∀ e ∈ s.valuation, valuesOf (a.terms.filterMap Term.gives?) e.atom = [e.value]
  flagged : ∀ id : Int, .function "f_inconsistent" [.number id] ∈ a.terms ↔
    ∃ n ∈ s.inconsistent, (n : Int) = id
  ascending : s.inconsistent.Pairwise (· < ·)
  count : s.inconsistent.length = a.cost
  cost : s.cost = a.cost

namespace KnowledgeBase

variable {kb : KnowledgeBase} {a : Answer} {s : Solution} {terms : List Term} {shown : List Shown}

theorem mem_calledInconsistent_iff (h : List.Forall₂ (Term.Says kb) terms shown) {n : Nat} :
    n ∈ kb.calledInconsistent shown ↔ .inconsistent n ∈ shown := by
  rw [mem_calledInconsistent, and_iff_right_iff_imp]
  intro hn
  obtain ⟨t, -, ht⟩ := exists_mem_of_forall₂ h hn
  cases ht with
  | inconsistent hid => exact hid

/-- **A solution is read** just when it is what the terms of the answer say. -/
theorem interpret_eq_ok_iff_vetted : kb.interpret a = .ok s ↔ s.Vetted kb a := by
  rw [interpret_eq_ok_iff]
  constructor
  · rintro ⟨shown, entries, hshown, hentries, hcount, rfl⟩
    have hmeans : List.Forall₂ (Term.Says kb) a.terms shown :=
      (mapM_eq_ok_iff.mp hshown).imp fun _ _ => Shown.ofTerm_eq_ok_iff.mp
    rw [← filterMap_gives? hmeans] at hentries
    obtain ⟨hatoms, hsorted, hvalues⟩ := (valuation_eq_ok_iff_values kb.nodup_atoms).mp hentries
    exact
      { strategy := rfl
        known := fun t ht => by
          obtain ⟨what, -, hwhat⟩ := exists_mem_of_forall₂ hmeans.flip ht
          exact ⟨what, hwhat⟩
        atoms := hatoms
        sorted := hsorted
        values := hvalues
        flagged := fun id => by
          rw [mem_inconsistent_iff hmeans]
          simp only [mem_calledInconsistent_iff hmeans]
        ascending := List.pairwise_lt_range.filter _
        count := hcount
        cost := rfl }
  · intro h
    obtain ⟨shown, hmeans⟩ := exists_forall₂ h.known
    have hshown : a.terms.mapM (Shown.ofTerm kb) = .ok shown :=
      mapM_eq_ok_iff.mpr (hmeans.imp fun _ _ => Shown.ofTerm_eq_ok_iff.mpr)
    have hentries : valuation kb.atoms (shown.filterMap Shown.given?) = .ok s.valuation := by
      rw [← filterMap_gives? hmeans]
      exact (valuation_eq_ok_iff_values kb.nodup_atoms).mpr ⟨h.atoms, h.sorted, h.values⟩
    have hflagged : kb.calledInconsistent shown = s.inconsistent := by
      refine List.Pairwise.eq_of_mem_iff (List.pairwise_lt_range.filter _) h.ascending fun n => ?_
      have hterm : .function "f_inconsistent" [.number n] ∈ a.terms ↔
          n ∈ kb.calledInconsistent shown := by
        rw [mem_inconsistent_iff hmeans, mem_calledInconsistent_iff hmeans]
        simp only [Nat.cast_inj, exists_eq_right]
      rw [← hterm, h.flagged]
      simp only [Nat.cast_inj, exists_eq_right]
    refine ⟨shown, s.valuation, hshown, hentries, hflagged ▸ h.count, ?_⟩
    rw [hflagged, ← h.cost, ← h.strategy]

end KnowledgeBase

/-! ### The run -/

/-- **A run is accepted** just when it exits with nothing left to search and its output
reports an answer. -/
theorem Answer.ofRun_eq_ok_iff {path : String} {run : SolverRun} {a : Answer} :
    Answer.ofRun path run = .ok a ↔ ∃ output errors, run = .exited exhausted output errors ∧
      Answer.ofReport (Text.decodeLossy output) = .ok a := by
  cases run with
  | notFound | broken reason => simp [ofRun]
  | exited code output errors =>
    have hrun : ofRun path (.exited code output errors) =
        ofReport (Text.decodeLossy output) >>= fun b =>
          if code ≠ exhausted then .error (.exitStatus code) else .ok b := rfl
    rw [hrun, bind_eq_ok_iff]
    constructor
    · rintro ⟨b, hb, h⟩
      split at h
      next => cases h
      next hcode =>
        cases h
        exact ⟨output, errors, by rw [not_not.mp hcode], hb⟩
    · rintro ⟨_, _, h, hb⟩
      cases h
      exact ⟨a, hb, if_neg (not_not.mpr rfl)⟩
  | killed signal coreDumped output errors =>
    refine iff_of_false (fun h => ?_) (by simp)
    obtain ⟨_, -, h⟩ := bind_eq_ok_iff.mp h
    cases h

/-- The run, with something else written as errors. -/
def SolverRun.withErrors (errors : List UInt8) : SolverRun → SolverRun
  | .exited code output _ => .exited code output errors
  | .killed signal coreDumped output _ => .killed signal coreDumped output errors
  | run => run

theorem Answer.ofRun_withErrors (path : String) (run : SolverRun) (errors : List UInt8) :
    Answer.ofRun path (run.withErrors errors) = Answer.ofRun path run := by
  cases run <;> rfl

namespace SolverRun

variable {path : String} {run : String → SolverRun} {p : Program} {a : Answer}

theorem engine_eq_ok_iff : engine path run p = .ok a ↔
    pathFailure? path = none ∧ Answer.ofRun path (run p.text) = .ok a := by
  unfold engine
  cases pathFailure? path with
  | some failure => exact iff_of_false (fun h => by cases h) (fun h => by cases h.1)
  | none => simp only [true_and]

theorem engine_withErrors (path : String) (run : String → SolverRun)
    (errors : String → List UInt8) :
    engine path (fun text => (run text).withErrors (errors text)) = engine path run := by
  funext p
  unfold engine
  cases pathFailure? path with
  | some failure => rfl
  | none => exact Answer.ofRun_withErrors _ _ _

end SolverRun

namespace KnowledgeBase

open AnswerReport

theorem solveProgram_eq_ok_iff {kb : KnowledgeBase} {engine : Program → Except SolverFailure Answer}
    {s : Solution} : kb.solveProgram engine = .ok s ↔
      ∃ a, engine (.ofKnowledgeBase kb) = .ok a ∧ kb.interpret a = .ok s := by
  unfold solveProgram
  rw [bind_eq_ok_iff]
  cases engine (.ofKnowledgeBase kb) with
  | error e => simp [Except.mapError]
  | ok a => simp [Except.mapError]

/-- **No solution gets through unvetted,** whatever the solver's run is, and none that is
vetted is lost. The solver can be started and its exit code is that of an exhausted search. Its
output, read as text, has a last answer that can be read, says that the optimum was found, and
nowhere in the place of another line that there is no answer set. The solution is what that
answer says. And no solution, and no refusal, depends on what the solver writes as errors. -/
theorem solveProgram_vetted (kb : KnowledgeBase) (path : String) (run : String → SolverRun) :
    (∀ s, kb.solveProgram (SolverRun.engine path run) = .ok s ↔ pathFailure? path = none ∧
      ∃ output errors, run (Program.ofKnowledgeBase kb).text = .exited 30 output errors ∧
        ∃ earlier line later a, LastAnswer (Text.decodeLossy output) earlier line later ∧
          Contains (earlier ++ later) "OPTIMUM FOUND" ∧
          ¬Contains (earlier ++ later) "UNSATISFIABLE" ∧
          Answer.termsOf line = .ok a.terms ∧ Answer.costOf (costWord later) = .ok a.cost ∧
          s.Vetted kb a) ∧
    ∀ errors : String → List UInt8,
      kb.solveProgram (SolverRun.engine path fun text => (run text).withErrors (errors text)) =
        kb.solveProgram (SolverRun.engine path run) := by
  refine ⟨fun s => ?_, fun errors => by rw [SolverRun.engine_withErrors]⟩
  rw [solveProgram_eq_ok_iff]
  constructor
  · rintro ⟨a, hengine, hread⟩
    obtain ⟨hpath, hrun⟩ := SolverRun.engine_eq_ok_iff.mp hengine
    obtain ⟨output, errors, hexit, hreport⟩ := Answer.ofRun_eq_ok_iff.mp hrun
    obtain ⟨earlier, line, later, hlast, hoptimum, hsat, hcost, hterms⟩ :=
      ofReport_eq_ok_iff.mp hreport
    exact ⟨hpath, output, errors, hexit, earlier, line, later, a, hlast,
      contains_append.mpr hoptimum, hsat, hterms, hcost, interpret_eq_ok_iff_vetted.mp hread⟩
  · rintro ⟨hpath, output, errors, hexit, earlier, line, later, a, hlast, hoptimum, hsat, hterms,
      hcost, hvetted⟩
    have hreport : Answer.ofReport (Text.decodeLossy output) = .ok a := ofReport_eq_ok_iff.mpr
      ⟨earlier, line, later, hlast, contains_append.mp hoptimum, hsat, hcost, hterms⟩
    have hrun : Answer.ofRun path (run (Program.ofKnowledgeBase kb).text) = .ok a :=
      Answer.ofRun_eq_ok_iff.mpr ⟨output, errors, hexit, hreport⟩
    exact ⟨a, SolverRun.engine_eq_ok_iff.mpr ⟨hpath, hrun⟩, interpret_eq_ok_iff_vetted.mpr hvetted⟩

/-- The output starts with a byte that is no text, and the formulas are out of order. -/
theorem solveProgram_vetted_conflict :
    let kb : KnowledgeBase := ⟨[.atom "A", .not (.atom "A")]⟩
    let report := "Answer: 1\nf_inconsistent(1) val(\"A\",b) f_inconsistent(0)\n" ++
      "Optimization: 2\nOPTIMUM FOUND\n"
    let output : List UInt8 := 0xFF :: 0x0A :: report.toList.map fun c => c.toNat.toUInt8
    let run : String → SolverRun := fun _ => .exited 30 output [0x21]
    let s : Solution := ⟨.asp, 2, [0, 1], [⟨"A", .b⟩]⟩
    kb.solveProgram (SolverRun.engine "clingo" run) = .ok s ∧ (∃ a, s.Vetted kb a) ∧
      kb.solveProgram (SolverRun.engine "clingo" fun text => (run text).withErrors []) =
        .ok s := by
  obtain ⟨a, ha, hreport⟩ : ∃ a : Answer, a = ⟨2, [.function "f_inconsistent" [.number 1],
      .function "val" [.text "A", .function "b" []], .function "f_inconsistent" [.number 0]]⟩ ∧
      Answer.ofReport ("\ufffd\nAnswer: 1\nf_inconsistent(1) val(\"A\",b) f_inconsistent(0)\n" ++
        "Optimization: 2\nOPTIMUM FOUND\n") = .ok a := ⟨_, rfl, rfl⟩
  intro kb report output run s
  have hpath : pathFailure? "clingo" = none := by decide
  have htext : Text.decodeLossy output = "\ufffd\n" ++ report := by decide +kernel
  have hengine : SolverRun.engine "clingo" run (.ofKnowledgeBase kb) = .ok a := by
    refine SolverRun.engine_eq_ok_iff.mpr ⟨hpath, ?_⟩
    refine Answer.ofRun_eq_ok_iff.mpr ⟨output, [0x21], rfl, ?_⟩
    rw [htext]
    exact hreport
  have hvaluation : valuation kb.atoms [("A", .b)] = .ok [⟨"A", .b⟩] :=
    valuation_eq_ok_iff.mpr ⟨_, rfl, List.mergeSort_singleton _⟩
  have hread : kb.interpret a = .ok s := by
    rw [ha]
    exact interpret_eq_ok_iff.mpr ⟨_, _, rfl, hvaluation, by decide, by decide⟩
  have hs : kb.solveProgram (SolverRun.engine "clingo" run) = .ok s :=
    solveProgram_eq_ok_iff.mpr ⟨a, hengine, hread⟩
  obtain ⟨hvetted, herrors⟩ := solveProgram_vetted kb "clingo" run
  obtain ⟨-, _, _, -, _, _, _, b, -, -, -, -, -, hb⟩ := (hvetted s).mp hs
  exact ⟨hs, ⟨b, hb⟩, (herrors fun _ => []).trans hs⟩

end KnowledgeBase
end LeastGlut
