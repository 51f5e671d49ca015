/-
# Texts are read line by line

The segments of two texts, the first of which ends where a line does, are those of the
one and then those of the other (`Text.segments_append`). So a text in front, if it is
read, adds its formulas, and moves an error of the text behind it by its lines and its
characters (`KnowledgeBase.read_append_eq`). The characters that an error marks are those
of a line, so they lie within the text (`KnowledgeBase.readLines_eq_error`).

Key definitions: `Text.WholeLines`.
-/
import LeastGlut.Proofs.Refusals

namespace LeastGlut

namespace Text

variable {c : Char} {cs ps ss : List Char} {rest segs : List (List Char)}

/-- The text is empty or ends with a line feed. -/
def WholeLines (cs : List Char) : Prop := cs = [] ∨ ∃ front, cs = front ++ ['\n']

theorem addToSegments_append (h : rest ≠ []) (c : Char) (segs : List (List Char)) :
    addToSegments c (rest ++ segs) = addToSegments c rest ++ segs := by
  obtain ⟨line, rest, rfl⟩ := List.exists_cons_of_ne_nil h
  unfold addToSegments
  split <;> rfl

/-- A line feed makes a line more, every other character joins one. -/
theorem length_addToSegments (h : rest ≠ []) (c : Char) :
    (addToSegments c rest).length = rest.length + if c = '\n' then 1 else 0 := by
  obtain ⟨line, rest, rfl⟩ := List.exists_cons_of_ne_nil h
  unfold addToSegments
  split <;> rfl

theorem segments_ne_nil (h : cs ≠ []) : segments cs ≠ [] := by
  intro hnil
  have hflatten := flatten_segments cs
  rw [hnil] at hflatten
  exact h hflatten.symm

/-- **Whole lines in front** are segments of their own. -/
theorem segments_append (hp : WholeLines ps) (ss : List Char) :
    segments (ps ++ ss) = segments ps ++ segments ss := by
  rcases hp with rfl | ⟨front, rfl⟩
  · rfl
  · induction front with
    | nil => rfl
    | cons c front ih =>
      have hne : segments (front ++ ['\n']) ≠ [] := segments_ne_nil (by simp)
      show addToSegments c (segments (front ++ ['\n'] ++ ss)) = _
      rw [ih, addToSegments_append hne]
      rfl

/-- Whole lines are as many as their line feeds. -/
theorem length_segments (hp : WholeLines ps) : (segments ps).length = ps.count '\n' := by
  rcases hp with rfl | ⟨front, rfl⟩
  · rfl
  · induction front with
    | nil => rfl
    | cons c front ih =>
      have hne : segments (front ++ ['\n']) ≠ [] := segments_ne_nil (by simp)
      show (addToSegments c (segments (front ++ ['\n']))).length = _
      rw [length_addToSegments hne, ih, List.cons_append, List.count_cons]
      simp only [beq_iff_eq]

end Text

namespace SyntaxError

theorem ofFault_add (line offset lines chars : Nat) (e : Formula.Fault) :
    ofFault (line + lines) (offset + chars) e = shift lines chars (ofFault line offset e) := by
  simp only [ofFault, shift, Nat.add_assoc]

end SyntaxError

/-- A fault marks the character behind the text that is read, or the end of the text. -/
theorem Formula.Fault.bounds {cs : List Char} {e : Fault} (h : read cs = .error e) :
    e.position ≤ e.stop ∧ e.stop ≤ cs.length := by
  obtain ⟨k, s, hk, hp, -, hfound, -⟩ := readFrom_eq_error h
  rw [Nat.zero_add] at hp
  unfold stop
  rw [hfound, hp]
  by_cases hlt : k < cs.length
  · rw [List.getElem?_eq_getElem hlt]
    exact ⟨Nat.le_succ k, hlt⟩
  · rw [List.getElem?_eq_none (Nat.le_of_not_lt hlt)]
    exact ⟨Nat.le_refl k, hk⟩

namespace KnowledgeBase

variable {ps ss : List (List Char)} {fs : List Formula} {line offset : Nat} {e : SyntaxError}

/-- Lines that are read pass the lines behind them their number and their length. -/
theorem readLines_append (h : readLines line offset ps = .ok fs) (ss : List (List Char)) :
    readLines line offset (ps ++ ss) =
      (readLines (line + ps.length) (offset + ps.flatten.length) ss).map (fs ++ ·) := by
  induction ps generalizing line offset fs with
  | nil =>
    cases h
    show _ = Except.map id (readLines line offset ss)
    rw [Except.map_id]
    rfl
  | cons segment ps ih =>
    rw [readLines] at h
    rw [List.cons_append, readLines]
    cases hline : readLine (lineBody segment) with
    | error fault =>
      rw [hline] at h
      cases h
    | ok found =>
      rw [hline] at h
      cases hrest : readLines (line + 1) (offset + segment.length) ps with
      | error e =>
        simp only [hrest] at h
        cases h
      | ok gs =>
        simp only [hrest] at h
        cases h
        have hnumber : line + 1 + ps.length = line + (segment :: ps).length := by
          rw [List.length_cons]
          omega
        have hoffset : offset + segment.length + ps.flatten.length =
            offset + (segment :: ps).flatten.length := by
          rw [List.flatten_cons, List.length_append]
          omega
        rw [← hnumber, ← hoffset]
        simp only [ih hrest]
        cases readLines (line + 1 + ps.length) (offset + segment.length + ps.flatten.length) ss with
        | error e => rfl
        | ok hs => exact congrArg Except.ok (List.append_assoc _ _ _).symm

/-- Lines that stand elsewhere are read alike, and their errors move with them. -/
theorem readLines_add (ss : List (List Char)) (line offset lines chars : Nat) :
    readLines (line + lines) (offset + chars) ss =
      (readLines line offset ss).mapError (SyntaxError.shift lines chars) := by
  induction ss generalizing line offset with
  | nil => rfl
  | cons segment ss ih =>
    rw [readLines, readLines]
    cases readLine (lineBody segment) with
    | error fault => exact congrArg Except.error (SyntaxError.ofFault_add _ _ _ _ fault)
    | ok found =>
      have hnumber : line + lines + 1 = line + 1 + lines := Nat.add_right_comm _ _ _
      have hoffset : offset + chars + segment.length = offset + segment.length + chars :=
        Nat.add_right_comm _ _ _
      simp only [hnumber, hoffset, ih]
      cases readLines (line + 1) (offset + segment.length) ss <;> rfl

theorem length_lineBody_le (segment : List Char) : (lineBody segment).length ≤ segment.length := by
  obtain ⟨bs, hbs, -⟩ := exists_lineBody segment
  calc (lineBody segment).length ≤ (lineBody segment ++ bs).length := by simp
    _ = segment.length := by rw [← hbs]

theorem read_eq_error_of_readLine {body : List Char} {fault : Formula.Fault}
    (h : readLine body = .error fault) : Formula.read body = .error fault := by
  unfold readLine at h
  split at h
  · cases h
  · cases hr : Formula.read body with
    | error fault' =>
      rw [hr] at h
      cases h
      rfl
    | ok f =>
      rw [hr] at h
      cases h

/-- **What an error marks** are characters of the lines, from the first of them on. -/
theorem readLines_eq_error (h : readLines line offset ss = .error e) :
    offset ≤ e.start ∧ e.start ≤ e.stop ∧ e.stop ≤ offset + ss.flatten.length := by
  induction ss generalizing line offset with
  | nil => cases h
  | cons segment ss ih =>
    rw [List.flatten_cons, List.length_append]
    rw [readLines] at h
    cases hline : readLine (lineBody segment) with
    | error fault =>
      rw [hline] at h
      cases h
      obtain ⟨hle, hstop⟩ := Formula.Fault.bounds (read_eq_error_of_readLine hline)
      have hbody := length_lineBody_le segment
      show offset ≤ fault.position + offset ∧ fault.position + offset ≤ fault.stop + offset ∧
        fault.stop + offset ≤ _
      omega
    | ok found =>
      simp only [hline] at h
      cases hrest : readLines (line + 1) (offset + segment.length) ss with
      | error e' =>
        simp only [hrest] at h
        cases h
        have hbounds := ih hrest
        omega
      | ok gs =>
        simp only [hrest] at h
        cases h

theorem read_eq_ok_iff_readLines {p : String} {kb : KnowledgeBase} :
    KnowledgeBase.read p = .ok kb ↔ readLines 1 0 (Text.segments p.toList) = .ok kb.formulas := by
  unfold KnowledgeBase.read
  cases readLines 1 0 (Text.segments p.toList) with
  | error e => exact iff_of_false (fun h => by cases h) (fun h => by cases h)
  | ok fs =>
    constructor
    · intro h
      cases h
      rfl
    · intro h
      cases h
      rfl

theorem bounds_of_read_eq_error {text : String} (h : KnowledgeBase.read text = .error e) :
    e.start ≤ e.stop ∧ e.stop ≤ text.length := by
  unfold KnowledgeBase.read at h
  cases hlines : readLines 1 0 (Text.segments text.toList) with
  | ok fs =>
    rw [hlines] at h
    cases h
  | error e' =>
    rw [hlines] at h
    cases h
    obtain ⟨-, hle, hstop⟩ := readLines_eq_error hlines
    rw [Text.flatten_segments, Nat.zero_add, String.length_toList] at hstop
    exact ⟨hle, hstop⟩

/-- Behind whole lines that are read, a text is read as it is alone, but for the formulas
in front of its own and the place of its error. -/
theorem read_append_eq {p : String} {kb : KnowledgeBase} (hp : Text.WholeLines p.toList)
    (hread : KnowledgeBase.read p = .ok kb) (s : String) :
    KnowledgeBase.read (p ++ s) =
      ((KnowledgeBase.read s).mapError (SyntaxError.shift (p.toList.count '\n') p.length)).map
        fun kb' => ⟨kb.formulas ++ kb'.formulas⟩ := by
  have hlines := readLines_append (read_eq_ok_iff_readLines.mp hread) (Text.segments s.toList)
  rw [Text.flatten_segments, Text.length_segments hp, readLines_add, String.length_toList] at hlines
  unfold KnowledgeBase.read
  rw [String.toList_append, Text.segments_append hp, hlines]
  cases readLines 1 0 (Text.segments s.toList) <;> rfl

/-- **Reading is compositional.** Behind a text of whole lines that is read, another text
adds its formulas, or is refused as it is alone, with the same reason, its line and both
ends of its place moved by the lines and the characters in front. An error always marks
characters of the whole text. -/
theorem read_append {p : String} {kb : KnowledgeBase} (hp : Text.WholeLines p.toList)
    (hread : KnowledgeBase.read p = .ok kb) (s : String) :
    (∀ kb', KnowledgeBase.read s = .ok kb' →
      KnowledgeBase.read (p ++ s) = .ok ⟨kb.formulas ++ kb'.formulas⟩) ∧
    (∀ e, KnowledgeBase.read s = .error e →
      let e' : SyntaxError := { e with
        line := e.line + p.toList.count '\n'
        start := e.start + p.length
        stop := e.stop + p.length }
      KnowledgeBase.read (p ++ s) = .error e' ∧ e'.reason = e.reason) ∧
    ∀ text e, KnowledgeBase.read text = .error e → e.start ≤ e.stop ∧ e.stop ≤ text.length := by
  have happend := read_append_eq hp hread s
  refine ⟨fun kb' hs => ?_, fun e hs => ⟨?_, rfl⟩, fun text e => bounds_of_read_eq_error⟩
  · rw [happend, hs]
    rfl
  · rw [happend, hs]
    rfl

/-- A blank of three bytes counts as one character, and a carriage return as one. -/
theorem read_append_blanks :
    let p := "A0\r\n\u2003\n"
    let s := "B\nA &&\u2003)"
    Text.WholeLines p.toList ∧ KnowledgeBase.read p = .ok ⟨[.atom "A0"]⟩ ∧
      ∃ e e', KnowledgeBase.read s = .error e ∧ e.line = 2 ∧ e.start = 7 ∧ e.stop = 8 ∧
        KnowledgeBase.read (p ++ s) = .error e' ∧ e'.line = 4 ∧ e'.start = 13 ∧ e'.stop = 14 ∧
        e'.reason = e.reason := by
  intro p s
  have hp : Text.WholeLines p.toList := Or.inr ⟨"A0\r\n\u2003".toList, by decide⟩
  have hread : KnowledgeBase.read p = .ok ⟨[.atom "A0"]⟩ := by decide
  obtain ⟨-, herror, -⟩ := read_append hp hread s
  let e : SyntaxError := ⟨2, 7, 8, some ')', [some '!', some '(', some '+', some '-']⟩
  have hs : KnowledgeBase.read s = .error e := by decide
  obtain ⟨happend, hreason⟩ := herror e hs
  exact ⟨hp, hread, e, _, hs, rfl, rfl, rfl, happend, by decide, by decide, by decide, hreason⟩

end KnowledgeBase
end LeastGlut
