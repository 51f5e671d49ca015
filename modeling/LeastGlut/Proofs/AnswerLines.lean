/-
# Blanks around an answer line

With more characters in front, the reader does what it did, but for the places that numbers
and refusals carry (`Term.Reader.run_shift`). Blanks in front of a line lead back to where
the line starts, and a blank behind a term, or behind what is no term yet, changes nothing in
what the line is read as (`Term.Reader.run_blank`). So blanks around a line that is not empty
do not matter, and those around the empty line make it a line of blanks alone, which is
refused (`Term.readLine_padded_iff`).

Key definitions: `Term.Span.shift`, `Term.Reader.State.shift`.
-/
import LeastGlut.Proofs.Terms

namespace LeastGlut
namespace Term

/-- The same characters of a text with more characters in front. -/
def Span.shift (k : Nat) (span : Span) : Span := ⟨span.start + k, span.stop + k⟩

namespace Reader

variable {ctx : Context} {s s' : State} {p : Nat} {c : Char} {cs bs : List Char} {ts : List Term}

/-! ### More characters in front -/

/-- The same state in a text with more characters in front. -/
def State.shift (k : Nat) : State → State
  | .minus ctx place => .minus ctx (place + k)
  | .digits ctx place negative value => .digits ctx (place + k) negative value
  | s => s

/-- The same result of a step in a text with more characters in front. -/
def shiftResult (k : Nat) (r : Except Span State) : Except Span State :=
  (r.map (State.shift k)).mapError (Span.shift k)

theorem begin_shift (k : Nat) : begin ctx (p + k) c = (begin ctx p c).map (State.shift k) := by
  unfold begin
  split_ifs <;> rfl

theorem settle_shift (k : Nat) : settle (p + k) (s.shift k) = shiftResult k (settle p s) := by
  cases s with
  | digits ctx first negative value =>
    simp only [State.shift, settle]
    generalize (if negative then -(value : Int) else value) = n
    by_cases hn : numberMin ≤ n ∧ n ≤ numberMax
    · rw [if_pos hn, if_pos hn]
      rfl
    · rw [if_neg hn, if_neg hn]
      rfl
  | _ => rfl

theorem stepSettled_shift (k : Nat) :
    stepSettled (p + k) c (s.shift k) = (stepSettled p c s).map (State.shift k) := by
  cases s with
  | escape | digits | name => rfl
  | _ =>
    simp only [State.shift, stepSettled, begin_shift]
    split_ifs <;> rfl

/-- The step of a settled state, as a result. -/
def goOn (p : Nat) (c : Char) (s : State) : Except Span State :=
  match stepSettled p c s with
  | some s' => .ok s'
  | none => .error ⟨p, p + 1⟩

theorem goOn_shift (k : Nat) : goOn (p + k) c (s.shift k) = shiftResult k (goOn p c s) := by
  unfold goOn
  rw [stepSettled_shift]
  cases stepSettled p c s with
  | none =>
    have hspan : (⟨p + k, p + k + 1⟩ : Span) = Span.shift k ⟨p, p + 1⟩ := by
      rw [Span.shift, Nat.add_right_comm]
    exact congrArg Except.error hspan
  | some s' => rfl

theorem step_digits {first value : Nat} {negative : Bool} :
    step p c (.digits ctx first negative value) =
      if canGrow value c then .ok (.digits ctx first negative (value * 10 + (c.toNat - '0'.toNat)))
      else settle p (.digits ctx first negative value) >>= goOn p c := rfl

theorem step_name {revName : List Char} :
    step p c (.name ctx revName) =
      if isNameChar c then .ok (.name ctx (c :: revName))
      else if c = '(' then .ok (.opened (ctx.inside (String.ofList revName.reverse) []))
      else settle p (.name ctx revName) >>= goOn p c := rfl

theorem step_shift (k : Nat) : step (p + k) c (s.shift k) = shiftResult k (step p c s) := by
  have hgoOn := @goOn_shift s p c k
  have hbind : (settle (p + k) (s.shift k) >>= goOn (p + k) c) =
      shiftResult k (settle p s >>= goOn p c) := by
    rw [settle_shift]
    cases settle p s with
    | error span => rfl
    | ok s' => exact goOn_shift k
  cases s with
  | digits ctx first negative value =>
    rw [State.shift, step_digits, step_digits]
    by_cases hc : canGrow value c
    · rw [if_pos hc, if_pos hc]
      rfl
    · rw [if_neg hc, if_neg hc]
      exact hbind
  | name ctx revName =>
    show step (p + k) c (.name ctx revName) = _
    rw [step_name, step_name]
    by_cases hc : isNameChar c
    · rw [if_pos hc, if_pos hc]
      rfl
    · rw [if_neg hc, if_neg hc]
      by_cases hopen : c = '('
      · rw [if_pos hopen, if_pos hopen]
        rfl
      · rw [if_neg hopen, if_neg hopen]
        exact hbind
  | _ => exact hgoOn

theorem finish_shift (k : Nat) :
    finish (p + k) (s.shift k) = (finish p s).mapError (Span.shift k) := by
  unfold finish
  rw [settle_shift]
  cases settle p s with
  | error span => rfl
  | ok s' =>
    cases s' with
    | closed ctx =>
      show (if ctx.stack.isEmpty then _ else _) =
        Except.mapError _ (if ctx.stack.isEmpty then _ else _)
      split <;> rfl
    | _ => rfl

theorem run_shift (k : Nat) (s : State) (p : Nat) (cs : List Char) :
    run (s.shift k) (p + k) cs = (run s p cs).mapError (Span.shift k) := by
  induction cs generalizing s p with
  | nil => exact finish_shift k
  | cons c cs ih =>
    rw [run, run, step_shift]
    cases step p c s with
    | error span => rfl
    | ok s' =>
      show run (s'.shift k) (p + k + 1) cs = _
      rw [Nat.add_right_comm, ih]
      rfl

/-! ### Blanks in front -/

/-- In front of a first term, blanks that have been read make no difference. -/
theorem run_blanks (hcs : cs ≠ []) (p : Nat) : run .blanks p cs = run .start p cs := by
  cases cs with
  | nil => exact absurd rfl hcs
  | cons c cs => rfl

theorem run_start_blanks (hbs : ∀ c ∈ bs, Text.isBlank c) (hcs : cs ≠ []) (p : Nat) :
    run .start p (bs ++ cs) = run .start (p + bs.length) cs := by
  induction bs generalizing p with
  | nil => rfl
  | cons b bs ih =>
    rw [List.forall_mem_cons] at hbs
    have hne : bs ++ cs ≠ [] := List.append_ne_nil_of_right_ne_nil bs hcs
    have hstep : step p b .start = .ok .blanks := step_of_stepSettled (if_pos hbs.1)
    have hplace : p + 1 + bs.length = p + (b :: bs).length := by
      rw [List.length_cons]
      omega
    rw [List.cons_append, run_cons hstep, run_blanks hne, ih hbs.2, hplace]

/-! ### Blanks behind -/

/-- A blank is none of the characters that mean something between terms. -/
theorem ne_of_isBlank (hc : Text.isBlank c) {d : Char} (hd : Text.isBlank d = false) : c ≠ d := by
  rintro rfl
  rw [hc] at hd
  cases hd

theorem begin_of_isBlank (hc : Text.isBlank c) : begin ctx p c = none := by
  cases hb : begin ctx p c with
  | none => rfl
  | some s' => exact absurd hc (begin_eq_some hb).1

theorem endsAt_of_isBlank (hc : Text.isBlank c) (rest : List Char) : EndsAt (c :: rest) := by
  intro d hd
  rw [← Option.some_inj.mp hd]
  exact ⟨fun hname => not_isBlank_of_isNameChar hname hc, ne_of_isBlank hc (by decide)⟩

theorem begin_ne_start : begin ctx p c ≠ some .start := by
  unfold begin
  split_ifs <;> simp

/-- A reader that has started never comes back to the start. -/
theorem step_ne_start (h : step p c s = .ok s') : s' ≠ .start := by
  rintro rfl
  rcases step_eq_ok h with
    ⟨s₁, -, hstep⟩ | ⟨_, _, _, _, -, -, h⟩ | ⟨_, _, -, -, h⟩ | ⟨_, _, -, -, h⟩
  · cases s₁ with
    | escape | digits | name => cases hstep
    | _ =>
      simp only [stepSettled] at hstep
      split_ifs at hstep <;> first | cases hstep | exact begin_ne_start hstep
  · cases h
  · cases h
  · cases h

theorem run_of_step_eq_error {span : Span} (h : step p c s = .error span) :
    run s p (c :: cs) = .error span := by
  rw [run, h]
  rfl

theorem refused_iff {r r' : Except Span (List Term)} {span span' : Span} (h : r = .error span)
    (h' : r' = .error span') : r = .ok ts ↔ r' = .ok ts := by
  rw [h, h']
  exact iff_of_false (fun h => by cases h) (fun h => by cases h)

/-- A number out of range is refused where it ends. -/
theorem run_digits_refused {first value : Nat} {negative : Bool} {rest : List Char}
    (hrest : ∀ c ∈ rest.head?, ¬canGrow value c)
    (hrange : ¬(numberMin ≤ (if negative then -(value : Int) else value) ∧
      (if negative then -(value : Int) else value) ≤ numberMax)) :
    run (.digits ctx first negative value) p rest = .error ⟨first, p⟩ := by
  have hsettle : settle p (.digits ctx first negative value) = .error ⟨first, p⟩ := if_neg hrange
  cases rest with
  | nil =>
    rw [run, finish, hsettle]
    rfl
  | cons c cs =>
    have hstep : step p c (.digits ctx first negative value) = .error ⟨first, p⟩ := by
      rw [step_digits, if_neg (hrest c rfl), hsettle]
      rfl
    exact run_of_step_eq_error hstep

/-- Behind a blank, a complete line stays complete, and an open function stays open. -/
theorem run_closed_blank (hc : Text.isBlank c) :
    run (.closed ctx) p [c] = .ok ts ↔ run (.closed ctx) p [] = .ok ts := by
  by_cases hstack : ctx.stack.isEmpty
  · have hstep : step p c (.closed ctx) = .ok (.closed ctx) :=
      step_of_stepSettled (by rw [stepSettled, if_pos hstack, if_pos hc])
    have hfinish : ∀ q, run (.closed ctx) q [] = .ok ctx.revTerms.reverse := fun _ => if_pos hstack
    rw [run_cons hstep, hfinish, hfinish]
  · have hstep : step p c (.closed ctx) = .ok (.padded ctx) :=
      step_of_stepSettled (by rw [stepSettled, if_neg hstack, if_neg (ne_of_isBlank hc (by decide)),
        if_neg (ne_of_isBlank hc (by decide)), if_pos hc])
    have hpadded : run (.closed ctx) p [c] = .error ⟨p + 1, p + 1⟩ := run_cons hstep []
    exact refused_iff hpadded (if_neg hstack)

/-- **A blank at the end** makes no difference once something has been read. -/
theorem run_blank (hc : Text.isBlank c) (hs : s ≠ .start) :
    run s p [c] = .ok ts ↔ run s p [] = .ok ts := by
  have hends : EndsAt [c] := endsAt_of_isBlank hc []
  have hnil : EndsAt [] := fun d hd => by cases hd
  -- The line is refused at its end now, and behind the blank as well.
  have hpending : ∀ s', stepSettled p c s = some s' → (∀ q, run s' q [] = .error ⟨q, q⟩) →
      run s p [] = .error ⟨p, p⟩ → (run s p [c] = .ok ts ↔ run s p [] = .ok ts) := by
    intro s' hstep hend hnow
    have hlater : run s p [c] = .error ⟨p + 1, p + 1⟩ := by
      rw [run_cons (step_of_stepSettled hstep), hend]
    exact refused_iff hlater hnow
  cases s with
  | start => exact absurd rfl hs
  | blanks => exact hpending .blanks (if_pos hc) (fun _ => rfl) rfl
  | closed ctx => exact run_closed_blank hc
  | padded ctx =>
    have hcomma : c ≠ ',' := ne_of_isBlank hc (by decide)
    exact hpending (.padded ctx) ((if_neg hcomma).trans (if_pos hc)) (fun _ => rfl) rfl
  | opened ctx =>
    have hclose : c ≠ ')' := ne_of_isBlank hc (by decide)
    have hstep : step p c (.opened ctx) = .error ⟨p, p + 1⟩ := by
      simp only [step, stepSettled, if_neg hclose, begin_of_isBlank hc]
    exact refused_iff (run_of_step_eq_error hstep) rfl
  | comma ctx => exact hpending (.comma ctx) (if_pos hc) (fun _ => rfl) rfl
  | minus ctx first =>
    have hdigit : ¬c.isDigit := fun hd => not_isBlank_of_isNameChar (isNameChar_of_isDigit hd) hc
    have hstep : step p c (.minus ctx first) = .error ⟨p, p + 1⟩ := by
      simp only [step, stepSettled, if_neg hdigit]
    exact refused_iff (run_of_step_eq_error hstep) rfl
  | string ctx revText =>
    have hquote : c ≠ '"' := ne_of_isBlank hc (by decide)
    have hescape : c ≠ '\\' := ne_of_isBlank hc (by decide)
    exact hpending _ ((if_neg hquote).trans (if_neg hescape)) (fun _ => rfl) rfl
  | escape ctx revText => exact hpending _ rfl (fun _ => rfl) rfl
  | digits ctx first negative value =>
    by_cases hrange : numberMin ≤ (if negative then -(value : Int) else value) ∧
        (if negative then -(value : Int) else value) ≤ numberMax
    · rw [run_digits hends.not_canGrow rfl hrange.1 hrange.2,
        run_digits hnil.not_canGrow rfl hrange.1 hrange.2]
      exact run_closed_blank hc
    · rw [run_digits_refused hends.not_canGrow hrange, run_digits_refused hnil.not_canGrow hrange]
  | name ctx revName =>
    rw [run_name hends, run_name hnil]
    exact run_closed_blank hc

theorem run_append_blank (hc : Text.isBlank c) (hs : s ≠ .start) (p : Nat) (cs : List Char) :
    run s p (cs ++ [c]) = .ok ts ↔ run s p cs = .ok ts := by
  induction cs generalizing s p with
  | nil => exact run_blank hc hs
  | cons d cs ih =>
    cases hstep : step p d s with
    | error span => exact refused_iff (run_of_step_eq_error hstep) (run_of_step_eq_error hstep)
    | ok s' =>
      rw [List.cons_append, run_cons hstep, run_cons hstep]
      exact ih (step_ne_start hstep) (p + 1)

theorem run_append_blanks (hbs : ∀ c ∈ bs, Text.isBlank c) (hs : s ≠ .start) (p : Nat)
    (cs : List Char) : run s p (cs ++ bs) = .ok ts ↔ run s p cs = .ok ts := by
  induction bs generalizing cs with
  | nil => rw [List.append_nil]
  | cons b bs ih =>
    rw [List.forall_mem_cons] at hbs
    calc run s p (cs ++ b :: bs) = .ok ts ↔ run s p (cs ++ [b] ++ bs) = .ok ts := by
          rw [List.append_cons]
      _ ↔ run s p (cs ++ [b]) = .ok ts := ih hbs.2 (cs ++ [b])
      _ ↔ run s p cs = .ok ts := run_append_blank hbs.1 hs p cs

end Reader

open Reader

variable {bs cs u v : List Char} {ts : List Term}

/-! ### Whole lines -/

/-- **A line of blanks alone** is refused at its end. -/
theorem readLine_blanks (hbs : ∀ c ∈ bs, Text.isBlank c) (hne : bs ≠ []) :
    readLine bs = .error ⟨bs.length, bs.length⟩ := by
  rcases List.eq_nil_or_concat' bs with rfl | ⟨bs, b, rfl⟩
  · exact absurd rfl hne
  · have hb : Text.isBlank b := hbs b List.mem_concat_self
    have hfront : ∀ c ∈ bs, Text.isBlank c := fun c hc => hbs c (List.mem_append_left [b] hc)
    have hstep : step (0 + bs.length) b .start = .ok .blanks := step_of_stepSettled (if_pos hb)
    have hplace : (bs ++ [b]).length = 0 + bs.length + 1 := by
      rw [List.length_append, List.length_singleton, Nat.zero_add]
    calc readLine (bs ++ [b]) = run .start (0 + bs.length) [b] :=
          run_start_blanks hfront (List.cons_ne_nil b []) 0
      _ = run .blanks (0 + bs.length + 1) [] := run_cons hstep []
      _ = .error ⟨(bs ++ [b]).length, (bs ++ [b]).length⟩ := by
          rw [hplace]
          rfl

/-- Blanks in front of a line move the places in it. -/
theorem readLine_blanks_append (hu : ∀ c ∈ u, Text.isBlank c) (hcs : cs ≠ []) :
    readLine (u ++ cs) = (readLine cs).mapError (Span.shift u.length) :=
  calc readLine (u ++ cs) = run .start (0 + u.length) cs := run_start_blanks hu hcs 0
    _ = (readLine cs).mapError (Span.shift u.length) := run_shift u.length .start 0 cs

theorem readLine_append_blanks (hv : ∀ c ∈ v, Text.isBlank c) (hcs : cs ≠ []) :
    readLine (cs ++ v) = .ok ts ↔ readLine cs = .ok ts := by
  obtain ⟨c, cs, rfl⟩ := List.exists_cons_of_ne_nil hcs
  cases hstep : step 0 c .start with
  | error span => exact refused_iff (run_of_step_eq_error hstep) (run_of_step_eq_error hstep)
  | ok s' =>
    unfold readLine
    rw [List.cons_append, run_cons hstep, run_cons hstep]
    exact run_append_blanks hv (step_ne_start hstep) 1 cs

/-- **Blanks around a line** make no difference to the terms it is read as, nor to whether it
is refused, just if the line is not empty or there are no blanks: blanks around the empty line
are refused at their end. -/
theorem readLine_padded_iff (hu : ∀ c ∈ u, Text.isBlank c) (hv : ∀ c ∈ v, Text.isBlank c) :
    ((∀ ts, readLine (u ++ cs ++ v) = .ok ts ↔ readLine cs = .ok ts) ↔ cs ≠ [] ∨ u ++ v = []) ∧
      (u ++ v ≠ [] → readLine (u ++ v) = .error ⟨(u ++ v).length, (u ++ v).length⟩) := by
  have hblanks : u ++ v ≠ [] →
      readLine (u ++ v) = .error ⟨(u ++ v).length, (u ++ v).length⟩ :=
    readLine_blanks (List.forall_mem_append.mpr ⟨hu, hv⟩)
  refine ⟨⟨fun h => ?_, fun h ts => ?_⟩, hblanks⟩
  · by_contra hne
    rw [not_or, not_not] at hne
    obtain ⟨rfl, hne⟩ := hne
    have hempty : readLine (u ++ [] ++ v) = .ok [] := (h []).mpr rfl
    rw [List.append_nil, hblanks hne] at hempty
    cases hempty
  · by_cases hcs : cs = []
    · obtain ⟨rfl, rfl⟩ := List.append_eq_nil_iff.mp (h.resolve_left (not_not_intro hcs))
      rw [List.nil_append, List.append_nil]
    · have hfront : readLine (u ++ cs) = .ok ts ↔ readLine cs = .ok ts := by
        rw [readLine_blanks_append hu hcs]
        cases readLine cs with
        | error span => exact refused_iff rfl rfl
        | ok ts' => rfl
      exact (readLine_append_blanks hv (List.append_ne_nil_of_right_ne_nil u hcs)).trans hfront

theorem readLine_padded_name :
    readLine [' ', '\t', 'a', '\u2003'] = .ok [.function "a" []] :=
  have hu : ∀ c ∈ [' ', '\t'], Text.isBlank c := List.all_eq_true.mp (by decide)
  have hv : ∀ c ∈ ['\u2003'], Text.isBlank c := List.all_eq_true.mp (by decide)
  have hname : readLine ['a'] = .ok [.function "a" []] := rfl
  ((readLine_padded_iff hu hv).1.mpr (.inl (List.cons_ne_nil 'a' [])) _).mpr hname

/-- A blank before the empty line: it is the row of no terms, and the blank alone is refused. -/
theorem readLine_blank_empty :
    Text.isBlank ' ' ∧ readLine [] = .ok [] ∧ readLine ([' '] ++ []) = .error ⟨1, 1⟩ :=
  ⟨rfl, rfl, rfl⟩

end Term
end LeastGlut
