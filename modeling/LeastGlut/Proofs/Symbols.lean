/-
# Terms read part by part

A parser of answer lines can be built from its parts: a term is a number, a string or a
function, the arguments of a function are terms with commas between them, and a line is a
row of terms with blanks around each.

The machine does on a line what this parser does on its parts. Where a term may begin, the
machine comes behind the term that the parser takes, or refuses the line where the parser
takes none (`Term.Simulates.termParser`); and the arguments of an open function are those
that the parser separates, up to their bracket (`Term.line_inside`). So both read the same
lines (`Term.readLine_toOption`).

Key definitions: `Term.numberParser`, `Term.textParser`, `Term.functionParser`,
`Term.readLineByParts`, `Term.line`, `Term.Simulates`.
-/
import LeastGlut.Proofs.AnswerLines
import LeastGlut.Proofs.Combinators

namespace LeastGlut
namespace Term

open Reader
open Text
open Text.Parser

/-! ### The parts -/

/-- A zero alone, or digits that start with another one. -/
def integer : Parser (List Char) :=
  orElse
    (map (fun r => r.1 :: r.2)
      (both (char fun c => c.isDigit && c != '0') (many (char Char.isDigit))))
    (map (fun c => [c]) (char fun c => c == '0'))

/-- A digit more at the end of a number. -/
def snocDigit (value : Nat) (c : Char) : Nat := value * 10 + (c.toNat - '0'.toNat)

/-- A number, if it fits. -/
def number? (negative : Bool) (value : Nat) : Option Term :=
  let n : Int := if negative then -value else value
  if numberMin ≤ n ∧ n ≤ numberMax then some (.number n) else none

/-- A number behind an optional sign. -/
def numberParser : Parser Term :=
  filterMap (fun r => number? r.1.isSome (r.2.foldl snocDigit 0))
    (both (optional (just ['-'])) integer)

/-- A character behind a backslash. -/
def unescape (c : Char) : Char := if c = 'n' then '\n' else c

/-- A character of a string, with or without a backslash. -/
def stringChar : Parser Char :=
  orElse (char fun c => c != '\\' && c != '"')
    (skipThen (just ['\\']) (map unescape (char fun _ => true)))

def textParser : Parser Term :=
  map (fun cs => .text (String.ofList cs))
    (skipThen (just ['"']) (thenSkip (many stringChar) (just ['"'])))

def identifier : Parser (List Char) :=
  map (fun r => r.1 :: r.2) (both (char isNameStart) (many (char isNameChar)))

def arguments (term : Parser Term) : Parser (List Term) :=
  skipThen (just ['(']) (thenSkip (sepBy term (padded (just [',']))) (just [')']))

def functionParser (term : Parser Term) : Parser Term :=
  map (fun r => .function (String.ofList r.1) (r.2.getD []))
    (both identifier (optional (arguments term)))

/-- One term, around a parser for the arguments of functions. -/
def termParser (term : Parser Term) : Parser Term :=
  orElse (orElse numberParser textParser) (functionParser term)

/-- Terms whose arguments are nested less deeply than a bound. -/
def termWithin : Nat → Parser Term
  | 0 => fail
  | depth + 1 => termParser (termWithin depth)

/-- Reads a whole line part by part. Arguments cannot be nested more deeply than the line is
long. -/
def readLineByParts (cs : List Char) : Option (List Term) :=
  (thenSkip (many (padded (termWithin (cs.length + 1)))) ending cs).map Prod.fst

variable {ctx : Context} {s s' : State} {p first value n : Nat} {negative : Bool} {c : Char}
  {cs ds rest : List Char} {t : Term} {ts : List Term} {span : Span} {term : Parser Term}

/-! ### The machine up to places -/

/-- What a line is read as from a state, whatever the places of its characters. -/
def line (s : State) (cs : List Char) : Option (List Term) := (run s 0 cs).toOption

theorem toOption_run (hs : ∀ k, s.shift k = s) (p : Nat) (cs : List Char) :
    (run s p cs).toOption = line s cs := by
  have hrun := run_shift p s 0 cs
  rw [hs, Nat.zero_add] at hrun
  rw [hrun, line]
  cases run s 0 cs <;> rfl

theorem line_cons (hs : ∀ k, s'.shift k = s') (h : step 0 c s = .ok s') (cs : List Char) :
    line s (c :: cs) = line s' cs := by
  rw [line, run_cons h, toOption_run hs]

theorem line_refused (h : step 0 c s = .error span) (cs : List Char) : line s (c :: cs) = none := by
  rw [line, run_of_step_eq_error h]
  rfl

theorem step_refused (hs : step p c s = goOn p c s) (h : stepSettled p c s = none) :
    step p c s = .error ⟨p, p + 1⟩ := by
  rw [hs, goOn, h]

/-- Settled states with the same step make the same of a line. -/
theorem line_congr (hs : step 0 c s = goOn 0 c s) (hs' : step 0 c s' = goOn 0 c s')
    (h : stepSettled 0 c s = stepSettled 0 c s') (cs : List Char) :
    line s (c :: cs) = line s' (c :: cs) := by
  rw [line, line, Reader.run, Reader.run, hs, hs', goOn, goOn, h]

/-- A state that passes over blanks makes nothing of those in front. -/
theorem line_unpadded (hs : ∀ k, s.shift k = s) (h : ∀ c, isBlank c → step 0 c s = .ok s)
    (cs : List Char) : line s (unpadded cs) = line s cs := by
  induction cs with
  | nil => rfl
  | cons c cs ih =>
    by_cases hc : isBlank c
    · rw [unpadded_cons_of_isBlank hc, ih, line_cons hs (h c hc)]
    · rw [unpadded_cons_of_not_isBlank hc]

/-- What becomes of a line behind the term that has been taken. -/
def behind (ctx : Context) (r : Option (Term × List Char)) : Option (List Term) :=
  r.bind fun r => line (.closed (ctx.add r.1)) r.2

/-! ### Numbers -/

/-- A number that has ended joins what has been read, if it fits. -/
theorem toOption_run_digits (hrest : ∀ c ∈ rest.head?, ¬canGrow value c) :
    (run (.digits ctx first negative value) p rest).toOption =
      behind ctx ((number? negative value).map fun t => (t, rest)) := by
  unfold number?
  by_cases hn : numberMin ≤ (if negative then -(value : Int) else value) ∧
      (if negative then -(value : Int) else value) ≤ numberMax
  · rw [run_digits hrest rfl hn.1 hn.2, toOption_run fun _ => rfl]
    dsimp only
    rw [if_pos hn]
    rfl
  · rw [run_digits_refused hrest hn]
    dsimp only
    rw [if_neg hn]
    rfl

theorem toOption_run_more_digits (hvalue : value ≠ 0) (p : Nat) (cs : List Char) :
    (run (.digits ctx first negative value) p cs).toOption =
      behind ctx ((number? negative ((cs.takeWhile Char.isDigit).foldl snocDigit value)).map
        fun t => (t, cs.dropWhile Char.isDigit)) := by
  induction cs generalizing p value with
  | nil => exact toOption_run_digits fun c hc => by cases hc
  | cons c cs ih =>
    by_cases hc : c.isDigit
    · have hgrow : canGrow value c := by
        rw [canGrow, hc, Bool.true_and, bne_iff_ne]
        exact hvalue
      have hstep : step p c (.digits ctx first negative value) =
          .ok (.digits ctx first negative (snocDigit value c)) := if_pos hgrow
      have hmore : snocDigit value c ≠ 0 := by
        unfold snocDigit
        omega
      rw [run_cons hstep, ih hmore, List.takeWhile_cons_of_pos hc, List.dropWhile_cons_of_pos hc,
        List.foldl_cons]
    · rw [List.takeWhile_cons_of_neg hc, List.dropWhile_cons_of_neg hc, List.foldl_nil]
      refine toOption_run_digits fun d hd hgrow => hc ?_
      rw [Option.some_inj.mp hd]
      exact (Bool.and_eq_true_iff.mp hgrow).1

/-- The number of the digits that have been taken, with the rest. -/
def signed? (negative : Bool) (r : List Char × List Char) : Option (Term × List Char) :=
  (number? negative (r.1.foldl snocDigit 0)).map fun t => (t, r.2)

theorem integer_of_not_isDigit (hc : ¬c.isDigit) : integer (c :: cs) = none := by
  have hfirst : char (fun c => c.isDigit && c != '0') (c :: cs) = none :=
    if_neg fun h => hc (Bool.and_eq_true_iff.mp h).1
  have hzero : char (fun c => c == '0') (c :: cs) = none := if_neg fun h => hc (by
    rw [eq_of_beq h]
    decide)
  exact orElse_eq_none_iff.mpr
    ⟨map_eq_none_iff.mpr (both_eq_none hfirst), map_eq_none_iff.mpr hzero⟩

/-- From its first digit on, the machine takes the integer that the parser takes. -/
theorem toOption_run_integer (hc : c.isDigit) (first p : Nat) (cs : List Char) :
    (run (.digits ctx first negative (c.toNat - '0'.toNat)) p cs).toOption =
      behind ctx ((integer (c :: cs)).bind (signed? negative)) := by
  have hvalue : snocDigit 0 c = c.toNat - '0'.toNat := Nat.zero_add _
  by_cases hzero : c = '0'
  · have hread : integer (c :: cs) = some ([c], cs) := by
      rw [hzero]
      rfl
    rw [hread, Option.bind_some, signed?, List.foldl_cons, List.foldl_nil, hvalue]
    refine toOption_run_digits fun d hd hgrow => ?_
    rw [hzero] at hgrow
    cases (Bool.and_eq_true_iff.mp hgrow).2
  · have hfirst : char (fun c => c.isDigit && c != '0') (c :: cs) = some (c, cs) :=
      if_pos (Bool.and_eq_true_iff.mpr ⟨hc, bne_iff_ne.mpr hzero⟩)
    have hread : integer (c :: cs) =
        some (c :: cs.takeWhile Char.isDigit, cs.dropWhile Char.isDigit) :=
      orElse_eq_some_iff.mpr (.inl (map_eq_some_iff.mpr ⟨(c, _),
        both_eq_some_iff.mpr ⟨cs, hfirst, many_char Char.isDigit cs⟩, rfl⟩))
    have hne : snocDigit 0 c ≠ 0 := by
      intro h
      have hbound := (Formula.isNameChar_iff.mp (isNameChar_of_isDigit hc)).toNat_bounds.1
      have hnat : c.toNat = 48 := Nat.le_antisymm (Nat.sub_eq_zero_iff_le.mp (hvalue ▸ h)) hbound
      exact hzero (by rw [← Char.ofNat_toNat c, hnat])
    rw [hread, Option.bind_some, signed?, List.foldl_cons, ← hvalue]
    exact toOption_run_more_digits hne p cs

theorem numberParser_minus (cs : List Char) :
    numberParser ('-' :: cs) = (integer cs).bind (signed? true) := by
  have hsign : optional (just ['-']) ('-' :: cs) = some (some (), cs) := rfl
  show Option.bind (both (optional (just ['-'])) integer ('-' :: cs)) _ = _
  rw [both_of_some hsign]
  cases integer cs <;> rfl

theorem numberParser_of_ne_minus (hc : c ≠ '-') (cs : List Char) :
    numberParser (c :: cs) = (integer (c :: cs)).bind (signed? false) := by
  have hsign : optional (just ['-']) (c :: cs) = some (none, c :: cs) :=
    optional_of_none (just_singleton_of_ne hc cs)
  show Option.bind (both (optional (just ['-'])) integer (c :: cs)) _ = _
  rw [both_of_some hsign]
  cases integer (c :: cs) <;> rfl

/-- **A number** that the parser takes is taken by the machine. -/
theorem line_number (hc : c = '-' ∨ c.isDigit) (ctx : Context) (cs : List Char) :
    line (.comma ctx) (c :: cs) = behind ctx (numberParser (c :: cs)) := by
  by_cases hminus : c = '-'
  · rw [hminus, numberParser_minus, line, run_cons (opens_comma 0 '-' (.minus ctx 0) rfl)]
    cases cs with
    | nil => rfl
    | cons d cs =>
      by_cases hd : d.isDigit
      · have hstep : step 1 d (.minus ctx 0) = .ok (.digits ctx 0 true (d.toNat - '0'.toNat)) :=
          step_of_stepSettled (if_pos hd)
        rw [run_cons hstep, toOption_run_integer hd]
      · have hnone : stepSettled 1 d (.minus ctx 0) = none := if_neg hd
        rw [run_of_step_eq_error (step_refused rfl hnone), integer_of_not_isDigit hd]
        rfl
  · have hd := hc.resolve_left hminus
    rw [numberParser_of_ne_minus hminus, line, run_cons (opens_comma 0 c _ (begin_of_isDigit hd)),
      toOption_run_integer hd]

/-! ### Strings -/

theorem line_escape (d : Char) (revText cs : List Char) :
    line (.string ctx revText) ('\\' :: d :: cs) =
      line (.string ctx (unescape d :: revText)) cs := by
  have hescape : step 0 '\\' (.string ctx revText) = .ok (.escape ctx revText) := rfl
  have hchar : step 0 d (.escape ctx revText) = .ok (.string ctx (unescape d :: revText)) := rfl
  rw [line_cons (fun _ => rfl) hescape, line_cons (fun _ => rfl) hchar]

theorem consumes_stringChar : Consumes stringChar :=
  (consumes_char _).orElse ((consumes_just (List.cons_ne_nil _ _)).skipThen _)

theorem stringChar_of_plain (hquote : c ≠ '"') (hescape : c ≠ '\\') (cs : List Char) :
    stringChar (c :: cs) = some (c, cs) := by
  have hplain : (c != '\\' && c != '"') = true :=
    Bool.and_eq_true_iff.mpr ⟨bne_iff_ne.mpr hescape, bne_iff_ne.mpr hquote⟩
  exact orElse_eq_some_iff.mpr (.inl (if_pos hplain))

/-- **The characters of a string** that the parser takes are taken by the machine. -/
theorem line_string (revText cs : List Char) : line (.string ctx revText) cs =
    (just ['"'] (repeated stringChar cs).2).bind fun r =>
      line (.closed (ctx.add (.text (String.ofList
        (revText.reverse ++ (repeated stringChar cs).1))))) r.2 := by
  match cs with
  | [] =>
    have hnone : stringChar [] = none := rfl
    rw [repeated_of_none hnone]
    rfl
  | c :: cs =>
    by_cases hquote : c = '"'
    · subst hquote
      have hnone : stringChar ('"' :: cs) = none := rfl
      have hstep : step 0 '"' (.string ctx revText) =
          .ok (.closed (ctx.add (.text (String.ofList revText.reverse)))) := rfl
      rw [repeated_of_none hnone, line_cons (fun _ => rfl) hstep, List.append_nil]
      rfl
    by_cases hescape : c = '\\'
    · subst hescape
      match cs with
      | [] =>
        have hnone : stringChar ['\\'] = none := rfl
        rw [repeated_of_none hnone]
        rfl
      | d :: cs =>
        have hsome : stringChar ('\\' :: d :: cs) = some (unescape d, cs) := rfl
        rw [repeated_of_some consumes_stringChar hsome, line_escape,
          line_string (unescape d :: revText) cs, List.reverse_cons, List.append_assoc]
        rfl
    · have hstep : step 0 c (.string ctx revText) = .ok (.string ctx (c :: revText)) :=
        step_of_stepSettled ((if_neg hquote).trans (if_neg hescape))
      rw [repeated_of_some consumes_stringChar (stringChar_of_plain hquote hescape cs),
        line_cons (fun _ => rfl) hstep, line_string (c :: revText) cs, List.reverse_cons,
        List.append_assoc]
      rfl

/-- **A string** that the parser takes is taken by the machine. -/
theorem line_text (ctx : Context) (cs : List Char) :
    line (.comma ctx) ('"' :: cs) = behind ctx (textParser ('"' :: cs)) := by
  have hquote : just ['"'] ('"' :: cs) = some ((), cs) := rfl
  have hchars : many stringChar cs = some (repeated stringChar cs) := rfl
  have hread : textParser ('"' :: cs) = (just ['"'] (repeated stringChar cs).2).map fun r =>
      (.text (String.ofList (repeated stringChar cs).1), r.2) := by
    show Option.bind (skipThen _ _ ('"' :: cs)) _ = _
    rw [skipThen_of_some hquote, thenSkip_of_some hchars]
    cases just ['"'] (repeated stringChar cs).2 <;> rfl
  rw [line_cons (fun _ => rfl) (opens_comma 0 '"' (.string ctx []) rfl), line_string, hread]
  cases just ['"'] (repeated stringChar cs).2 <;> rfl

/-! ### Functions -/

/-- A term may begin with the character. -/
def Begins (c : Char) : Prop := c = '-' ∨ c.isDigit ∨ c = '"' ∨ isNameStart c

theorem begin_eq_none (hc : ¬Begins c) (ctx : Context) (p : Nat) : begin ctx p c = none := by
  simp only [Begins, not_or] at hc
  rw [begin, if_neg hc.1, if_neg hc.2.1, if_neg hc.2.2.1, if_neg hc.2.2.2]

theorem Begins.not_isBlank (h : Begins c) : ¬isBlank c := by
  rcases h with rfl | h | rfl | h
  · decide
  · exact not_isBlank_of_isNameChar (isNameChar_of_isDigit h)
  · decide
  · exact not_isBlank_of_isNameChar (isNameChar_of_isNameStart h)

/-- **Where a term may begin,** the machine takes the term that the parser takes, and refuses
the line where the parser takes none, on texts shorter than the bound. -/
structure Simulates (n : Nat) (term : Parser Term) : Prop where
  begins : ∀ cs r, term cs = some r → ∃ c ds, cs = c :: ds ∧ Begins c
  takes : ∀ ctx cs, cs.length < n → unpadded cs = cs → line (.comma ctx) cs = behind ctx (term cs)

/-- A comma, with blanks around, and a term. -/
def commaThen (term : Parser Term) : Parser Term := skipThen (padded (just [','])) term

theorem consumes_commaThen (term : Parser Term) : Consumes (commaThen term) :=
  (consumes_just (List.cons_ne_nil _ _)).padded.skipThen term

theorem consumes_termParser (term : Parser Term) : Consumes (termParser term) := by
  have hinteger : Consumes integer :=
    (((consumes_char _).both_left _).map _).orElse ((consumes_char _).map _)
  have hnumber : Consumes numberParser := (hinteger.both_right _).filterMap _
  have htext : Consumes textParser := ((consumes_just (List.cons_ne_nil _ _)).skipThen _).map _
  have hidentifier : Consumes identifier := ((consumes_char _).both_left _).map _
  exact (hnumber.orElse htext).orElse ((hidentifier.both_left _).map _)

/-- Blanks behind a comma make no difference. -/
theorem line_comma_unpadded (ctx : Context) (cs : List Char) :
    line (.comma ctx) (unpadded cs) = line (.comma ctx) cs :=
  have hblanks : ∀ c, isBlank c → step 0 c (.comma ctx) = .ok (.comma ctx) := fun _ hc =>
    step_of_stepSettled (if_pos hc)
  line_unpadded (fun _ => rfl) hblanks cs

/-- Behind an argument and a blank, only a comma goes on. -/
theorem line_padded (ctx : Context) (cs : List Char) : line (.padded ctx) cs =
    (just [','] (unpadded cs)).bind fun r => line (.comma ctx) r.2 := by
  have hblanks : ∀ c, isBlank c → step 0 c (.padded ctx) = .ok (.padded ctx) := fun c hc =>
    step_of_stepSettled ((if_neg (ne_of_isBlank hc (by decide))).trans (if_pos hc))
  rw [← line_unpadded (fun _ => rfl) hblanks]
  cases hcs : unpadded cs with
  | nil => rfl
  | cons c ds =>
    by_cases hcomma : c = ','
    · subst hcomma
      exact line_cons (fun _ => rfl) rfl ds
    · have hblank : ¬isBlank c := not_isBlank_of_unpadded (hcs ▸ unpadded_unpadded cs)
      have hnone : stepSettled 0 c (.padded ctx) = none := (if_neg hcomma).trans (if_neg hblank)
      rw [line_refused (step_refused rfl hnone), just_singleton_of_ne hcomma]
      rfl

/-- Behind an argument, what is no closing bracket is blanks and a comma. -/
theorem line_closed_inside (hc : c ≠ ')') (ctx : Context) (name : String) (revArgs : List Term)
    (cs : List Char) : line (.closed (ctx.inside name revArgs)) (c :: cs) =
      (just [','] (unpadded (c :: cs))).bind fun r =>
        line (.comma (ctx.inside name revArgs)) r.2 := by
  have hs : stepSettled 0 c (.closed (ctx.inside name revArgs)) =
      stepSettled 0 c (.padded (ctx.inside name revArgs)) := by
    show (if c = ',' then _ else if c = ')' then _ else _) = _
    rw [if_neg hc]
    rfl
  rw [← line_padded]
  exact line_congr rfl rfl hs cs

/-- What becomes of a line behind the bracket that closes the arguments of a function. -/
def closing (ctx : Context) (name : String) (args : List Term) (cs : List Char) :
    Option (List Term) :=
  (just [')'] cs).bind fun r => line (.closed (ctx.add (.function name args))) r.2

theorem closing_eq_none (hc : c ≠ ')') (ctx : Context) (name : String) (args : List Term)
    (cs : List Char) : closing ctx name args (c :: cs) = none := by
  rw [closing, just_singleton_of_ne hc]
  rfl

/-- **The arguments behind the first** are those that the parser takes, up to the bracket. -/
theorem line_inside {cs : List Char} (h : Simulates n term) (hcs : cs.length < n) (ctx : Context)
    (name : String) (revArgs : List Term) : line (.closed (ctx.inside name revArgs)) cs =
      closing ctx name (revArgs.reverse ++ (repeated (commaThen term) cs).1)
        (repeated (commaThen term) cs).2 := by
  match cs with
  | [] =>
    have hnone : commaThen term [] = none := rfl
    rw [repeated_of_none hnone]
    rfl
  | c :: cs =>
    by_cases hc : c = ')'
    · subst hc
      have hnone : commaThen term (')' :: cs) = none := rfl
      rw [repeated_of_none hnone, List.append_nil]
      exact line_cons (fun _ => rfl) rfl cs
    rw [line_closed_inside hc]
    cases hcomma : just [','] (unpadded (c :: cs)) with
    | none =>
      have hnone : commaThen term (c :: cs) = none :=
        skipThen_eq_none (padded_eq_none_iff.mpr hcomma)
      rw [repeated_of_none hnone, closing_eq_none hc]
      rfl
    | some r =>
      obtain ⟨u, mid⟩ := r
      have hpadded : padded (just [',']) (c :: cs) = some (u, unpadded mid) :=
        padded_eq_some_iff.mpr ⟨mid, hcomma, rfl⟩
      have hread : commaThen term (c :: cs) = term (unpadded mid) := skipThen_of_some hpadded term
      have hmid : (unpadded mid).length < (c :: cs).length :=
        (consumes_just (List.cons_ne_nil _ _)).padded _ _ _ hpadded
      rw [Option.bind_some, ← line_comma_unpadded,
        h.takes _ _ (Nat.lt_trans hmid hcs) (unpadded_unpadded mid)]
      cases hterm : term (unpadded mid) with
      | none =>
        rw [repeated_of_none (hread.trans hterm), closing_eq_none hc]
        rfl
      | some r =>
        obtain ⟨t, rest⟩ := r
        have hrest : rest.length < (c :: cs).length :=
          Nat.lt_of_le_of_lt (term.length_le hterm) hmid
        have hmore := line_inside h (Nat.lt_trans hrest hcs) ctx name (t :: revArgs)
        rw [List.reverse_cons, List.append_assoc] at hmore
        rw [repeated_of_some (consumes_commaThen term) (hread.trans hterm)]
        exact hmore
termination_by cs.length
decreasing_by exact hrest

/-- Where a term may begin, nothing but the context makes a difference. -/
theorem line_begin (hs : step 0 c s = goOn 0 c s) (h : stepSettled 0 c s = begin ctx 0 c)
    (hc : ¬isBlank c) (cs : List Char) : line s (c :: cs) = line (.comma ctx) (c :: cs) := by
  have hcomma : stepSettled 0 c (.comma ctx) = begin ctx 0 c := if_neg hc
  exact line_congr hs rfl (h.trans hcomma.symm) cs

theorem bind_arguments {args : List Term}
    (h : sepBy term (padded (just [','])) cs = some (args, ds)) (ctx : Context) (name : String) :
    ((arguments term ('(' :: cs)).bind fun r => line (.closed (ctx.add (.function name r.1))) r.2) =
      closing ctx name args ds := by
  have hopening : just ['('] ('(' :: cs) = some ((), cs) := rfl
  rw [arguments, skipThen_of_some hopening, thenSkip_of_some h, closing]
  cases just [')'] ds <;> rfl

/-- **The arguments of an open function** are those that the parser takes. -/
theorem line_opened (h : Simulates n term) (hcs : cs.length < n) (ctx : Context) (name : String) :
    line (.opened (ctx.inside name [])) cs =
      (arguments term ('(' :: cs)).bind fun r =>
        line (.closed (ctx.add (.function name r.1))) r.2 := by
  have hbegin : ∀ {c ds}, cs = c :: ds → c ≠ ')' → ¬isBlank c →
      line (.opened (ctx.inside name [])) cs = behind (ctx.inside name []) (term cs) := by
    intro c ds hds hc hblank
    have hclear : unpadded cs = cs := by
      rw [hds]
      exact unpadded_cons_of_not_isBlank hblank ds
    have hs : stepSettled 0 c (.opened (ctx.inside name [])) = begin (ctx.inside name []) 0 c :=
      if_neg hc
    rw [← h.takes _ cs hcs hclear, hds]
    exact line_begin rfl hs hblank ds
  cases hterm : term cs with
  | none =>
    rw [bind_arguments (sepBy_of_none hterm _)]
    cases cs with
    | nil => rfl
    | cons c cs =>
      by_cases hc : c = ')'
      · subst hc
        exact line_cons (fun _ => rfl) rfl cs
      rw [closing_eq_none hc]
      by_cases hblank : isBlank c
      · have hnone : stepSettled 0 c (.opened (ctx.inside name [])) = none :=
          (if_neg hc).trans (begin_of_isBlank hblank)
        exact line_refused (step_refused rfl hnone) cs
      · rw [hbegin rfl hc hblank, hterm]
        rfl
  | some r =>
    obtain ⟨t, rest⟩ := r
    rw [bind_arguments (sepBy_of_some hterm _)]
    obtain ⟨c, ds, hds, hc⟩ := h.begins cs _ hterm
    have hclose : c ≠ ')' := by
      rintro rfl
      revert hc
      unfold Begins
      decide
    rw [hbegin hds hclose hc.not_isBlank, hterm]
    exact line_inside h (Nat.lt_of_le_of_lt (term.length_le hterm) hcs) ctx name [t]

theorem line_of_leads (h : Leads s cs rest s') (hs : ∀ k, s'.shift k = s') :
    line s (cs ++ rest) = line s' rest := by
  obtain ⟨q, hq⟩ := h 0
  rw [line, hq, toOption_run hs]

theorem line_closed_opening (ctx : Context) (cs : List Char) :
    line (.closed ctx) ('(' :: cs) = none := by
  obtain ⟨revTerms, stack⟩ := ctx
  cases stack <;> exact line_refused rfl cs

/-- Behind its name, a function goes on with the arguments that the parser takes, if any. -/
theorem line_name (h : Simulates n term) (hcs : cs.length ≤ n)
    (hend : ∀ d ∈ cs.head?, ¬isNameChar d) (ctx : Context) (revName : List Char) :
    line (.name ctx revName) cs = behind ctx ((optional (arguments term) cs).map fun r =>
      (.function (String.ofList revName.reverse) (r.1.getD []), r.2)) := by
  by_cases hopening : ∃ inner, cs = '(' :: inner
  · obtain ⟨inner, rfl⟩ := hopening
    have hstep : step 0 '(' (.name ctx revName) =
        .ok (.opened (ctx.inside (String.ofList revName.reverse) [])) := rfl
    rw [line_cons (fun _ => rfl) hstep, line_opened h hcs]
    cases hargs : arguments term ('(' :: inner) with
    | none =>
      -- The parser leaves the bracket for what comes next, which takes none.
      rw [optional_of_none hargs]
      exact (line_closed_opening _ inner).symm
    | some r =>
      obtain ⟨args, rest⟩ := r
      rw [optional_of_some hargs]
      rfl
  · have hends : EndsAt cs := by
      intro d hd
      refine ⟨hend d hd, ?_⟩
      rintro rfl
      exact hopening ⟨cs.tail, (List.cons_head?_tail hd).symm⟩
    have hopen : just ['('] cs = none := by
      rw [Option.eq_none_iff_forall_ne_some]
      rintro ⟨u, inner⟩ hread
      exact hopening ⟨inner, just_eq_some_iff.mp hread⟩
    have hargs : arguments term cs = none := skipThen_eq_none hopen
    rw [optional_of_none hargs, line, run_name hends]
    rfl

theorem functionParser_of_isNameStart (hc : isNameStart c) (cs : List Char) :
    functionParser term (c :: cs) =
      (optional (arguments term) (cs.dropWhile isNameChar)).map fun r =>
        (.function (String.ofList (c :: cs.takeWhile isNameChar)) (r.1.getD []), r.2) := by
  have hname : identifier (c :: cs) =
      some (c :: cs.takeWhile isNameChar, cs.dropWhile isNameChar) :=
    map_eq_some_iff.mpr ⟨(c, _), both_eq_some_iff.mpr ⟨cs, if_pos hc, many_char isNameChar cs⟩, rfl⟩
  show Option.bind (both identifier _ (c :: cs)) _ = _
  rw [both_of_some hname]
  cases optional (arguments term) (cs.dropWhile isNameChar) <;> rfl

/-- **A function** that the parser takes is taken by the machine. -/
theorem line_function (h : Simulates n term) (hc : isNameStart c) (hcs : cs.length < n)
    (ctx : Context) : line (.comma ctx) (c :: cs) = behind ctx (functionParser term (c :: cs)) := by
  have hmore : ∀ d ∈ cs.takeWhile isNameChar, isNameChar d := fun d hd => List.mem_takeWhile_imp hd
  have hleads : Leads (.name ctx [c]) (cs.takeWhile isNameChar) (cs.dropWhile isNameChar)
      (.name ctx ((cs.takeWhile isNameChar).reverse ++ [c])) := leads_name hmore [c] _
  have hline := line_of_leads hleads fun _ => rfl
  rw [List.takeWhile_append_dropWhile] at hline
  have hrev : (cs.takeWhile isNameChar).reverse ++ [c] = (c :: cs.takeWhile isNameChar).reverse :=
    List.reverse_cons.symm
  have hlen : (cs.dropWhile isNameChar).length ≤ n :=
    Nat.le_trans (List.dropWhile_suffix _).length_le (Nat.le_of_lt hcs)
  have hend : ∀ d ∈ (cs.dropWhile isNameChar).head?, ¬isNameChar d := by
    intro d hd
    have hnot := List.head?_dropWhile_not isNameChar cs
    rw [hd] at hnot
    exact Bool.eq_false_iff.mp hnot
  rw [line_cons (fun _ => rfl) (opens_comma 0 c _ (begin_of_isNameStart hc)), hline,
    line_name h hlen hend, functionParser_of_isNameStart hc, hrev, List.reverse_reverse]

/-! ### Terms -/

theorem numberParser_eq_none (hc : ¬(c = '-' ∨ c.isDigit)) (cs : List Char) :
    numberParser (c :: cs) = none := by
  rw [not_or] at hc
  rw [numberParser_of_ne_minus hc.1, integer_of_not_isDigit hc.2]
  rfl

theorem textParser_eq_none (hc : c ≠ '"') (cs : List Char) : textParser (c :: cs) = none :=
  map_eq_none_iff.mpr (skipThen_eq_none (just_singleton_of_ne hc cs))

theorem functionParser_eq_none (hc : ¬isNameStart c) (cs : List Char) :
    functionParser term (c :: cs) = none := by
  have hidentifier : identifier (c :: cs) = none :=
    map_eq_none_iff.mpr (both_eq_none (if_neg hc))
  exact map_eq_none_iff.mpr (both_eq_none hidentifier)

theorem termParser_eq_none (hc : ¬Begins c) (cs : List Char) :
    termParser term (c :: cs) = none := by
  simp only [Begins, not_or] at hc
  have hnumber := numberParser_eq_none (not_or.mpr ⟨hc.1, hc.2.1⟩) cs
  have htext := textParser_eq_none hc.2.2.1 cs
  have hfunction : functionParser term (c :: cs) = none := functionParser_eq_none hc.2.2.2 cs
  exact orElse_eq_none_iff.mpr ⟨orElse_eq_none_iff.mpr ⟨hnumber, htext⟩, hfunction⟩

theorem begins_of_termParser {r : Term × List Char} (h : termParser term cs = some r) :
    ∃ c ds, cs = c :: ds ∧ Begins c := by
  cases cs with
  | nil => cases h
  | cons c ds =>
    refine ⟨c, ds, rfl, ?_⟩
    by_contra hc
    rw [termParser_eq_none hc ds] at h
    cases h

/-- **A term** is taken by the machine if the arguments of functions are. -/
theorem line_term (h : Simulates n term) (hc : ¬isBlank c) (hcs : cs.length < n)
    (ctx : Context) : line (.comma ctx) (c :: cs) = behind ctx (termParser term (c :: cs)) := by
  by_cases hnumber : c = '-' ∨ c.isDigit
  · have htext : c ≠ '"' := by
      rintro rfl
      revert hnumber
      decide
    have hname : ¬isNameStart c := by
      rcases hnumber with rfl | hdigit
      · decide
      · exact fun hname => not_isDigit_of_isNameStart hname hdigit
    rw [termParser, orElse_of_right_none (functionParser_eq_none hname cs),
      orElse_of_right_none (textParser_eq_none htext cs)]
    exact line_number hnumber ctx cs
  have hnot := numberParser_eq_none hnumber cs
  by_cases htext : c = '"'
  · subst htext
    rw [termParser, orElse_of_right_none (functionParser_eq_none (by decide) cs),
      orElse_of_none hnot]
    exact line_text ctx cs
  have hnone : orElse numberParser textParser (c :: cs) = none :=
    orElse_eq_none_iff.mpr ⟨hnot, textParser_eq_none htext cs⟩
  by_cases hname : isNameStart c
  · rw [termParser, orElse_of_none hnone]
    exact line_function h hname hcs ctx
  · have hbegins : ¬Begins c := by
      rw [not_or] at hnumber
      simp only [Begins, not_or]
      exact ⟨hnumber.1, hnumber.2, htext, hname⟩
    have hnone : stepSettled 0 c (.comma ctx) = none :=
      (if_neg hc).trans (begin_eq_none hbegins ctx 0)
    rw [line_refused (step_refused rfl hnone), termParser_eq_none hbegins]
    rfl

theorem Simulates.termParser (h : Simulates n term) : Simulates (n + 1) (termParser term) := by
  refine ⟨fun cs r => begins_of_termParser, fun ctx cs hcs hclear => ?_⟩
  cases cs with
  | nil => rfl
  | cons c cs => exact line_term h (not_isBlank_of_unpadded hclear) (Nat.lt_of_succ_lt_succ hcs) ctx

theorem simulates_termWithin (n : Nat) : Simulates n (termWithin n) := by
  induction n with
  | zero =>
    refine ⟨fun cs r h => ?_, fun ctx cs hcs => absurd hcs (Nat.not_lt_zero _)⟩
    cases h
  | succ n ih => exact ih.termParser

/-! ### Lines -/

/-- Blanks behind a term of a line make no difference. -/
theorem line_closed_unpadded (revTerms : List Term) (cs : List Char) :
    line (.closed ⟨revTerms, []⟩) (unpadded cs) = line (.closed ⟨revTerms, []⟩) cs :=
  have hblanks : ∀ c, isBlank c →
      step 0 c (.closed ⟨revTerms, []⟩) = .ok (.closed ⟨revTerms, []⟩) := fun _ hc =>
    step_of_stepSettled (if_pos hc)
  line_unpadded (fun _ => rfl) hblanks cs

/-- The terms of a row that takes the whole line. -/
def whole (r : List Term × List Char) : Option (List Term) := if r.2 = [] then some r.1 else none

theorem map_whole_cons (revTerms : List Term) (t : Term) (r : List Term × List Char) :
    (whole r).map ((t :: revTerms).reverse ++ ·) =
      (whole (t :: r.1, r.2)).map (revTerms.reverse ++ ·) := by
  unfold whole
  by_cases hr : r.2 = []
  · rw [if_pos hr, if_pos hr, Option.map_some, Option.map_some, List.reverse_cons,
      List.append_assoc, List.singleton_append]
  · rw [if_neg hr, if_neg hr]
    rfl

/-- **A row of terms** that the parser takes is taken by the machine, if the parser takes the
whole line. -/
theorem line_row {cs : List Char} (h : Simulates n term) (hterm : Consumes term)
    (hcs : cs.length < n) (hne : cs ≠ []) (revTerms : List Term) :
    line (.comma ⟨revTerms, []⟩) cs =
      (whole (repeated (padded term) cs)).map (revTerms.reverse ++ ·) := by
  have hlen : (unpadded cs).length < n := Nat.lt_of_le_of_lt (length_unpadded_le cs) hcs
  rw [← line_comma_unpadded, h.takes _ _ hlen (unpadded_unpadded cs)]
  cases hread : term (unpadded cs) with
  | none =>
    rw [repeated_of_none (padded_eq_none_iff.mpr hread), whole, if_neg hne]
    rfl
  | some r =>
    obtain ⟨t, rest⟩ := r
    have hsome : padded term cs = some (t, unpadded rest) :=
      padded_eq_some_iff.mpr ⟨rest, hread, rfl⟩
    have hrest : (unpadded rest).length < cs.length := hterm.padded _ _ _ hsome
    show line (.closed ⟨t :: revTerms, []⟩) rest = _
    rw [repeated_of_some hterm.padded hsome, ← map_whole_cons, ← line_closed_unpadded]
    by_cases hend : unpadded rest = []
    · rw [hend, repeated_of_none hterm.padded.nil]
      exact congrArg some (List.append_nil _).symm
    · rw [← line_row h hterm (Nat.lt_trans hrest hcs) hend (t :: revTerms)]
      obtain ⟨c, ds, hclear⟩ := List.exists_cons_of_ne_nil hend
      have hblank : ¬isBlank c := not_isBlank_of_unpadded (hclear ▸ unpadded_unpadded rest)
      have hs : stepSettled 0 c (.closed ⟨t :: revTerms, []⟩) = begin ⟨t :: revTerms, []⟩ 0 c :=
        if_neg hblank
      rw [hclear]
      exact line_begin rfl hs hblank ds
termination_by cs.length
decreasing_by exact hrest

/-- Before the first term of a line that is not empty, the line stands as behind a comma. -/
theorem line_start (hcs : cs ≠ []) : line .start cs = line (.comma ⟨[], []⟩) cs := by
  induction cs with
  | nil => exact absurd rfl hcs
  | cons c cs ih =>
    by_cases hc : isBlank c
    · have hstart : step 0 c .start = .ok .blanks := step_of_stepSettled (if_pos hc)
      have hcomma : step 0 c (.comma ⟨[], []⟩) = .ok (.comma ⟨[], []⟩) :=
        step_of_stepSettled (if_pos hc)
      rw [line_cons (fun _ => rfl) hstart, line_cons (fun _ => rfl) hcomma]
      cases cs with
      | nil => rfl
      | cons d ds =>
        rw [← ih (List.cons_ne_nil d ds)]
        exact congrArg Except.toOption (run_blanks (List.cons_ne_nil d ds) 0)
    · have hs : stepSettled 0 c .start = begin ⟨[], []⟩ 0 c := if_neg hc
      exact line_begin rfl hs hc cs

theorem readLineByParts_eq (cs : List Char) :
    readLineByParts cs = whole (repeated (padded (termWithin (cs.length + 1))) cs) := by
  have hmany : many (padded (termWithin (cs.length + 1))) cs =
      some (repeated (padded (termWithin (cs.length + 1))) cs) := rfl
  rw [readLineByParts, thenSkip_of_some hmany]
  generalize repeated (padded (termWithin (cs.length + 1))) cs = r
  obtain ⟨ts, rest⟩ := r
  cases rest <;> rfl

/-- **The machine reads what the parts make,** from every line. -/
theorem readLine_toOption (cs : List Char) : (readLine cs).toOption = readLineByParts cs := by
  have hterm : Consumes (termWithin (cs.length + 1)) := consumes_termParser _
  rw [readLineByParts_eq]
  show line .start cs = _
  by_cases hcs : cs = []
  · rw [hcs, repeated_of_none (hcs ▸ hterm).padded.nil]
    rfl
  · rw [line_start hcs, line_row (simulates_termWithin _) hterm (Nat.lt_succ_self _) hcs]
    cases whole (repeated (padded (termWithin (cs.length + 1))) cs) <;> rfl

end Term
end LeastGlut
