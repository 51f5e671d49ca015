/-
# Displayed terms are read back

The reader takes one character at a time, so what it does with a text is told piece by
piece: `Term.Reader.Leads` says that it comes through a piece from one state to another. A
displayed term leads from every state in which a term may begin to the state behind it, in
front of anything that does not run on (`Term.Reader.leads_display`). The proof follows the
term; the arguments of a function follow the list.

What has been read holds numbers in range and names that are identifiers at every step
(`Term.Reader.State.Proper.step`), so what is read from any line can be displayed and read
again.

Key definitions: `Term.Proper`, `Term.Reader.Leads`, `Term.Reader.Opens`,
`Term.Reader.State.Proper`, `Term.displayLine`.
-/
import LeastGlut.Proofs.Lists
import LeastGlut.Proofs.Wcnf
import LeastGlut.Term.Reader

namespace LeastGlut
namespace Term

open Reader

/-- An ASCII letter or underscore, and then letters, digits and underscores. -/
def IsIdentifier : List Char → Prop
  | [] => False
  | c :: cs => isNameStart c ∧ ∀ d ∈ cs, isNameChar d

/-- A term that a solver can print: its numbers fit, and its names are identifiers. -/
inductive Proper : Term → Prop
  | number {n : Int} : numberMin ≤ n → n ≤ numberMax → Proper (.number n)
  | text (s : String) : Proper (.text s)
  | function {name : String} {args : List Term} : IsIdentifier name.toList →
      (∀ arg ∈ args, Proper arg) → Proper (.function name args)

/-- Terms with one blank between any two. -/
def displayLine (ts : List Term) : String := " ".intercalate (ts.map display)

namespace Reader

variable {ctx : Context} {s s' s'' : State} {p start : Nat} {c : Char} {cs ds rest : List Char}

/-! ### Pieces of a text -/

/-- In front of `rest`, the reader comes through `cs` from one state to the other. -/
def Leads (s : State) (cs rest : List Char) (s' : State) : Prop :=
  ∀ p, ∃ q, run s p (cs ++ rest) = run s' q rest

theorem Leads.trans (h : Leads s cs (ds ++ rest) s') (h' : Leads s' ds rest s'') :
    Leads s (cs ++ ds) rest s'' := by
  intro p
  obtain ⟨q, hq⟩ := h p
  obtain ⟨q', hq'⟩ := h' q
  exact ⟨q', by rw [List.append_assoc, hq, hq']⟩

theorem run_cons (h : step p c s = .ok s') (cs : List Char) :
    run s p (c :: cs) = run s' (p + 1) cs := by
  rw [run, h]
  rfl

theorem Leads.char (h : ∀ p, step p c s = .ok s') (rest : List Char) : Leads s [c] rest s' :=
  fun p => ⟨p + 1, run_cons (h p) rest⟩

theorem Leads.cons (h : ∀ p, step p c s = .ok s') (hcs : Leads s' cs rest s'') :
    Leads s (c :: cs) rest s'' := (Leads.char h (cs ++ rest)).trans hcs

/-- What the step of a settled state gives is what the step gives. -/
theorem step_of_stepSettled (h : stepSettled p c s = some s') : step p c s = .ok s' := by
  cases s with
  | digits | name => cases h
  | _ => simp only [step, h]

/-- A term may begin in the state, in which the context has been read. -/
def Opens (s : State) (ctx : Context) : Prop :=
  ∀ p c s', begin ctx p c = some s' → step p c s = .ok s'

/-- The text runs on with nothing that continues a name or a number. -/
def EndsAt (rest : List Char) : Prop := ∀ c ∈ rest.head?, ¬isNameChar c ∧ c ≠ '('

theorem isNameChar_of_isDigit (h : c.isDigit) : isNameChar c := by
  rw [isNameChar, Char.isAlphanum, h, Bool.or_true, Bool.true_or]

theorem isNameChar_of_isNameStart (h : isNameStart c) : isNameChar c := by
  unfold isNameStart at h
  unfold isNameChar Char.isAlphanum
  rcases Bool.or_eq_true_iff.mp h with h | h
  · rw [h, Bool.true_or, Bool.true_or]
  · rw [h, Bool.or_true]

theorem not_isDigit_of_isNameStart (h : isNameStart c) : ¬c.isDigit := by
  rcases Bool.or_eq_true_iff.mp h with h | h
  · unfold Char.isAlpha Char.isUpper Char.isLower at h
    unfold Char.isDigit
    grind
  · rw [eq_of_beq h]
    decide

theorem not_isBlank_of_isNameChar (h : isNameChar c) : ¬Text.isBlank c :=
  Bool.eq_false_iff.mp (Formula.isNameChar_iff.mp h).isBlank_eq_false

/-- Signs, quotes, brackets and commas come before the characters of names. -/
theorem ne_of_isNameChar (h : isNameChar c) {d : Char} (hd : d.toNat < 48) : c ≠ d := by
  rintro rfl
  have hbound := (Formula.isNameChar_iff.mp h).toNat_bounds.1
  omega

/-- No term begins with a blank, a closing bracket or a comma. -/
theorem begin_eq_some (h : begin ctx p c = some s') : ¬Text.isBlank c ∧ c ≠ ')' ∧ c ≠ ',' := by
  have hname : isNameChar c → ¬Text.isBlank c ∧ c ≠ ')' ∧ c ≠ ',' := fun hc =>
    ⟨not_isBlank_of_isNameChar hc, ne_of_isNameChar hc (by decide), ne_of_isNameChar hc (by decide)⟩
  unfold begin at h
  split at h
  next hc =>
    rw [hc]
    decide
  split at h
  next hc => exact hname (isNameChar_of_isDigit hc)
  split at h
  next hc =>
    rw [hc]
    decide
  split at h
  next hc => exact hname (isNameChar_of_isNameStart hc)
  next => cases h

theorem begin_of_isDigit (h : c.isDigit) :
    begin ctx p c = some (.digits ctx p false (c.toNat - '0'.toNat)) := by
  have hminus : c ≠ '-' := ne_of_isNameChar (isNameChar_of_isDigit h) (by decide)
  rw [begin, if_neg hminus, if_pos h]

theorem begin_of_isNameStart (h : isNameStart c) : begin ctx p c = some (.name ctx [c]) := by
  have hname := isNameChar_of_isNameStart h
  have hminus : c ≠ '-' := ne_of_isNameChar hname (by decide)
  have hquote : c ≠ '"' := ne_of_isNameChar hname (by decide)
  rw [begin, if_neg hminus, if_neg (not_isDigit_of_isNameStart h), if_neg hquote, if_pos h]

theorem opens_start : Opens .start ⟨[], []⟩ := fun _ _ _ h =>
  step_of_stepSettled ((if_neg (begin_eq_some h).1).trans h)

theorem opens_closed (hctx : ctx.stack = []) : Opens (.closed ctx) ctx := by
  intro p c s' h
  refine step_of_stepSettled ?_
  rw [stepSettled, hctx, if_pos List.isEmpty_nil, if_neg (begin_eq_some h).1, h]

theorem opens_opened : Opens (.opened ctx) ctx := fun _ _ _ h =>
  step_of_stepSettled ((if_neg (begin_eq_some h).2.1).trans h)

theorem opens_comma : Opens (.comma ctx) ctx := fun _ _ _ h =>
  step_of_stepSettled ((if_neg (begin_eq_some h).1).trans h)

/-! ### Numbers, strings and names -/

theorem EndsAt.not_canGrow (h : EndsAt rest) {value : Nat} :
    ∀ c ∈ rest.head?, ¬canGrow value c := by
  intro c hc hg
  rw [canGrow, Bool.and_eq_true] at hg
  exact (h c hc).1 (isNameChar_of_isDigit hg.1)

/-- A number that has ended joins what has been read. -/
theorem run_digits {negative : Bool} {value : Nat} (hrest : ∀ c ∈ rest.head?, ¬canGrow value c)
    {n : Int} (hn : n = if negative then -(value : Int) else value) (hmin : numberMin ≤ n)
    (hmax : n ≤ numberMax) :
    run (.digits ctx start negative value) p rest = run (.closed (ctx.add (.number n))) p rest := by
  have hsettle :
      settle p (.digits ctx start negative value) = .ok (.closed (ctx.add (.number n))) := by
    rw [settle, ← hn]
    exact if_pos ⟨hmin, hmax⟩
  cases rest with
  | nil =>
    rw [run, finish, hsettle]
    rfl
  | cons c cs =>
    rw [run, step, if_neg (hrest c rfl), hsettle]
    rfl

/-- So does a name, as a function without arguments. -/
theorem run_name {revName : List Char} (hrest : EndsAt rest) :
    run (.name ctx revName) p rest =
      run (.closed (ctx.add (.function (String.ofList revName.reverse) []))) p rest := by
  cases rest with
  | nil => rfl
  | cons c cs =>
    obtain ⟨hname, hopen⟩ := hrest c rfl
    rw [run, step, if_neg hname, if_neg hopen]
    rfl

/-- **The digits of a number** are read from where a first digit is taken. -/
theorem leads_toDigits {negative : Bool} (k : Nat) (hs : ∀ p c, c.isDigit →
      ∃ start, step p c s = .ok (.digits ctx start negative (c.toNat - '0'.toNat)))
    (rest : List Char) (p : Nat) :
    ∃ q start, run s p (Nat.toDigits 10 k ++ rest) = run (.digits ctx start negative k) q rest := by
  induction k using Nat.strongRecOn generalizing rest with
  | _ k ih =>
    have hdigit : ∀ d < 10, (Nat.digitChar d).isDigit ∧ (Nat.digitChar d).toNat - '0'.toNat = d :=
      fun d hd => ⟨Nat.isDigit_digitChar.trans (decide_eq_true hd),
        Nat.toNat_digitChar_sub_48_of_lt_ten hd⟩
    by_cases hk : k < 10
    · obtain ⟨start, hstep⟩ := hs p _ (hdigit k hk).1
      rw [(hdigit k hk).2] at hstep
      rw [Nat.toDigits_of_lt_base hk]
      exact ⟨p + 1, start, run_cons hstep rest⟩
    · have hlast := hdigit (k % 10) (Nat.mod_lt k (by decide))
      obtain ⟨q, start, hq⟩ := ih (k / 10) (by omega) (Nat.digitChar (k % 10) :: rest)
      have hgrow : canGrow (k / 10) (Nat.digitChar (k % 10)) := by
        rw [canGrow, hlast.1, Bool.true_and, bne_iff_ne]
        omega
      have hstep : step q (Nat.digitChar (k % 10)) (.digits ctx start negative (k / 10)) =
          .ok (.digits ctx start negative k) := by
        rw [step, if_pos hgrow, hlast.2, Nat.div_add_mod']
      refine ⟨q + 1, start, ?_⟩
      rw [Nat.toDigits_of_base_le (by decide) (Nat.le_of_not_lt hk), List.append_assoc,
        List.singleton_append, hq, run_cons hstep]

/-- The characters of a string are read as they were before quotes and backslashes got a
backslash. -/
theorem leads_quoted (ctx : Context) (text revText rest : List Char) :
    Leads (.string ctx revText) (text.flatMap quoteChar) rest
      (.string ctx (text.reverse ++ revText)) := by
  induction text generalizing revText with
  | nil => exact fun p => ⟨p, rfl⟩
  | cons c text ih =>
    have hrev : (c :: text).reverse ++ revText = text.reverse ++ (c :: revText) := by simp
    rw [List.flatMap_cons, hrev]
    refine Leads.trans ?_ (ih (c :: revText))
    by_cases hc : c = '"' ∨ c = '\\'
    · have hquote : quoteChar c = ['\\', c] := if_pos (by simpa using hc)
      have hn : ¬c = 'n' := by
        rcases hc with rfl | rfl <;> decide
      have hescape : ∀ p, step p c (.escape ctx revText) = .ok (.string ctx (c :: revText)) :=
        fun _ => step_of_stepSettled (by rw [stepSettled, if_neg hn])
      rw [hquote]
      exact .cons (fun _ => step_of_stepSettled rfl) (.char hescape _)
    · have hquote : quoteChar c = [c] := if_neg (by simpa using hc)
      rw [not_or] at hc
      rw [hquote]
      exact .char (fun _ => step_of_stepSettled (by
        rw [stepSettled, if_neg hc.1, if_neg hc.2])) _

theorem leads_name {name : List Char} (hname : ∀ c ∈ name, isNameChar c)
    (revName rest : List Char) :
    Leads (.name ctx revName) name rest (.name ctx (name.reverse ++ revName)) := by
  induction name generalizing revName with
  | nil => exact fun p => ⟨p, rfl⟩
  | cons c name ih =>
    rw [List.forall_mem_cons] at hname
    have hrev : (c :: name).reverse ++ revName = name.reverse ++ (c :: revName) := by simp
    have hstep : ∀ p, step p c (.name ctx revName) = .ok (.name ctx (c :: revName)) :=
      fun _ => if_pos hname.1
    rw [hrev]
    exact .cons hstep (ih hname.2 _)

/-- What begins a term in the context leads to it from wherever a term may begin. -/
theorem Opens.step (hs : Opens s ctx) (h : ∀ p, begin ctx p c = some s') :
    ∀ p, Reader.step p c s = .ok s' := fun p => hs p c s' (h p)

theorem leads_identifier (hs : Opens s ctx) {name : List Char} (hname : IsIdentifier name)
    (rest : List Char) : Leads s name rest (.name ctx name.reverse) := by
  cases name with
  | nil => cases hname
  | cons c name =>
    obtain ⟨hc, hname⟩ := hname
    rw [List.reverse_cons]
    exact .cons (hs.step fun _ => begin_of_isNameStart hc) (leads_name hname [c] rest)

/-- A displayed term is read in front of all that does not run on, wherever a term may begin. -/
def Displays (t : Term) : Prop :=
  ∀ {s : State} {ctx : Context} {rest : List Char}, Opens s ctx → EndsAt rest →
    Leads s t.display.toList rest (.closed (ctx.add t))

theorem displays_number {n : Int} (hmin : numberMin ≤ n) (hmax : n ≤ numberMax) :
    Displays (.number n) := by
  intro s ctx rest hs hrest p
  have hfirst : ∀ p c, c.isDigit →
      ∃ start, step p c s = .ok (.digits ctx start false (c.toNat - '0'.toNat)) :=
    fun p c hc => ⟨p, hs p c _ (begin_of_isDigit hc)⟩
  obtain ⟨k, hk⟩ := Text.toList_toString_int n
  rw [display]
  rcases hk with ⟨hn, hk⟩ | ⟨hn, hk⟩
  · rw [hk, Text.toList_toString]
    obtain ⟨q, start, hq⟩ := leads_toDigits k hfirst rest p
    exact ⟨q, hq.trans (run_digits hrest.not_canGrow hn hmin hmax)⟩
  · rw [hk, Text.toList_toString]
    have hminus : ∀ p, step p '-' s = .ok (.minus ctx p) := fun p => hs p '-' _ rfl
    have hdigit : ∀ q c, c.isDigit →
        ∃ start, step q c (.minus ctx p) = .ok (.digits ctx start true (c.toNat - '0'.toNat)) :=
      fun q c hc => ⟨p, step_of_stepSettled (if_pos hc)⟩
    obtain ⟨q, start, hq⟩ := leads_toDigits k hdigit rest (p + 1)
    refine ⟨q, ?_⟩
    rw [List.cons_append, run_cons (hminus p), hq]
    exact run_digits hrest.not_canGrow hn hmin hmax

theorem displays_text (text : String) : Displays (.text text) := by
  intro s ctx rest hs hrest
  have hclose : ∀ p, step p '"' (.string ctx text.toList.reverse) =
      .ok (.closed (ctx.add (.text text))) := fun p => step_of_stepSettled (by
    rw [stepSettled, if_pos rfl, List.reverse_reverse, String.ofList_toList])
  have hquoted := leads_quoted ctx text.toList [] (['"'] ++ rest)
  rw [List.append_nil] at hquoted
  rw [display, quoteTerm, String.toList_ofList, List.cons_append]
  exact .cons (hs.step fun _ => rfl) (hquoted.trans (.char hclose rest))

/-! ### Functions -/

/-- The context inside a function whose arguments are being read. -/
def Context.inside (ctx : Context) (name : String) (revArgs : List Term) : Context :=
  { ctx with stack := ⟨name, revArgs⟩ :: ctx.stack }

/-- A comma or a closing bracket ends an argument. -/
theorem endsAt_displayRest (args : List Term) (rest : List Char) :
    EndsAt ((displayRest args).toList ++ ')' :: rest) := by
  intro c hc
  cases args with
  | nil =>
    rw [← Option.some_inj.mp hc]
    decide
  | cons arg args =>
    rw [displayRest, String.toList_append, String.toList_append] at hc
    rw [← Option.some_inj.mp hc]
    decide

/-- The arguments behind the first, up to the bracket that closes them. -/
theorem leads_displayRest {args : List Term} (h : ∀ arg ∈ args, Displays arg) (ctx : Context)
    (name : String) (revArgs : List Term) (rest : List Char) :
    Leads (.closed (ctx.inside name revArgs)) (displayRest args).toList (')' :: rest)
      (.closed (ctx.inside name (args.reverse ++ revArgs))) := by
  induction args generalizing revArgs with
  | nil => exact fun p => ⟨p, rfl⟩
  | cons arg args ih =>
    rw [List.forall_mem_cons] at h
    have hrev : (arg :: args).reverse ++ revArgs = args.reverse ++ (arg :: revArgs) := by simp
    have hcomma : ∀ p, step p ',' (.closed (ctx.inside name revArgs)) =
        .ok (.comma (ctx.inside name revArgs)) := fun _ => rfl
    have harg : Leads (.comma (ctx.inside name revArgs)) arg.display.toList
        ((displayRest args).toList ++ ')' :: rest) (.closed (ctx.inside name (arg :: revArgs))) :=
      h.1 opens_comma (endsAt_displayRest args rest)
    rw [displayRest, String.toList_append, String.toList_append, hrev, List.append_assoc]
    exact .cons hcomma (harg.trans (ih h.2 _))

/-- The arguments and the bracket that closes them make a term of the function. -/
theorem leads_arguments {arg : Term} {args : List Term} (h : ∀ t ∈ arg :: args, Displays t)
    (ctx : Context) (name : String) (rest : List Char) :
    Leads (.opened (ctx.inside name [])) (arg.display.toList ++ ((displayRest args).toList ++ [')']))
      rest (.closed (ctx.add (.function name (arg :: args)))) := by
  rw [List.forall_mem_cons] at h
  have hclose : ∀ p, step p ')' (.closed (ctx.inside name (args.reverse ++ [arg]))) =
      .ok (.closed (ctx.add (.function name (arg :: args)))) := fun p => by
    have hargs : (args.reverse ++ [arg]).reverse = arg :: args := by simp
    rw [← hargs]
    rfl
  have harg : Leads (.opened (ctx.inside name [])) arg.display.toList
      ((displayRest args).toList ++ ')' :: rest) (.closed (ctx.inside name [arg])) :=
    h.1 opens_opened (endsAt_displayRest args rest)
  have htail := (leads_displayRest h.2 ctx name [arg] rest).trans (.char hclose rest)
  refine Leads.trans ?_ htail
  rw [List.append_assoc]
  exact harg

theorem displays_function {name : String} {args : List Term} (hname : IsIdentifier name.toList)
    (h : ∀ arg ∈ args, Displays arg) : Displays (.function name args) := by
  intro s ctx rest hs hrest
  have hidentifier := leads_identifier hs hname
  have hrev : String.ofList name.toList.reverse.reverse = name := by
    rw [List.reverse_reverse, String.ofList_toList]
  cases args with
  | nil =>
    intro p
    obtain ⟨q, hq⟩ := hidentifier rest p
    refine ⟨q, ?_⟩
    rw [display, hq, run_name hrest, hrev]
  | cons arg args =>
    have hopen : ∀ p, step p '(' (.name ctx name.toList.reverse) =
        .ok (.opened (ctx.inside name [])) := fun p => by
      have hparen : ¬isNameChar '(' := by decide
      rw [step, if_neg hparen, if_pos rfl, hrev]
      rfl
    have hbehind := Leads.cons hopen (leads_arguments h ctx name rest)
    simp only [display, String.toList_append, List.append_assoc]
    exact (hidentifier _).trans hbehind

/-- **A displayed term is read** wherever a term may begin. -/
theorem leads_display {t : Term} (ht : t.Proper) : Displays t := by
  induction ht with
  | number hmin hmax => exact displays_number hmin hmax
  | text s => exact displays_text s
  | function hname _ ih => exact displays_function hname ih

/-! ### Lines of terms -/

/-- What stands behind a term of a line. -/
theorem endsAt_flatMap (ts : List Term) :
    EndsAt ((ts.flatMap fun t => ' ' :: t.display.toList) ++ []) := by
  intro c hc
  cases ts with
  | nil => cases hc
  | cons t ts =>
    rw [← Option.some_inj.mp hc]
    decide

/-- Terms in front of a line's end, each behind a blank, join those that have been read. -/
theorem leads_displays {ts : List Term} (h : ∀ t ∈ ts, t.Proper) (revTerms : List Term) :
    Leads (.closed ⟨revTerms, []⟩) (ts.flatMap fun t => ' ' :: t.display.toList) []
      (.closed ⟨ts.reverse ++ revTerms, []⟩) := by
  induction ts generalizing revTerms with
  | nil => exact fun p => ⟨p, rfl⟩
  | cons t ts ih =>
    rw [List.forall_mem_cons] at h
    have hrev : (t :: ts).reverse ++ revTerms = ts.reverse ++ (t :: revTerms) := by simp
    have ht := leads_display h.1 (@opens_closed ⟨revTerms, []⟩ rfl) (endsAt_flatMap ts)
    rw [List.flatMap_cons, hrev, List.cons_append]
    exact .cons (fun _ => rfl) (ht.trans (ih h.2 _))

end Reader

theorem toList_displayLine (t : Term) (ts : List Term) :
    (displayLine (t :: ts)).toList =
      t.display.toList ++ ts.flatMap fun t => ' ' :: t.display.toList := by
  rw [displayLine, String.toList_intercalate, List.map_map]
  induction ts generalizing t with
  | nil => simp
  | cons t' ts ih =>
    rw [List.map_cons, List.map_cons, List.intercalate_cons_cons, ← List.map_cons, ih t',
      List.flatMap_cons, List.append_assoc]
    rfl

/-- **Displayed terms are read back** from their line. -/
theorem readLine_displayLine {ts : List Term} (h : ∀ t ∈ ts, t.Proper) :
    readLine (displayLine ts).toList = .ok ts := by
  cases ts with
  | nil => rfl
  | cons t ts =>
    rw [List.forall_mem_cons] at h
    have ht := leads_display h.1 opens_start (endsAt_flatMap ts)
    obtain ⟨q, hq⟩ := (ht.trans (leads_displays h.2 [t])) 0
    have hrev : (ts.reverse ++ [t]).reverse = t :: ts := by simp
    rw [List.append_nil] at hq
    rw [toList_displayLine, readLine]
    exact hq.trans (congrArg Except.ok hrev)

/-! ### What has been read -/

namespace Reader

variable {ctx : Context} {s s' : State} {p : Nat} {c : Char} {cs : List Char} {t : Term}

/-- The terms that have been read can be printed, and so can the names of open functions. -/
structure Context.Proper (ctx : Context) : Prop where
  terms : ∀ t ∈ ctx.revTerms, t.Proper
  stack : ∀ f ∈ ctx.stack, IsIdentifier f.name.toList ∧ ∀ t ∈ f.revArgs, t.Proper

/-- The context of a state can be printed, and a name that is being read begins as one. -/
def State.Proper : State → Prop
  | .start | .blanks => True
  | .closed ctx | .padded ctx | .opened ctx | .comma ctx => ctx.Proper
  | .minus ctx _ | .digits ctx .. | .string ctx _ | .escape ctx _ => ctx.Proper
  | .name ctx revName => ctx.Proper ∧ IsIdentifier revName.reverse

theorem Context.Proper.add (h : ctx.Proper) (ht : t.Proper) : (ctx.add t).Proper := by
  obtain ⟨revTerms, stack⟩ := ctx
  cases stack with
  | nil => exact ⟨List.forall_mem_cons.mpr ⟨ht, h.terms⟩, h.stack⟩
  | cons f outer =>
    have hstack := List.forall_mem_cons.mp h.stack
    refine ⟨h.terms, List.forall_mem_cons.mpr ⟨⟨hstack.1.1, ?_⟩, hstack.2⟩⟩
    exact List.forall_mem_cons.mpr ⟨ht, hstack.1.2⟩

theorem Context.Proper.close (h : ctx.Proper) : ctx.close.Proper := by
  obtain ⟨revTerms, stack⟩ := ctx
  cases stack with
  | nil => exact h
  | cons f outer =>
    obtain ⟨⟨hname, hargs⟩, houter⟩ := List.forall_mem_cons.mp h.stack
    have hctx : Context.Proper ⟨revTerms, outer⟩ := ⟨h.terms, houter⟩
    exact hctx.add (.function hname fun t ht => hargs t (List.mem_reverse.mp ht))

theorem IsIdentifier.snoc {name : List Char} (h : IsIdentifier name) (hc : isNameChar c) :
    IsIdentifier (name ++ [c]) := by
  cases name with
  | nil => cases h
  | cons d name =>
    exact ⟨h.1, List.forall_mem_append.mpr ⟨h.2, List.forall_mem_singleton.mpr hc⟩⟩

theorem Context.Proper.begin (h : ctx.Proper) (hs : begin ctx p c = some s') : s'.Proper := by
  unfold Reader.begin at hs
  split at hs
  · cases hs
    exact h
  split at hs
  · cases hs
    exact h
  split at hs
  · cases hs
    exact h
  split at hs
  next hc =>
    cases hs
    exact ⟨h, hc, List.forall_mem_nil _⟩
  next => cases hs

theorem State.Proper.settle (h : s.Proper) (hs : Reader.settle p s = .ok s') : s'.Proper := by
  cases s with
  | digits ctx start negative value =>
    rw [Reader.settle] at hs
    generalize (if negative then -(value : Int) else value) = n at hs
    split at hs
    next hn =>
      cases hs
      exact Context.Proper.add h (.number hn.1 hn.2)
    next => cases hs
  | name ctx revName =>
    cases hs
    have hname : IsIdentifier (String.ofList revName.reverse).toList := by
      rw [String.toList_ofList]
      exact h.2
    exact h.1.add (.function hname (List.forall_mem_nil _))
  | _ =>
    cases hs
    exact h

/-- A step of a settled state closes a term or a function, begins a term, or keeps the context. -/
theorem State.Proper.stepSettled (h : s.Proper) (hs : Reader.stepSettled p c s = some s') :
    s'.Proper := by
  have hempty : Context.Proper ⟨[], []⟩ := ⟨List.forall_mem_nil _, List.forall_mem_nil _⟩
  cases s with
  | start | blanks =>
    rw [Reader.stepSettled] at hs
    split at hs
    · cases hs
      trivial
    · exact hempty.begin hs
  | closed ctx =>
    rw [Reader.stepSettled] at hs
    split at hs
    · split at hs
      · cases hs
        exact h
      · exact Context.Proper.begin h hs
    · split at hs
      · cases hs
        exact h
      split at hs
      · cases hs
        exact Context.Proper.close h
      split at hs
      · cases hs
        exact h
      · cases hs
  | padded ctx =>
    rw [Reader.stepSettled] at hs
    split at hs
    · cases hs
      exact h
    split at hs
    · cases hs
      exact h
    · cases hs
  | opened ctx =>
    rw [Reader.stepSettled] at hs
    split at hs
    · cases hs
      exact Context.Proper.close h
    · exact Context.Proper.begin h hs
  | comma ctx =>
    rw [Reader.stepSettled] at hs
    split at hs
    · cases hs
      exact h
    · exact Context.Proper.begin h hs
  | minus ctx start =>
    rw [Reader.stepSettled] at hs
    split at hs
    · cases hs
      exact h
    · cases hs
  | string ctx revText =>
    rw [Reader.stepSettled] at hs
    split at hs
    · cases hs
      exact Context.Proper.add h (.text _)
    split at hs
    · cases hs
      exact h
    · cases hs
      exact h
  | escape ctx revText =>
    cases hs
    exact h
  | digits | name => cases hs

/-- **What a step can do:** settle the state and go on from there, or continue a number or a
name, or open the function that a name is of. -/
theorem step_eq_ok (h : step p c s = .ok s') :
    (∃ s₁, settle p s = .ok s₁ ∧ stepSettled p c s₁ = some s') ∨
      (∃ ctx start negative value, s = .digits ctx start negative value ∧ canGrow value c ∧
        s' = .digits ctx start negative (value * 10 + (c.toNat - '0'.toNat))) ∨
      (∃ ctx revName, s = .name ctx revName ∧ isNameChar c ∧ s' = .name ctx (c :: revName)) ∨
      ∃ ctx revName, s = .name ctx revName ∧ c = '(' ∧
        s' = .opened (ctx.inside (String.ofList revName.reverse) []) := by
  cases s with
  | digits ctx start negative value =>
    unfold step at h
    dsimp only at h
    split at h
    next hgrow =>
      cases h
      exact .inr (.inl ⟨ctx, start, negative, value, rfl, hgrow, rfl⟩)
    next =>
      obtain ⟨s₁, hsettle, h⟩ := bind_eq_ok_iff.mp h
      split at h
      next hstep =>
        cases h
        exact .inl ⟨s₁, hsettle, hstep⟩
      next => cases h
  | name ctx revName =>
    unfold step at h
    dsimp only at h
    split at h
    next hname =>
      cases h
      exact .inr (.inr (.inl ⟨ctx, revName, rfl, hname, rfl⟩))
    split at h
    next hopen =>
      cases h
      exact .inr (.inr (.inr ⟨ctx, revName, rfl, hopen, rfl⟩))
    next =>
      obtain ⟨s₁, hsettle, h⟩ := bind_eq_ok_iff.mp h
      split at h
      next hstep =>
        cases h
        exact .inl ⟨s₁, hsettle, hstep⟩
      next => cases h
  | _ =>
    unfold step at h
    dsimp only at h
    split at h
    next hstep =>
      cases h
      exact .inl ⟨_, rfl, hstep⟩
    next => cases h

theorem State.Proper.step (h : s.Proper) (hs : Reader.step p c s = .ok s') : s'.Proper := by
  rcases step_eq_ok hs with ⟨s₁, hsettle, hstep⟩ | ⟨ctx, start, negative, value, rfl, -, rfl⟩ |
    ⟨ctx, revName, rfl, hc, rfl⟩ | ⟨ctx, revName, rfl, -, rfl⟩
  · exact (h.settle hsettle).stepSettled hstep
  · exact h
  · refine ⟨h.1, ?_⟩
    rw [List.reverse_cons]
    exact IsIdentifier.snoc h.2 hc
  · refine ⟨h.1.terms, List.forall_mem_cons.mpr ⟨⟨?_, List.forall_mem_nil _⟩, h.1.stack⟩⟩
    rw [String.toList_ofList]
    exact h.2

theorem State.Proper.finish (h : s.Proper) {ts : List Term} (hs : Reader.finish p s = .ok ts) :
    ∀ t ∈ ts, t.Proper := by
  obtain ⟨s', hsettle, hs⟩ := bind_eq_ok_iff.mp hs
  have h' := h.settle hsettle
  cases s' with
  | start =>
    cases hs
    exact List.forall_mem_nil _
  | closed ctx =>
    dsimp only at hs
    split at hs
    · cases hs
      exact fun t ht => h'.terms t (List.mem_reverse.mp ht)
    · cases hs
  | _ => cases hs

theorem State.Proper.run (h : s.Proper) {ts : List Term} (hs : Reader.run s p cs = .ok ts) :
    ∀ t ∈ ts, t.Proper := by
  induction cs generalizing s p with
  | nil => exact h.finish hs
  | cons c cs ih =>
    obtain ⟨s', hstep, hrun⟩ := bind_eq_ok_iff.mp hs
    exact ih (h.step hstep) hrun

end Reader

theorem proper_of_readLine {cs : List Char} {ts : List Term} (h : readLine cs = .ok ts) :
    ∀ t ∈ ts, t.Proper := State.Proper.run (s := .start) trivial h

/-- **Terms round trip.** Terms whose numbers fit and whose names are identifiers are read
back from their line, whatever their strings hold; and what is read from any line is read
back from the line that displays it. -/
theorem readLine_roundTrip :
    (∀ ts, (∀ t ∈ ts, t.Proper) → readLine (displayLine ts).toList = .ok ts) ∧
      ∀ cs ts, readLine cs = .ok ts → readLine (displayLine ts).toList = .ok ts :=
  ⟨fun _ h => readLine_displayLine h, fun _ _ h => readLine_displayLine (proper_of_readLine h)⟩

/-- The extreme numbers, and a string of a quote, a backslash, the letter `n` and a line
feed; and a line whose terms stand without blanks between them. -/
theorem readLine_roundTrip_extremes :
    let ts : List Term := [.number numberMin, .number numberMax, .text "\"\\n\n",
      .function "f" [.function "_a" [], .function "g0" [.text ""]]]
    let cs := "a\"x\\ny\"7b(-0 , c)".toList
    let found : List Term := [.function "a" [], .text "x\ny", .number 7,
      .function "b" [.number 0, .function "c" []]]
    (∀ t ∈ ts, t.Proper) ∧ readLine (displayLine ts).toList = .ok ts ∧
      readLine cs = .ok found ∧ readLine (displayLine found).toList = .ok found := by
  intro ts cs found
  have hletter : ∀ c : Char, isNameStart c → IsIdentifier [c] := fun _ hc =>
    ⟨hc, List.forall_mem_nil _⟩
  have htwo : ∀ c d : Char, isNameStart c → isNameChar d → IsIdentifier [c, d] := fun _ _ hc hd =>
    ⟨hc, List.forall_mem_singleton.mpr hd⟩
  have ha : Proper (.function "_a" []) :=
    .function (htwo '_' 'a' (by decide) (by decide)) (List.forall_mem_nil _)
  have hg : Proper (.function "g0" [.text ""]) :=
    .function (htwo 'g' '0' (by decide) (by decide)) (List.forall_mem_singleton.mpr (.text ""))
  have hf : Proper (.function "f" [.function "_a" [], .function "g0" [.text ""]]) :=
    .function (hletter 'f' (by decide))
      (List.forall_mem_cons.mpr ⟨ha, List.forall_mem_singleton.mpr hg⟩)
  have hts : ∀ t ∈ ts, t.Proper := by
    simp only [ts, List.forall_mem_cons]
    exact ⟨.number (by decide) (by decide), .number (by decide) (by decide), .text _, hf,
      List.forall_mem_nil _⟩
  have hfound : readLine cs = .ok found := by rfl
  exact ⟨hts, readLine_roundTrip.1 ts hts, hfound, readLine_roundTrip.2 cs found hfound⟩

end Term
end LeastGlut
