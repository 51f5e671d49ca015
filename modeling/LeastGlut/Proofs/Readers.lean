/-
# What readers accept

A text is split into tokens, with blanks around them and an atom as long as it
can be (`Formula.Splits`). On the text of a token the reader's machine does what
it does on the token (`Formula.State.reads_token`), so its result on a text is
that on the tokens (`Formula.Splits.reads_eq`), and a text it accepts splits into
tokens (`Formula.State.exists_splits`). With the grammar, the reader accepts just
the texts of formulas (`Formula.read_eq_ok_iff`).

A knowledge base of one line is read as this one formula; the blanks at the end
of the line, carriage returns among them, do not matter (`Formula.splits_append_blanks`).

Key definitions: `Formula.IsName`, `Formula.Token.text`, `Formula.Splits`,
`Formula.Written`.
-/
import LeastGlut.KnowledgeBase.Reader
import LeastGlut.Proofs.Grammar
import Mathlib.Data.List.TakeWhile

namespace LeastGlut
namespace Formula

/-- An ASCII letter, a digit or an underscore. -/
def IsNameChar (c : Char) : Prop :=
  'A' ≤ c ∧ c ≤ 'Z' ∨ 'a' ≤ c ∧ c ≤ 'z' ∨ '0' ≤ c ∧ c ≤ '9' ∨ c = '_'

instance : DecidablePred IsNameChar := fun c =>
  inferInstanceAs (Decidable ('A' ≤ c ∧ c ≤ 'Z' ∨ 'a' ≤ c ∧ c ≤ 'z' ∨ '0' ≤ c ∧ c ≤ '9' ∨ c = '_'))

/-- Letters, digits and underscores, one at least. -/
def IsName (name : String) : Prop := name.toList ≠ [] ∧ ∀ c ∈ name.toList, IsNameChar c

namespace Token

def text : Token → List Char
  | atom name => name.toList
  | verum => ['+']
  | falsum => ['-']
  | neg => ['!']
  | op .and => ['&', '&']
  | op .or => ['|', '|']
  | op .implies => ['=', '>']
  | op .iff => ['<', '=', '>']
  | opening => ['(']
  | closing => [')']

/-- A connective is written as it is displayed. -/
theorem text_op (o : Connective) : text (op o) = o.symbol.toList := by
  cases o <;> rfl

/-- Atoms have names. -/
def Proper : Token → Prop
  | atom name => IsName name
  | _ => True

/-- The token may end in front of the text: an atom takes in what can continue it. -/
def EndsAt : Token → List Char → Prop
  | atom _, cs => ∀ c ∈ cs.head?, ¬IsNameChar c
  | _, _ => True

end Token

/-- The text is that of the tokens, with blanks around tokens only. -/
inductive Splits : List Char → List Token → Prop
  | nil : Splits [] []
  | blank {c : Char} {cs : List Char} {ts : List Token} : Text.isBlank c → Splits cs ts →
    Splits (c :: cs) ts
  | token {t : Token} {cs : List Char} {ts : List Token} : t.Proper → t.EndsAt cs →
    Splits cs ts → Splits (t.text ++ cs) (t :: ts)

/-- The text is that of the formula, bracketed or not. -/
def Written (cs : List Char) (f : Formula) : Prop := ∃ ts, Splits cs ts ∧ Derives 1 ts f

variable {c : Char} {cs bs : List Char} {t : Token} {ts : List Token} {s s' : State}
  {stack : List Frame} {f : Formula}

/-! ### Characters -/

theorem isNameChar_iff : isNameChar c ↔ IsNameChar c := by
  delta isNameChar Char.isAlphanum Char.isAlpha Char.isUpper Char.isLower Char.isDigit
  simp only [Bool.or_eq_true, Bool.and_eq_true, decide_eq_true_eq, beq_iff_eq]
  exact or_assoc.trans or_assoc

theorem isNameChar_eq_false_iff : isNameChar c = false ↔ ¬IsNameChar c := by
  rw [← isNameChar_iff, Bool.not_eq_true]

theorem IsNameChar.toNat_bounds (h : IsNameChar c) : 48 ≤ c.toNat ∧ c.toNat ≤ 122 := by
  rcases h with ⟨hl, hu⟩ | ⟨hl, hu⟩ | ⟨hl, hu⟩ | rfl
  · exact ⟨Nat.le_trans (by decide) hl, Nat.le_trans hu (by decide)⟩
  · exact ⟨Nat.le_trans (by decide) hl, hu⟩
  · exact ⟨hl, Nat.le_trans hu (by decide)⟩
  · decide

theorem IsNameChar.isBlank_eq_false (h : IsNameChar c) : Text.isBlank c = false := by
  have hc := h.toNat_bounds
  rw [Bool.eq_false_iff]
  intro hb
  simp only [Text.isBlank, Bool.or_eq_true, Bool.and_eq_true, decide_eq_true_eq, beq_iff_eq] at hb
  omega

/-- A name is as long as it can be. -/
theorem Token.longest_atom (hc : isNameChar c) (cs : List Char) :
    let t : Token := .atom (String.ofList (c :: cs.takeWhile isNameChar))
    t.Proper ∧ t.EndsAt (cs.dropWhile isNameChar) ∧
      c :: cs = t.text ++ cs.dropWhile isNameChar := by
  intro t
  have htext : t.text = c :: cs.takeWhile isNameChar := String.toList_ofList
  have hne : t.text ≠ [] := by
    rw [htext]
    exact List.cons_ne_nil _ _
  have hname : ∀ d ∈ t.text, IsNameChar d := by
    rw [htext, List.forall_mem_cons]
    exact ⟨isNameChar_iff.mp hc, fun d hd => isNameChar_iff.mp (List.mem_takeWhile_imp hd)⟩
  refine ⟨⟨hne, hname⟩, fun d hd => ?_, ?_⟩
  · have hend := List.head?_dropWhile_not isNameChar cs
    rw [hd] at hend
    exact isNameChar_eq_false_iff.mp hend
  · rw [htext, List.cons_append, List.takeWhile_append_dropWhile]

/-! ### Reading from a state -/

namespace State

/-- The formula that a state makes of a text. -/
def reads (s : State) (cs : List Char) : Option Formula := (cs.foldlM step s).bind finish?

theorem reads_cons (s : State) (c : Char) (cs : List Char) :
    s.reads (c :: cs) = (s.step c).bind fun s' => s'.reads cs := by
  unfold reads
  rw [List.foldlM_cons, Option.bind_eq_bind, Option.bind_assoc]

theorem readFrom_eq_ok_iff {p : Nat} : readFrom s p cs = .ok f ↔ s.reads cs = some f := by
  induction cs generalizing s p with
  | nil =>
    unfold readFrom reads
    rw [List.foldlM_nil]
    show _ ↔ s.finish? = some f
    cases s.finish? with
    | none => exact ⟨nofun, nofun⟩
    | some g => exact ⟨fun h => congrArg some (Except.ok.inj h), fun h => by cases h; rfl⟩
  | cons c cs ih =>
    rw [reads_cons, readFrom]
    cases s.step c with
    | none => exact ⟨nofun, nofun⟩
    | some s' => exact ih

/-- In front of an operand or behind one, not within a token. -/
def Settled : State → Prop
  | operand _ => True
  | after _ _ => True
  | _ => False

theorem settled_negated (stack : List Frame) (f : Formula) : (negated stack f).Settled := by
  induction stack generalizing f with
  | nil => trivial
  | cons frame stack ih =>
    cases frame with
    | neg => exact ih _
    | left op lhs => trivial
    | bracket => trivial

theorem settled_shift (h : s.shift t = some s') : s'.Settled := by
  cases s with
  | operand stack =>
    cases t with
    | atom _ | verum | falsum =>
      cases h
      exact settled_negated _ _
    | neg | opening =>
      cases h
      trivial
    | op _ | closing => cases h
  | after stack f =>
    cases t with
    | op _ =>
      cases h
      trivial
    | closing =>
      simp only [shift] at h
      split at h
      · cases h
        exact settled_negated _ _
      · cases h
    | _ => cases h
  | name _ _ => cases h
  | symbol _ _ _ _ _ => cases h

theorem settle_of_settled (h : s.Settled) : s.settle = s := by
  cases s with
  | operand stack => rfl
  | after stack f => rfl
  | name _ _ => exact h.elim
  | symbol _ _ _ _ _ => exact h.elim

theorem step_of_settled (h : s.Settled) (c : Char) : s.step c = s.stepSettled c := by
  cases s with
  | operand stack => rfl
  | after stack f => rfl
  | name _ _ => exact h.elim
  | symbol _ _ _ _ _ => exact h.elim

/-- A blank in front of a token is passed over. -/
theorem reads_blank (hs : s.Settled) (hc : Text.isBlank c) : s.reads (c :: cs) = s.reads cs := by
  have hstep : s.step c = some s := by
    cases s with
    | operand stack => exact if_pos hc
    | after stack f => exact if_pos hc
    | name _ _ => exact hs.elim
    | symbol _ _ _ _ _ => exact hs.elim
  rw [reads_cons, hstep, Option.bind_some]

/-- Within an atom, what can continue it does. -/
theorem reads_name_append (hc : ∀ c ∈ bs, isNameChar c) (revName : List Char) :
    (name stack revName).reads (bs ++ cs) = (name stack (bs.reverse ++ revName)).reads cs := by
  induction bs generalizing revName with
  | nil => rfl
  | cons b bs ih =>
    rw [List.forall_mem_cons] at hc
    have hstep : (name stack revName).step b = some (name stack (b :: revName)) := if_pos hc.1
    rw [List.cons_append, reads_cons, hstep, Option.bind_some, ih hc.2, List.reverse_cons,
      List.append_assoc]
    rfl

/-- An atom ends where nothing continues it. -/
theorem reads_settle {revName : List Char} (hc : ∀ c ∈ cs.head?, isNameChar c = false) :
    (name stack revName).reads cs = (settle (name stack revName)).reads cs := by
  have hs : (settle (name stack revName)).Settled := settled_negated stack _
  cases cs with
  | nil =>
    show finish? _ = finish? _
    unfold finish?
    rw [settle_of_settled hs]
  | cons c cs =>
    have hn : ¬isNameChar c = true := by
      rw [hc c rfl]
      decide
    have hstep : (name stack revName).step c = (settle (name stack revName)).step c := by
      rw [step_of_settled hs]
      exact if_neg hn
    rw [reads_cons, reads_cons, hstep]

/-- No atom stands behind an operand. -/
theorem step_after_of_isNameChar (hc : IsNameChar c) (stack : List Frame) (f : Formula) :
    (after stack f).step c = none := by
  have hs : (after stack f).Settled := trivial
  have hb : ¬Text.isBlank c = true := by
    rw [hc.isBlank_eq_false]
    decide
  rw [step_of_settled hs]
  unfold stepSettled
  dsimp only
  rw [if_neg hb]
  split
  · exact absurd hc (by decide)
  · exact absurd hc (by decide)
  · exact absurd hc (by decide)
  · exact absurd hc (by decide)
  · exact absurd hc (by decide)
  · rfl

/-- An atom stands in front of an operand's place. -/
theorem reads_atom {a : String} (ha : IsName a) (hc : ∀ c ∈ cs.head?, ¬IsNameChar c)
    (hs : s.Settled) : s.reads (a.toList ++ cs) =
      (s.shift (.atom a)).bind fun s' => s'.reads cs := by
  obtain ⟨hne, hall⟩ := ha
  obtain ⟨b, bs, hab⟩ := List.exists_cons_of_ne_nil hne
  rw [hab, List.forall_mem_cons] at hall
  obtain ⟨hb, hbs⟩ := hall
  cases s with
  | operand stack =>
    have hstep : (operand stack).step b = some (name stack [b]) := by
      rw [step_of_settled hs]
      unfold stepSettled
      simp only [hb.isBlank_eq_false, isNameChar_iff.mpr hb, Bool.false_eq_true, if_false, if_true]
    have hname : String.ofList (bs.reverse ++ [b]).reverse = a := by
      rw [List.reverse_append, List.reverse_reverse, ← String.ofList_toList (s := a), hab]
      rfl
    rw [hab, List.cons_append, reads_cons, hstep, Option.bind_some,
      reads_name_append fun c hc => isNameChar_iff.mpr (hbs c hc),
      reads_settle fun c h => isNameChar_eq_false_iff.mpr (hc c h)]
    show (negated stack (atom (String.ofList (bs.reverse ++ [b]).reverse))).reads cs = _
    rw [hname]
    rfl
  | after stack f =>
    rw [hab, List.cons_append, reads_cons, step_after_of_isNameChar hb]
    rfl
  | name _ _ => exact hs.elim
  | symbol _ _ _ _ _ => exact hs.elim

/-- **On the text of a token** the machine does what it does on the token. -/
theorem reads_token (hs : s.Settled) (hp : t.Proper) (he : t.EndsAt cs) :
    s.reads (t.text ++ cs) = (s.shift t).bind fun s' => s'.reads cs := by
  cases t with
  | atom a => exact reads_atom hp he hs
  | op o =>
    cases s with
    | operand stack =>
      cases o <;> rfl
    | after stack f =>
      cases o <;> rfl
    | name _ _ => exact hs.elim
    | symbol _ _ _ _ _ => exact hs.elim
  | closing =>
    cases s with
    | operand stack => rfl
    | after stack f =>
      show (after stack f).reads (')' :: cs) = _
      rw [reads_cons]
      rfl
    | name _ _ => exact hs.elim
    | symbol _ _ _ _ _ => exact hs.elim
  | _ =>
    cases s with
    | operand stack => rfl
    | after stack f => rfl
    | name _ _ => exact hs.elim
    | symbol _ _ _ _ _ => exact hs.elim

/-- Within a symbol only the rest of it is read. -/
theorem exists_of_reads_symbol {o : Connective} {g : Formula} {next : Char} {rest : List Char}
    (h : (symbol stack g o next rest).reads cs = some f) : ∃ cs', cs = next :: rest ++ cs' := by
  induction rest generalizing next cs with
  | nil =>
    cases cs with
    | nil => cases h
    | cons c cs =>
      by_cases hc : c = next
      · exact ⟨cs, by rw [hc]; rfl⟩
      · have hstep : (symbol stack g o next []).step c = none := if_neg hc
        rw [reads_cons, hstep] at h
        cases h
  | cons next' rest ih =>
    cases cs with
    | nil => cases h
    | cons c cs =>
      by_cases hc : c = next
      · have hstep : (symbol stack g o next (next' :: rest)).step c =
            some (symbol stack g o next' rest) := if_pos hc
        rw [reads_cons, hstep] at h
        obtain ⟨cs', rfl⟩ := ih h
        exact ⟨cs', by rw [hc]; rfl⟩
      · have hstep : (symbol stack g o next (next' :: rest)).step c = none := if_neg hc
        rw [reads_cons, hstep] at h
        cases h

/-- What is read, if it is not blank, starts with a token. -/
theorem exists_token (hs : s.Settled) (hb : ¬Text.isBlank c) (h : s.reads (c :: cs) = some f) :
    ∃ (t : Token) (cs' : List Char), t.Proper ∧ t.EndsAt cs' ∧ c :: cs = t.text ++ cs' := by
  rw [reads_cons, step_of_settled hs] at h
  obtain ⟨s', hstep, hr⟩ := Option.bind_eq_some_iff.mp h
  cases s with
  | operand stack =>
    by_cases hc : isNameChar c
    · exact ⟨_, _, Token.longest_atom hc cs⟩
    · unfold stepSettled at hstep
      dsimp only at hstep
      rw [if_neg hb, if_neg hc] at hstep
      split at hstep
      · exact ⟨.neg, cs, trivial, trivial, rfl⟩
      · exact ⟨.opening, cs, trivial, trivial, rfl⟩
      · exact ⟨.verum, cs, trivial, trivial, rfl⟩
      · exact ⟨.falsum, cs, trivial, trivial, rfl⟩
      · cases hstep
  | after stack g =>
    unfold stepSettled at hstep
    dsimp only at hstep
    rw [if_neg hb] at hstep
    split at hstep
    · cases hstep
      obtain ⟨cs', rfl⟩ := exists_of_reads_symbol hr
      exact ⟨.op .and, cs', trivial, trivial, rfl⟩
    · cases hstep
      obtain ⟨cs', rfl⟩ := exists_of_reads_symbol hr
      exact ⟨.op .or, cs', trivial, trivial, rfl⟩
    · cases hstep
      obtain ⟨cs', rfl⟩ := exists_of_reads_symbol hr
      exact ⟨.op .implies, cs', trivial, trivial, rfl⟩
    · cases hstep
      obtain ⟨cs', rfl⟩ := exists_of_reads_symbol hr
      exact ⟨.op .iff, cs', trivial, trivial, rfl⟩
    · exact ⟨.closing, cs, trivial, trivial, rfl⟩
    · cases hstep
  | name _ _ => exact hs.elim
  | symbol _ _ _ _ _ => exact hs.elim

end State

theorem Token.Proper.text_ne_nil (h : t.Proper) : t.text ≠ [] := by
  cases t with
  | atom name => exact h.1
  | op op => cases op <;> decide
  | _ => decide

/-- **A text that is read splits into tokens.** -/
theorem State.exists_splits {s : State} {cs : List Char} (hs : s.Settled)
    (h : s.reads cs = some f) : ∃ ts, Splits cs ts := by
  match cs with
  | [] => exact ⟨[], .nil⟩
  | c :: cs =>
    by_cases hb : Text.isBlank c
    · rw [reads_blank hs hb] at h
      obtain ⟨ts, ht⟩ := exists_splits hs h
      exact ⟨ts, ht.blank hb⟩
    · obtain ⟨t, cs', hp, he, heq⟩ := exists_token hs hb h
      rw [heq, reads_token hs hp he] at h
      obtain ⟨s', hshift, hr⟩ := Option.bind_eq_some_iff.mp h
      have hlen : cs'.length < (c :: cs).length := by
        rw [heq, List.length_append]
        exact Nat.lt_add_of_pos_left (List.length_pos_iff.mpr hp.text_ne_nil)
      obtain ⟨ts, ht⟩ := exists_splits (settled_shift hshift) hr
      rw [heq]
      exact ⟨t :: ts, ht.token hp he⟩
termination_by cs.length
decreasing_by
  · exact Nat.lt_succ_self _
  · exact hlen

/-- **The result on a text** is that on its tokens. -/
theorem Splits.reads_eq (h : Splits cs ts) (hs : s.Settled) : s.reads cs = s.accepts ts := by
  induction h generalizing s with
  | nil => rfl
  | blank hb _ ih => rw [State.reads_blank hs hb, ih hs]
  | @token t cs ts hp he _ ih =>
    rw [State.reads_token hs hp he, State.accepts, List.foldlM_cons, Option.bind_eq_bind,
      Option.bind_assoc]
    exact Option.bind_congr fun s' hshift => ih (State.settled_shift hshift)

/-- **The reader accepts just the texts of formulas.** -/
theorem read_eq_ok_iff : read cs = .ok f ↔ Written cs f := by
  have hs : (State.operand []).Settled := trivial
  rw [read, State.readFrom_eq_ok_iff]
  constructor
  · intro h
    obtain ⟨ts, ht⟩ := State.exists_splits hs h
    rw [ht.reads_eq hs] at h
    exact ⟨ts, ht, accepts_iff_derives.mp h⟩
  · intro h
    obtain ⟨ts, ht, hd⟩ := h
    rw [ht.reads_eq hs]
    exact accepts_iff_derives.mpr hd

/-! ### Blanks in front and at the end -/

theorem Splits.blanks (h : Splits cs ts) (hb : ∀ c ∈ bs, Text.isBlank c) :
    Splits (bs ++ cs) ts := by
  induction bs with
  | nil => exact h
  | cons b bs ih =>
    rw [List.forall_mem_cons] at hb
    exact .blank hb.1 (ih hb.2)

theorem Token.Proper.isBlank_eq_false (h : t.Proper) (hc : c ∈ t.text) : Text.isBlank c = false := by
  have hall : (t.text.all fun c => !Text.isBlank c) = true := by
    cases t with
    | atom name =>
      refine List.all_eq_true.mpr fun c hc => ?_
      rw [(h.2 c hc).isBlank_eq_false, Bool.not_false]
    | op op => cases op <;> decide
    | _ => decide
  have hno := List.all_eq_true.mp hall c hc
  rwa [Bool.not_eq_true'] at hno

theorem Splits.eq_nil (h : Splits bs ts) (hb : ∀ c ∈ bs, Text.isBlank c) : ts = [] := by
  induction h with
  | nil => rfl
  | blank _ _ ih => exact ih (List.forall_mem_cons.mp hb).2
  | @token t cs ts hp _ _ _ =>
    obtain ⟨c, hc⟩ := List.exists_mem_of_ne_nil _ hp.text_ne_nil
    have hblank := hb c (List.mem_append_left cs hc)
    rw [hp.isBlank_eq_false hc] at hblank
    cases hblank

theorem Token.endsAt_append_blanks (hb : ∀ c ∈ bs, Text.isBlank c) :
    t.EndsAt (cs ++ bs) ↔ t.EndsAt cs := by
  cases t with
  | atom name =>
    cases cs with
    | nil =>
      refine iff_of_true (fun c hc => ?_) nofun
      intro hn
      have hblank := hb c (List.mem_of_mem_head? hc)
      rw [hn.isBlank_eq_false] at hblank
      cases hblank
    | cons c cs => rfl
  | _ => rfl

/-- Blanks behind the last token do not matter. -/
theorem splits_append_blanks (hb : ∀ c ∈ bs, Text.isBlank c) :
    Splits (cs ++ bs) ts ↔ Splits cs ts := by
  constructor
  · intro h
    generalize heq : cs ++ bs = as at h
    induction h generalizing cs with
    | nil =>
      obtain ⟨rfl, -⟩ := List.append_eq_nil_iff.mp heq
      exact .nil
    | @blank a as ts ha h ih =>
      cases cs with
      | nil =>
        have hbs : bs = a :: as := heq
        rw [hbs, List.forall_mem_cons] at hb
        rw [h.eq_nil hb.2]
        exact .nil
      | cons c cs =>
        obtain ⟨hc, htail⟩ := List.cons.inj heq
        rw [hc]
        exact .blank ha (ih htail)
    | @token t as ts hp he h ih =>
      rcases List.append_eq_append_iff.mp heq with ⟨ds, htext, hbs⟩ | ⟨ds, hcs, has⟩
      · -- the blanks start within the token, so just behind it
        cases ds with
        | nil =>
          have has : bs = as := hbs
          rw [← has] at h he
          rw [h.eq_nil hb, ← List.append_nil cs, ← htext, ← List.append_nil t.text]
          exact .token hp ((Token.endsAt_append_blanks hb).mp he) .nil
        | cons d ds =>
          have hd := hb d (hbs ▸ List.mem_cons_self)
          rw [hp.isBlank_eq_false (htext ▸ List.mem_append_right cs List.mem_cons_self)] at hd
          cases hd
      · rw [has, Token.endsAt_append_blanks hb] at he
        rw [hcs]
        exact .token hp he (ih has.symm)
  · intro h
    induction h with
    | nil => simpa using Splits.nil.blanks hb
    | blank ha _ ih => exact .blank ha ih
    | @token t as ts hp he _ ih =>
      rw [List.append_assoc]
      exact .token hp ((Token.endsAt_append_blanks hb).mpr he) ih

end Formula

namespace KnowledgeBase

variable {cs body : List Char} {f : Formula}

/-! ### One line -/

theorem segments_of_not_mem (hn : '\n' ∉ cs) (hne : cs ≠ []) : Text.segments cs = [cs] := by
  induction cs with
  | nil => exact absurd rfl hne
  | cons c cs ih =>
    rw [List.mem_cons, not_or] at hn
    have hc : ¬c = '\n' := fun h => hn.1 h.symm
    cases cs with
    | nil =>
      show Text.addToSegments c [] = [[c]]
      rw [Text.addToSegments, if_neg hc]
    | cons d ds =>
      have hrest := ih hn.2 (List.cons_ne_nil d ds)
      show Text.addToSegments c (Text.segments (d :: ds)) = _
      rw [hrest, Text.addToSegments, if_neg hc]

/-- What is dropped from the end of a line is blank. -/
theorem exists_lineBody (cs : List Char) :
    ∃ bs, cs = lineBody cs ++ bs ∧ ∀ c ∈ bs, Text.isBlank c := by
  refine ⟨(cs.reverse.takeWhile fun c => c == '\n' || c == '\r').reverse, ?_, fun c hc => ?_⟩
  · rw [lineBody, Text.trimEnd, ← List.reverse_append, List.takeWhile_append_dropWhile,
      List.reverse_reverse]
  · have hp := List.mem_takeWhile_imp (List.mem_reverse.mp hc)
    rw [Bool.or_eq_true, beq_iff_eq, beq_iff_eq] at hp
    rcases hp with rfl | rfl <;> decide

theorem read_lineBody_eq_ok_iff :
    Formula.read (lineBody cs) = .ok f ↔ Formula.Written cs f := by
  obtain ⟨bs, hcs, hb⟩ := exists_lineBody cs
  have hsplits : ∀ ts, Formula.Splits (lineBody cs) ts ↔ Formula.Splits cs ts := fun ts => by
    have h := (@Formula.splits_append_blanks (lineBody cs) bs ts hb).symm
    rw [← hcs] at h
    exact h
  rw [Formula.read_eq_ok_iff]
  exact exists_congr fun ts => and_congr_left' (hsplits ts)

theorem not_all_isBlank_lineBody (hblank : ∃ c ∈ cs, ¬Text.isBlank c) :
    ¬(lineBody cs).all Text.isBlank := by
  intro hall
  obtain ⟨c, hc, hcb⟩ := hblank
  obtain ⟨bs, hcs, hb⟩ := exists_lineBody cs
  rw [hcs] at hc
  rcases List.mem_append.mp hc with hc | hc
  · exact hcb (List.all_eq_true.mp hall c hc)
  · exact hcb (hb c hc)

/-- A line that is not blank is read as the formula it is written as. -/
theorem readLine_lineBody_eq_ok_iff (hblank : ∃ c ∈ cs, ¬Text.isBlank c) {r : Option Formula} :
    readLine (lineBody cs) = .ok r ↔ ∃ f, r = some f ∧ Formula.Written cs f := by
  have hread := fun f => @read_lineBody_eq_ok_iff cs f
  rw [readLine, if_neg (not_all_isBlank_lineBody hblank)]
  revert hread
  rcases Formula.read (lineBody cs) with e | g
  · intro hread
    refine iff_of_false nofun fun h => ?_
    obtain ⟨f, -, hf⟩ := h
    cases (hread f).mpr hf
  · intro hread
    constructor
    · intro h
      exact ⟨g, (Except.ok.inj h).symm, (hread g).mp rfl⟩
    · intro h
      obtain ⟨f, rfl, hf⟩ := h
      rw [Except.ok.inj ((hread f).mpr hf)]
      rfl

/-- A text of one line that is not blank is read as one formula. -/
theorem read_eq_ok_iff {text : String} (hline : '\n' ∉ text.toList)
    (hblank : ∃ c ∈ text.toList, ¬Text.isBlank c) {kb : KnowledgeBase} :
    KnowledgeBase.read text = .ok kb ↔ ∃ f, kb = ⟨[f]⟩ ∧ Formula.Written text.toList f := by
  have hline' := fun r => @readLine_lineBody_eq_ok_iff text.toList hblank r
  obtain ⟨c, hc, -⟩ := hblank
  rw [KnowledgeBase.read, segments_of_not_mem hline (List.ne_nil_of_mem hc), readLines]
  revert hline'
  rcases readLine (lineBody text.toList) with e | r
  · intro hline'
    refine iff_of_false nofun fun h => ?_
    obtain ⟨f, -, hf⟩ := h
    cases (hline' (some f)).mpr ⟨f, rfl, hf⟩
  · intro hline'
    obtain ⟨g, rfl, hg⟩ := (hline' r).mp rfl
    constructor
    · exact fun h => ⟨g, (Except.ok.inj h).symm, hg⟩
    · intro h
      obtain ⟨f, rfl, hf⟩ := h
      rw [Option.some_inj.mp (Except.ok.inj ((hline' (some f)).mpr ⟨f, rfl, hf⟩))]
      rfl

theorem read_eq_ok_singleton_iff {text : String} (hline : '\n' ∉ text.toList)
    (hblank : ∃ c ∈ text.toList, ¬Text.isBlank c) :
    KnowledgeBase.read text = .ok ⟨[f]⟩ ↔ Formula.Written text.toList f := by
  rw [read_eq_ok_iff hline hblank]
  constructor
  · intro h
    obtain ⟨g, hg, hw⟩ := h
    obtain rfl : f = g := by simpa using hg
    exact hw
  · exact fun hw => ⟨f, rfl, hw⟩

/-- **A line is read as a formula just when it is written as the formula,** and what is
read is written as one formula only. -/
theorem read_line_iff_written {text : String} (hline : '\n' ∉ text.toList)
    (hblank : ∃ c ∈ text.toList, ¬Text.isBlank c) :
    (∀ f, KnowledgeBase.read text = .ok ⟨[f]⟩ ↔ Formula.Written text.toList f) ∧
    ∀ kb, KnowledgeBase.read text = .ok kb → ∃! f, Formula.Written text.toList f := by
  have hread : ∀ f, KnowledgeBase.read text = .ok ⟨[f]⟩ ↔ Formula.Written text.toList f :=
    fun f => read_eq_ok_singleton_iff hline hblank
  refine ⟨hread, fun kb hkb => ?_⟩
  obtain ⟨f, rfl, hf⟩ := (read_eq_ok_iff hline hblank).mp hkb
  refine ⟨f, hf, fun g hg => ?_⟩
  have hfg := (Except.ok.inj (hkb.symm.trans ((hread g).mpr hg)))
  simpa using hfg.symm

theorem read_line_iff_written_chain :
    let text := " !A && B||C=>D =>\t(E<=>+)<=>7 \r"
    let f : Formula := .iff (.implies (.or (.and (.not (.atom "A")) (.atom "B")) (.atom "C"))
      (.implies (.atom "D") (.iff (.atom "E") .verum))) (.atom "7")
    '\n' ∉ text.toList ∧ (∃ c ∈ text.toList, ¬Text.isBlank c) ∧
      KnowledgeBase.read text = .ok ⟨[f]⟩ ∧ Formula.Written text.toList f ∧
        ∃! g, Formula.Written text.toList g := by
  intro text f
  have hline : '\n' ∉ text.toList := by decide
  have hblank : ∃ c ∈ text.toList, ¬Text.isBlank c := ⟨'A', by decide⟩
  have hread : KnowledgeBase.read text = .ok ⟨[f]⟩ := by decide
  obtain ⟨hiff, hone⟩ := read_line_iff_written hline hblank
  exact ⟨hline, hblank, hread, (hiff f).mp hread, hone _ hread⟩

end KnowledgeBase
end LeastGlut
