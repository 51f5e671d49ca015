/-
# A program is told by its text

Texts are self-delimiting when a longer text can start with one of them only, and this one
can be cut off in one way. Digits are, in front of what is no digit; a string term is,
because the quote that ends it is the first without a backslash, whatever the name holds.
Items that are self-delimiting stay so in a row, between separators and in front of a stop
(`SelfDelimiting.intercalate`): the characters of a string term, the arguments of a fact and
the facts of a program are such rows. So no name can imitate the end of its fact, and the
text of a program determines its facts (`Program.text_eq_iff`).

Key definitions: `SelfDelimiting`, `Fact.Argument`, `Fact.terms`.
-/
import LeastGlut.Program
import LeastGlut.Proofs.OneLine
import Mathlib.Data.List.Basic

namespace LeastGlut

open Text

/-- In front of what may follow, each text can be cut off in one way and tells its item. -/
def SelfDelimiting {α : Type} (Follows : List Char → Prop) (form : α → List Char) : Prop :=
  ∀ a b r s, Follows r → Follows s → form a ++ r = form b ++ s → a = b ∧ r = s

variable {α : Type} {Follows : List Char → Prop} {form : α → List Char}
  {sep stop xs ys r s : List Char} {c : Char} {as bs : List α}

/-! ### Texts that are cut in one way -/

/-- The characters of a class, up to the first of another one, are cut off in one way. -/
theorem eq_of_append_eq_append {p : Char → Prop} (hx : ∀ c ∈ xs, p c) (hy : ∀ c ∈ ys, p c)
    (hr : ∀ c ∈ r.head?, ¬p c) (hs : ∀ c ∈ s.head?, ¬p c) (h : xs ++ r = ys ++ s) :
    xs = ys ∧ r = s := by
  induction xs generalizing ys with
  | nil =>
    cases ys with
    | nil => exact ⟨rfl, h⟩
    | cons y ys =>
      have hhead : r.head? = some y := congrArg List.head? h
      exact absurd (hy y List.mem_cons_self) (hr y hhead)
  | cons x xs ih =>
    cases ys with
    | nil =>
      have hhead : s.head? = some x := (congrArg List.head? h).symm
      exact absurd (hx x List.mem_cons_self) (hs x hhead)
    | cons y ys =>
      obtain ⟨hxy, htail⟩ := List.cons.inj h
      obtain ⟨hxs, hrest⟩ := ih (List.forall_mem_cons.mp hx).2 (List.forall_mem_cons.mp hy).2 htail
      exact ⟨by rw [hxy, hxs], hrest⟩

/-- Items, each behind a separator, are cut off in one way when the stop behind them starts
no separated item. -/
theorem SelfDelimiting.flatMap (h : SelfDelimiting Follows form)
    (hstop : ∀ r, Follows (stop ++ r)) (hsep : ∀ a r, Follows (sep ++ (form a ++ r)))
    (hnext : ∀ a r s, sep ++ (form a ++ r) ≠ stop ++ s)
    (heq : as.flatMap (fun a => sep ++ form a) ++ (stop ++ r) =
      bs.flatMap (fun b => sep ++ form b) ++ (stop ++ s)) : as = bs ∧ r = s := by
  have hfollows : ∀ (as : List α) r,
      Follows (as.flatMap (fun a => sep ++ form a) ++ (stop ++ r)) := by
    intro as r
    cases as with
    | nil => exact hstop r
    | cons a as =>
      rw [List.flatMap_cons, List.append_assoc, List.append_assoc]
      exact hsep a _
  induction as generalizing bs with
  | nil =>
    cases bs with
    | nil => exact ⟨rfl, List.append_cancel_left heq⟩
    | cons b bs =>
      rw [List.flatMap_cons, List.append_assoc, List.append_assoc] at heq
      exact absurd heq.symm (hnext b _ _)
  | cons a as ih =>
    cases bs with
    | nil =>
      rw [List.flatMap_cons, List.append_assoc, List.append_assoc] at heq
      exact absurd heq (hnext a _ _)
    | cons b bs =>
      simp only [List.flatMap_cons, List.append_assoc] at heq
      obtain ⟨hab, hrest⟩ := h a b _ _ (hfollows as r) (hfollows bs s) (List.append_cancel_left heq)
      obtain ⟨has, hrs⟩ := ih hrest
      exact ⟨by rw [hab, has], hrs⟩

/-- With a separator in front as well, each of a row's parts is behind one. -/
theorem append_intercalate_cons (sep x : List Char) (xs : List (List Char)) :
    sep ++ sep.intercalate (x :: xs) = (x :: xs).flatMap (sep ++ ·) := by
  induction xs generalizing x with
  | nil => simp
  | cons y xs ih =>
    rw [List.intercalate_cons_cons, List.flatMap_cons, ← ih y, List.append_assoc, List.append_assoc]

/-- **A row of items** is cut off in one way, when the stop behind it starts no item, with a
separator or without. -/
theorem SelfDelimiting.intercalate (h : SelfDelimiting Follows form)
    (hstop : ∀ r, Follows (stop ++ r)) (hsep : ∀ a r, Follows (sep ++ (form a ++ r)))
    (hfirst : ∀ a r s, form a ++ r ≠ stop ++ s)
    (hnext : ∀ a r s, sep ++ (form a ++ r) ≠ stop ++ s) :
    SelfDelimiting (fun _ => True) fun as : List α => sep.intercalate (as.map form) ++ stop := by
  have hrow : ∀ (a : α) (as : List α) (r : List Char),
      sep ++ (sep.intercalate ((a :: as).map form) ++ stop ++ r) =
        (a :: as).flatMap (fun a => sep ++ form a) ++ (stop ++ r) := by
    intro a as r
    rw [List.append_assoc, ← List.append_assoc, List.map_cons, append_intercalate_cons,
      ← List.map_cons, List.flatMap_map]
  have hne : ∀ (a : α) (as : List α) (r s : List Char),
      sep.intercalate ((a :: as).map form) ++ stop ++ r ≠ stop ++ s := by
    intro a as r s
    cases as with
    | nil =>
      rw [List.map_cons, List.map_nil, List.intercalate_singleton, List.append_assoc]
      exact hfirst a _ _
    | cons b as =>
      rw [List.map_cons, List.map_cons, List.intercalate_cons_cons]
      simp only [List.append_assoc]
      exact hfirst a _ _
  intro as bs r s _ _ heq
  cases as with
  | nil =>
    cases bs with
    | nil => exact ⟨rfl, List.append_cancel_left heq⟩
    | cons b bs => exact absurd heq.symm (hne b bs s r)
  | cons a as =>
    cases bs with
    | nil => exact absurd heq (hne a as r s)
    | cons b bs =>
      have hrows := congrArg (sep ++ ·) heq
      simp only [hrow] at hrows
      exact h.flatMap hstop hsep hnext hrows

/-! ### Numbers, nodes and names -/

/-- What stands behind a number does not continue it. -/
def NoDigit (r : List Char) : Prop := ∀ c ∈ r.head?, ¬c.isDigit

theorem noDigit_cons (hc : ¬c.isDigit) (r : List Char) : NoDigit (c :: r) := by
  intro d hd
  rw [← Option.some_inj.mp hd]
  exact hc

theorem selfDelimiting_toString : SelfDelimiting NoDigit fun n : Nat => (toString n).toList := by
  intro m n r s hr hs h
  obtain ⟨hdigits, hrest⟩ := eq_of_append_eq_append (p := fun c => c.isDigit)
    (isDigit_of_mem_toString m) (isDigit_of_mem_toString n) hr hs h
  rw [toList_toString, toList_toString] at hdigits
  refine ⟨?_, hrest⟩
  calc m = Nat.ofDigitChars 10 (Nat.toDigits 10 m) 0 := Nat.ofDigitChars_ten_toDigits.symm
    _ = Nat.ofDigitChars 10 (Nat.toDigits 10 n) 0 := by rw [hdigits]
    _ = n := Nat.ofDigitChars_ten_toDigits

theorem toString_ne_nil (n : Nat) : (toString n).toList ≠ [] :=
  toList_toString n ▸ Nat.toDigits_ne_nil

theorem toList_nodeText (n : Node) : n.text.toList = 'n' :: '(' :: ((toString n.formula).toList ++
    ',' :: ((toString n.index).toList ++ [')'])) := by
  simp [Node.text]

theorem selfDelimiting_nodeText : SelfDelimiting (fun _ => True) fun n : Node => n.text.toList := by
  intro m n r s _ _ h
  simp only [toList_nodeText, List.cons_append, List.append_assoc, List.cons.injEq, true_and] at h
  have hcomma := noDigit_cons (c := ',') (by decide)
  have hclose := noDigit_cons (c := ')') (by decide)
  obtain ⟨hformula, h⟩ := selfDelimiting_toString _ _ _ _ (hcomma _) (hcomma _) h
  obtain ⟨hindex, h⟩ := selfDelimiting_toString _ _ _ _ (hclose _) (hclose _) (List.cons.inj h).2
  exact ⟨congrArg₂ Node.mk hformula hindex, (List.cons.inj h).2⟩

/-- A character that needs a backslash is told by what stands behind it, and no other one is
a backslash. -/
theorem selfDelimiting_quoteChar : SelfDelimiting (fun _ => True) quoteChar := by
  intro c d r s _ _ h
  unfold quoteChar at h
  split at h
  next hc =>
    split at h
    next hd => simpa using h
    next hd =>
      obtain ⟨rfl, -⟩ := List.cons.inj h
      exact absurd rfl hd
  next hc =>
    split at h
    next hd =>
      obtain ⟨rfl, -⟩ := List.cons.inj h
      exact absurd rfl hc
    next hd => exact List.cons.inj h

/-- **A name is cut off from its string term** at the first quote without a backslash. -/
theorem selfDelimiting_quoteTerm :
    SelfDelimiting (fun _ => True) fun a : String => (quoteTerm a).toList := by
  intro a b r s _ _ h
  have hquote : ∀ c r s, [] ++ (quoteChar c ++ r) ≠ ['"'] ++ s := by
    intro c r s h
    unfold quoteChar at h
    split at h
    next hc => exact absurd (List.cons.inj h).1 (by decide)
    next hc =>
      obtain ⟨rfl, -⟩ := List.cons.inj h
      exact absurd rfl hc
  simp only [quoteTerm, String.toList_ofList, List.cons_append, List.append_assoc] at h
  obtain ⟨hname, hrest⟩ := selfDelimiting_quoteChar.flatMap (fun _ => trivial)
    (fun _ _ => trivial) hquote (List.cons.inj h).2
  exact ⟨String.toList_inj.mp hname, hrest⟩

/-! ### Facts -/

namespace Fact

/-- What a fact is about. -/
inductive Argument
  | number (n : Nat)
  | node (n : Node)
  | name (a : String)

def Argument.text : Argument → String
  | number n => toString n
  | node n => n.text
  | name a => quoteTerm a

def terms : Fact → List Argument
  | kbFormula id root => [.number id, .node root]
  | isAtom n a => [.node n, .name a]
  | formula n | isTrue n | isFalse n | conjunction n | disjunction n => [.node n]
  | numConjuncts n count | numDisjuncts n count => [.node n, .number count]
  | negation a b | conjunctOf a b | disjunctOf a b => [.node a, .node b]

theorem arguments_eq (fact : Fact) : fact.arguments = fact.terms.map Argument.text := by
  cases fact <;> rfl

/-- A fact is its predicate and its arguments. -/
theorem eq_of_terms {a b : Fact} (hpredicate : a.predicate = b.predicate)
    (hterms : a.terms = b.terms) : a = b := by
  cases a <;> cases b <;> simp_all [predicate, terms]

/-- An argument of this kind starts with the character. -/
def Argument.Opens : Argument → Char → Prop
  | number _, c => c.isDigit
  | node _, c => c = 'n'
  | name _, c => c = '"'

theorem Argument.exists_opens (x : Argument) (r : List Char) :
    ∃ c cs, x.text.toList ++ r = c :: cs ∧ x.Opens c := by
  cases x with
  | number n =>
    obtain ⟨c, cs, hc⟩ := List.exists_cons_of_ne_nil (toString_ne_nil n)
    exact ⟨c, cs ++ r, by rw [text, hc]; rfl, isDigit_of_mem_toString n c (hc ▸ List.mem_cons_self)⟩
  | node n => exact ⟨'n', _, by rw [text, toList_nodeText]; rfl, rfl⟩
  | name a => exact ⟨'"', _, by rw [text, quoteTerm, String.toList_ofList]; rfl, rfl⟩

/-- **An argument is cut off in one way:** its first character tells its kind. -/
theorem selfDelimiting_argument : SelfDelimiting NoDigit fun x : Argument => x.text.toList := by
  intro x y r s hr hs h
  obtain ⟨c, cs, hx, hc⟩ := x.exists_opens r
  obtain ⟨d, ds, hy, hd⟩ := y.exists_opens s
  obtain rfl : c = d := (List.cons.inj (hx.symm.trans (h.trans hy))).1
  cases x <;> cases y
  case number.number m n =>
    obtain ⟨rfl, hrest⟩ := selfDelimiting_toString m n r s hr hs h
    exact ⟨rfl, hrest⟩
  case node.node m n =>
    obtain ⟨rfl, hrest⟩ := selfDelimiting_nodeText m n r s trivial trivial h
    exact ⟨rfl, hrest⟩
  case name.name a b =>
    obtain ⟨rfl, hrest⟩ := selfDelimiting_quoteTerm a b r s trivial trivial h
    exact ⟨rfl, hrest⟩
  all_goals simp_all [Argument.Opens]

/-- Arguments between commas, up to the bracket that closes them. -/
theorem selfDelimiting_terms : SelfDelimiting (fun _ => True) fun xs : List Argument =>
    [',', ' '].intercalate (xs.map fun x => x.text.toList) ++ [')', '.'] := by
  refine selfDelimiting_argument.intercalate (fun r => ?_) (fun x r => ?_) (fun x r s h => ?_)
    fun x r s h => ?_
  · exact noDigit_cons (by decide) _
  · exact noDigit_cons (by decide) _
  · obtain ⟨c, cs, hx, hc⟩ := x.exists_opens r
    obtain rfl : c = ')' := (List.cons.inj (hx.symm.trans h)).1
    cases x <;> simp [Argument.Opens] at hc
  · exact absurd (List.cons.inj h).1 (by decide)

theorem oneLine_predicate (fact : Fact) : OneLine fact.predicate := by
  cases fact <;> simp only [predicate] <;> decide

theorem toList_text (fact : Fact) : fact.text.toList = fact.predicate.toList ++ '(' ::
    ([',', ' '].intercalate (fact.terms.map fun x => x.text.toList) ++ [')', '.']) := by
  simp [text, arguments_eq, String.toList_intercalate, Function.comp_def]

/-- **A fact is cut off in one way,** whatever the names in it hold. -/
theorem selfDelimiting_text :
    SelfDelimiting (fun _ => True) fun fact : Fact => fact.text.toList := by
  intro a b r s _ _ h
  have hpredicate : ∀ (fact : Fact), ∀ c ∈ fact.predicate.toList, c ≠ '(' := by
    intro fact c hc heq
    rw [heq] at hc
    revert hc
    cases fact <;> simp only [predicate] <;> decide
  have hopen : ∀ cs, ∀ c ∈ ('(' :: cs).head?, ¬c ≠ '(' := by simp
  simp only [toList_text, List.append_assoc, List.cons_append] at h
  obtain ⟨hname, h⟩ := eq_of_append_eq_append (hpredicate a) (hpredicate b) (hopen _) (hopen _) h
  obtain ⟨hterms, hrest⟩ := selfDelimiting_terms a.terms b.terms r s trivial trivial
    (by simpa using h)
  exact ⟨eq_of_terms (String.toList_inj.mp hname) hterms, hrest⟩

theorem text_append_ne (fact : Fact) (r s : List Char) : fact.text.toList ++ r ≠ '\n' :: s := by
  have hne : fact.predicate.toList ≠ [] := by
    cases fact <;> simp only [predicate] <;> decide
  obtain ⟨c, cs, hpredicate⟩ := List.exists_cons_of_ne_nil hne
  intro h
  rw [toList_text, hpredicate] at h
  have hfeed : '\n' ∈ fact.predicate.toList := by
    rw [hpredicate, ← (List.cons.inj h).1]
    exact List.mem_cons_self
  exact fact.oneLine_predicate hfeed

end Fact

namespace Program

/-- Facts on lines of their own, up to the first blank line in front of a fact. -/
theorem selfDelimiting_facts : SelfDelimiting (fun _ => True) fun facts : List Fact =>
    ['\n'].intercalate (facts.map fun fact => fact.text.toList) ++ ['\n', '\n'] := by
  refine Fact.selfDelimiting_text.intercalate (fun _ => trivial) (fun _ _ => trivial)
    (fun fact r s h => ?_) fun fact r s h => ?_
  · exact fact.text_append_ne _ _ h
  · exact fact.text_append_ne _ _ (List.cons.inj h).2

theorem toList_text (p : Program) : p.text.toList =
    ['\n'].intercalate (p.facts.map fun fact => fact.text.toList) ++ ['\n', '\n'] ++
      genericRules.toList := by
  simp [text, String.toList_intercalate, Function.comp_def]

/-- **A program is told by its text:** programs of any facts, about any nodes, counts and
names, have one text just when they have the same facts in the same order. -/
theorem text_eq_iff {p q : Program} : p.text = q.text ↔ p.facts = q.facts := by
  constructor
  · intro h
    have hlists := congrArg String.toList h
    rw [toList_text, toList_text] at hlists
    exact (selfDelimiting_facts _ _ _ _ trivial trivial hlists).1
  · intro h
    rw [text, text, h]

end Program
end LeastGlut
