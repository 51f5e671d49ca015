/-
# A layout is the displayed text with line breaks

Whatever the width, a layout differs from the displayed text in what stands behind
connectives only: a blank, or a line break and the next line's indentation
(`Formula.exists_spread_layoutFrom`). Such a text splits into the tokens of the displayed one,
so it is read as the formula, and it becomes the displayed text where each line break and its
indentation is made one blank (`Formula.read_layout`). A formula that fits is laid out flat,
however deep the connectives at which a line could end (`Formula.layoutFrom_eq_flat`).

Key definitions: `Text.unbreak`.
-/
import LeastGlut.Formula.Layout
import LeastGlut.Proofs.Displays

namespace LeastGlut

namespace Text

/-- Makes each line break and the indentation behind it one blank, where `skipping` says
whether the text starts inside an indentation. -/
def unbreak (skipping : Bool) : List Char → List Char
  | [] => []
  | c :: cs =>
    if c = '\n' then ' ' :: unbreak true cs
    else if skipping && c = ' ' then unbreak true cs
    else c :: unbreak false cs

variable {c : Char} {cs : List Char} {skipping : Bool}

theorem unbreak_cons (hbreak : c ≠ '\n') (hblank : c ≠ ' ') (cs : List Char) :
    unbreak skipping (c :: cs) = c :: unbreak false cs := by
  rw [unbreak, if_neg hbreak, if_neg (by simp [hblank])]

theorem unbreak_append (hcs : '\n' ∉ cs) (ds : List Char) :
    unbreak false (cs ++ ds) = cs ++ unbreak false ds := by
  induction cs with
  | nil => rfl
  | cons c cs ih =>
    rw [List.mem_cons, not_or] at hcs
    have hc : c ≠ '\n' := fun h => hcs.1 h.symm
    rw [List.cons_append, unbreak, if_neg hc, Bool.false_and, if_neg Bool.false_ne_true, ih hcs.2,
      List.cons_append]

theorem unbreak_indent (indent : Nat) (cs : List Char) :
    unbreak true (List.replicate indent ' ' ++ cs) = unbreak true cs := by
  induction indent with
  | zero => rfl
  | succ indent ih => exact ih

end Text

namespace Formula

open Text

variable {f : Formula} {l : Laid} {cs ds gap : List Char} {skipping : Bool}
  {width indent behind : Nat}

/-! ### Line breaks undone -/

theorem unbreak_name {a : String} (ha : IsName a) (ds : List Char) :
    unbreak skipping (a.toList ++ ds) = a.toList ++ unbreak false ds := by
  obtain ⟨hne, hname⟩ := ha
  obtain ⟨c, cs, hcs⟩ := List.exists_cons_of_ne_nil hne
  rw [hcs, List.forall_mem_cons] at hname
  have hother : ∀ d, ¬IsNameChar d → c ≠ d := fun d hd h => hd (h ▸ hname.1)
  have htail : '\n' ∉ cs := fun hmem => absurd (hname.2 _ hmem) (by decide)
  rw [hcs, List.cons_append, unbreak_cons (hother _ (by decide)) (hother _ (by decide)),
    unbreak_append htail, List.cons_append]

theorem Gap.exists_unbreak (h : Gap gap) (cs : List Char) :
    ∃ skipping, unbreak false (gap ++ cs) = ' ' :: unbreak skipping cs := by
  cases h with
  | blank => exact ⟨false, rfl⟩
  | newline indent => exact ⟨true, congrArg (List.cons ' ') (unbreak_indent indent cs)⟩

/-- **Undoing the line breaks** gives the displayed text. -/
theorem Spread.unbreak_append (h : Spread f cs) (hf : ∀ a ∈ f.leaves, IsName a)
    (ds : List Char) : unbreak skipping (cs ++ ds) = f.display.toList ++ unbreak false ds := by
  have hclosing : ∀ ds, unbreak false (')' :: ds) = ')' :: unbreak false ds :=
    unbreak_cons (by decide) (by decide)
  have hopening : ∀ skipping ds, unbreak skipping ('(' :: ds) = '(' :: unbreak false ds :=
    fun _ => unbreak_cons (by decide) (by decide)
  induction h generalizing skipping ds with
  | atom name => exact unbreak_name (hf name (List.mem_singleton.mpr rfl)) ds
  | verum => exact unbreak_cons (by decide) (by decide) ds
  | falsum => exact unbreak_cons (by decide) (by decide) ds
  | @not inner cs _ ih =>
    calc unbreak skipping ('!' :: '(' :: cs ++ [')'] ++ ds)
        = unbreak skipping ('!' :: '(' :: (cs ++ (')' :: ds))) := by simp
      _ = '!' :: '(' :: (inner.display.toList ++ ')' :: unbreak false ds) := by
          rw [unbreak_cons (by decide) (by decide), hopening, ih hf, hclosing]
      _ = (Formula.not inner).display.toList ++ unbreak false ds := by simp [display]
  | @binary op lhs rhs cs es gap _ hgap _ ihl ihr =>
    obtain ⟨hl, hr⟩ := List.forall_mem_append.mp hf
    have hop : '\n' ∉ ' ' :: op.symbol.toList := by cases op <;> decide
    obtain ⟨skipping', hgap⟩ := hgap.exists_unbreak (es ++ ')' :: ds)
    calc unbreak skipping ('(' :: cs ++ ' ' :: op.symbol.toList ++ gap ++ es ++ [')'] ++ ds)
        = unbreak skipping ('(' :: (cs ++ ((' ' :: op.symbol.toList) ++
            (gap ++ (es ++ (')' :: ds)))))) := by simp
      _ = '(' :: (lhs.display.toList ++ ((' ' :: op.symbol.toList) ++
            unbreak false (gap ++ (es ++ (')' :: ds))))) := by
          rw [hopening, ihl hl, Text.unbreak_append hop]
      _ = '(' :: (lhs.display.toList ++ ((' ' :: op.symbol.toList) ++
            (' ' :: (rhs.display.toList ++ (')' :: unbreak false ds))))) := by
          rw [hgap, ihr hr, hclosing]
      _ = (Formula.binary op lhs rhs).display.toList ++ unbreak false ds := by simp [display]

/-! ### The layout -/

namespace Laid

@[simp] theorem text_mark (l : Laid) (s : String) : (l.mark s).text = l.text ++ s := rfl

@[simp] theorem column_mark (l : Laid) (s : String) : (l.mark s).column = l.column + s.length := rfl

@[simp] theorem text_flat (l : Laid) (f : Formula) : (l.flat f).text = l.text ++ f.display := rfl

@[simp] theorem text_newline (l : Laid) (indent : Nat) :
    (l.newline indent).text = l.text ++ "\n" ++ String.ofList (List.replicate indent ' ') := rfl

end Laid

/-- **A layout is the displayed text** with some gap behind each connective. -/
theorem exists_spread_layoutFrom (width indent behind : Nat) (f : Formula) (l : Laid) :
    ∃ cs, Spread f cs ∧
      (layoutFrom width indent behind f l).text.toList = l.text.toList ++ cs := by
  have hflat : ∀ (f : Formula) (l : Laid), ∃ cs, Spread f cs ∧
      (l.flat f).text.toList = l.text.toList ++ cs := fun f l =>
    ⟨f.display.toList, spread_display f, String.toList_append⟩
  induction f generalizing indent behind l with
  | atom name => exact hflat _ l
  | verum => exact hflat _ l
  | falsum => exact hflat _ l
  | not inner ih =>
    obtain ⟨cs, hspread, htext⟩ := ih indent (behind + 1) (l.mark "!(")
    refine ⟨_, .not hspread, ?_⟩
    rw [layoutFrom, Laid.text_mark, String.toList_append, htext]
    simp
  | binary op lhs rhs ihl ihr =>
    by_cases hfits : l.column + (binary op lhs rhs).columns + behind ≤ width
    · rw [layoutFrom, if_pos hfits]
      exact hflat _ l
    · rw [layoutFrom, if_neg hfits]
      obtain ⟨cs, hlhs, hleft⟩ := ihl indent (1 + op.symbol.length) (l.mark "(")
      generalize layoutFrom width indent (1 + op.symbol.length) lhs (l.mark "(") = left at hleft ⊢
      obtain ⟨ds, hrhs, hright⟩ := ihr (indent + 1) (behind + 1)
        ((left.mark (" " ++ op.symbol)).newline (operandIndent indent rhs))
      refine ⟨_, .binary hlhs (.newline (operandIndent indent rhs)) hrhs, ?_⟩
      rw [Laid.text_mark, String.toList_append, hright]
      simp [hleft]

theorem columns_eq_length (hf : ∀ a ∈ f.leaves, IsName a) : f.columns = f.display.length := by
  induction f with
  | atom name =>
    have hname := (hf name (List.mem_singleton.mpr rfl)).2
    have hascii : (name.toList.all fun c => c.toNat < 0x80) = true :=
      List.all_eq_true.mpr fun c hc => decide_eq_true (by
        have hbounds := (hname c hc).toNat_bounds
        omega)
    rw [columns, Text.columns, if_pos hascii, display, String.length_toList]
  | verum => rfl
  | falsum => rfl
  | not inner ih =>
    have hbrackets : "!(".length = 2 ∧ ")".length = 1 := ⟨rfl, rfl⟩
    rw [columns, display, String.length_append, String.length_append, ih hf]
    omega
  | binary op lhs rhs ihl ihr =>
    obtain ⟨hl, hr⟩ := List.forall_mem_append.mp hf
    have hmarks : "(".length = 1 ∧ " ".length = 1 ∧ ")".length = 1 := ⟨rfl, rfl, rfl⟩
    simp only [columns, display, String.length_append, ihl hl, ihr hr]
    omega

/-- A formula that fits in the width is laid out flat. -/
theorem layoutFrom_eq_flat (h : l.column + f.columns + behind ≤ width) :
    layoutFrom width indent behind f l = l.flat f := by
  induction f generalizing behind l with
  | atom | verum | falsum => rfl
  | not inner ih =>
    rw [columns] at h
    have hinner : (l.mark "!(").column + inner.columns + (behind + 1) ≤ width := by
      have hmark : "!(".length = 2 := rfl
      rw [Laid.column_mark]
      omega
    have htext : l.text ++ "!(" ++ inner.display ++ ")" =
        l.text ++ ("!(" ++ inner.display ++ ")") := by simp only [String.append_assoc]
    have hcolumn : l.column + 2 + inner.columns + 1 = l.column + (inner.columns + 3) := by omega
    rw [layoutFrom, ih hinner]
    exact congrArg₂ Laid.mk htext hcolumn
  | binary op lhs rhs => exact if_pos h

/-- **A layout changes line breaks only.** Whatever the width, undoing the line breaks gives
the displayed text, and the layout is read as the formula; where the displayed text has at
most `width` characters, the layout is that text, on one line. -/
theorem read_layout (hf : ∀ a ∈ f.leaves, IsName a) (width : Nat) :
    unbreak false (f.layout width).toList = f.display.toList ∧
      read (f.layout width).toList = .ok f ∧
      (f.display.length ≤ width → f.layout width = f.display ∧ '\n' ∉ (f.layout width).toList) := by
  obtain ⟨cs, hspread, htext⟩ := exists_spread_layoutFrom width 0 0 f ⟨"", 0⟩
  have hlayout : (f.layout width).toList = cs := htext
  refine ⟨?_, ?_, fun hwidth => ?_⟩
  · calc unbreak false (f.layout width).toList = unbreak false (cs ++ []) := by
          rw [hlayout, List.append_nil]
      _ = f.display.toList ++ [] := hspread.unbreak_append hf []
      _ = f.display.toList := List.append_nil _
  · have hsplits : Splits (cs ++ []) (f.tokens ++ []) :=
      hspread.splits hf (fun c hc => by cases hc) .nil
    rw [List.append_nil, List.append_nil] at hsplits
    rw [hlayout]
    exact read_eq_ok_iff.mpr ⟨f.tokens, hsplits, (derives_tokens f).mono (by decide)⟩
  · have hfits : 0 + f.columns + 0 ≤ width := by
      rw [columns_eq_length hf]
      omega
    have hflat : f.layout width = f.display := by
      rw [layout, layoutFrom_eq_flat hfits]
      exact String.empty_append
    rw [hflat]
    exact ⟨rfl, not_mem_display hf⟩

theorem read_layout_broken :
    let f : Formula := .and (.not (.atom "A_0")) (.or .verum (.atom "7"))
    (∀ a ∈ f.leaves, IsName a) ∧ f.layout 12 = "(!(A_0) &&\n (+ || 7))" ∧
      read "(!(A_0) &&\n (+ || 7))".toList = .ok f := by
  intro f
  have hf : ∀ a ∈ f.leaves, IsName a := forall_isName (by decide)
  have hlayout : f.layout 12 = "(!(A_0) &&\n (+ || 7))" := by decide
  have hread := (read_layout hf 12).2.1
  rw [hlayout] at hread
  exact ⟨hf, hlayout, hread⟩

end Formula
end LeastGlut
