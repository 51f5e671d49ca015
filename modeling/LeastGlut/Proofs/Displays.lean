/-
# What is displayed reads back

The displayed text of a formula has every compound in brackets, so it splits
into tokens that derive the formula at every level (`Formula.derives_tokens`,
`Formula.Spread.splits`), provided its atoms are names, and so it does when
lines end behind connectives. A knowledge base is displayed one formula a
line, and each line is read as its formula (`KnowledgeBase.readLines_display`).

Key definitions: `Formula.tokens`, `Formula.Gap`, `Formula.Spread`.
-/
import LeastGlut.Proofs.Readers
import LeastGlut.Proofs.Valuations
import LeastGlut.Text.Utf8

namespace LeastGlut
namespace Formula

/-- The tokens of the displayed formula. -/
def tokens : Formula → List Token
  | atom name => [.atom name]
  | verum => [.verum]
  | falsum => [.falsum]
  | not inner => .neg :: (.opening :: inner.tokens ++ [.closing])
  | binary op lhs rhs => .opening :: (lhs.tokens ++ .op op :: rhs.tokens) ++ [.closing]

variable {f : Formula} {cs : List Char} {ts : List Token}

theorem derives_tokens (f : Formula) : Derives 5 f.tokens f := by
  induction f with
  | atom name => exact .atom name
  | verum => exact .verum
  | falsum => exact .falsum
  | not inner ih => exact .neg (.group (ih.mono (by decide)))
  | binary op lhs rhs ihl ihr =>
    have hchain : Derives op.tightness (lhs.tokens ++ .op op :: rhs.tokens) (.binary op lhs rhs) :=
      .chain (ihl.mono (by cases op <;> decide)) (ihr.mono (by cases op <;> decide))
    exact .group (hchain.mono op.tightness_pos)

/-- A character that continues no atom stands in front of every text. -/
theorem head_cons {d : Char} (hd : ¬IsNameChar d) (cs : List Char) :
    ∀ c ∈ (d :: cs).head?, ¬IsNameChar c := by
  intro c hc
  rw [← Option.some_inj.mp hc]
  exact hd

/-- What stands behind a connective: a blank, or a line break and the next line's indentation. -/
inductive Gap : List Char → Prop
  | blank : Gap [' ']
  | newline (indent : Nat) : Gap ('\n' :: List.replicate indent ' ')

/-- The text is the displayed formula, with any gap behind each of its connectives. -/
inductive Spread : Formula → List Char → Prop
  | atom (name : String) : Spread (.atom name) name.toList
  | verum : Spread .verum ['+']
  | falsum : Spread .falsum ['-']
  | not {inner : Formula} {cs : List Char} : Spread inner cs →
    Spread (.not inner) ('!' :: '(' :: cs ++ [')'])
  | binary {op : Connective} {lhs rhs : Formula} {cs ds gap : List Char} : Spread lhs cs →
    Gap gap → Spread rhs ds →
    Spread (.binary op lhs rhs) ('(' :: cs ++ ' ' :: op.symbol.toList ++ gap ++ ds ++ [')'])

theorem Gap.isBlank {gap : List Char} (h : Gap gap) : ∀ c ∈ gap, Text.isBlank c := by
  cases h with
  | blank => exact List.forall_mem_singleton.mpr rfl
  | newline indent =>
    refine List.forall_mem_cons.mpr ⟨rfl, fun c hc => ?_⟩
    rw [List.eq_of_mem_replicate hc]
    rfl

theorem spread_display (f : Formula) : Spread f f.display.toList := by
  induction f with
  | atom name => exact .atom name
  | verum => exact .verum
  | falsum => exact .falsum
  | not inner ih => simpa [display] using Spread.not ih
  | binary op lhs rhs ihl ihr =>
    simpa [display] using @Spread.binary op _ _ _ _ _ ihl .blank ihr

/-- **The displayed text splits into its tokens,** in front of what continues no atom,
whatever gaps stand behind its connectives. -/
theorem Spread.splits {ds : List Char} (hd : Spread f ds) (hf : ∀ a ∈ f.leaves, IsName a)
    (hc : ∀ c ∈ cs.head?, ¬IsNameChar c) (h : Splits cs ts) :
    Splits (ds ++ cs) (f.tokens ++ ts) := by
  have hblank : Text.isBlank ' ' := by decide
  have hclosing : ∀ {cs ts}, Splits cs ts → Splits (')' :: cs) (.closing :: ts) := fun h =>
    .token (t := .closing) trivial trivial h
  induction hd generalizing cs ts with
  | atom name => exact .token (t := .atom name) (hf name (List.mem_singleton.mpr rfl)) hc h
  | verum => exact .token (t := .verum) trivial trivial h
  | falsum => exact .token (t := .falsum) trivial trivial h
  | not _ ih =>
    have hinner := ih hf (head_cons (by decide) cs) (hclosing h)
    have hopening := Splits.token (t := .opening) trivial trivial hinner
    have hneg := Splits.token (t := .neg) trivial trivial hopening
    simp only [tokens, List.append_assoc, List.cons_append, List.nil_append] at hneg ⊢
    exact hneg
  | @binary op lhs rhs _ _ _ _ hgap _ ihl ihr =>
    obtain ⟨hl, hr⟩ := List.forall_mem_append.mp hf
    have hrhs := ihr hr (head_cons (by decide) cs) (hclosing h)
    have hop := Splits.token (t := .op op) trivial trivial (hrhs.blanks hgap.isBlank)
    have hlhs := ihl hl (head_cons (by decide) _) (hop.blank hblank)
    have hopening := Splits.token (t := .opening) trivial trivial hlhs
    simp only [tokens, Token.text_op, List.append_assoc, List.cons_append, List.nil_append]
      at hopening ⊢
    exact hopening

theorem splits_display (hf : ∀ a ∈ f.leaves, IsName a)
    (hc : ∀ c ∈ cs.head?, ¬IsNameChar c) (h : Splits cs ts) :
    Splits (f.display.toList ++ cs) (f.tokens ++ ts) := (spread_display f).splits hf hc h

/-- The line of a formula is written as the formula. -/
theorem written_display (hf : ∀ a ∈ f.leaves, IsName a) :
    Written (f.display.toList ++ ['\n']) f := by
  have hend : Splits ['\n'] [] := .blank (by decide) .nil
  have hsplits := splits_display hf (head_cons (by decide) []) hend
  rw [List.append_nil] at hsplits
  exact ⟨f.tokens, hsplits, (derives_tokens f).mono (by decide)⟩

theorem Derives.ne_nil {k : Nat} (h : Derives k ts f) : ts ≠ [] := by
  induction h with
  | and | or | implies | iff =>
    exact List.append_ne_nil_of_right_ne_nil _ (List.cons_ne_nil _ _)
  | tighter _ ih => exact ih
  | _ => exact List.cons_ne_nil _ _

theorem Written.exists_not_isBlank (h : Written cs f) : ∃ c ∈ cs, ¬Text.isBlank c := by
  obtain ⟨ts, hs, hd⟩ := h
  refine Classical.byContradiction fun hn => hd.ne_nil (hs.eq_nil fun c hc => ?_)
  exact Classical.byContradiction fun hb => hn ⟨c, hc, hb⟩

theorem not_mem_display (hf : ∀ a ∈ f.leaves, IsName a) : '\n' ∉ f.display.toList := by
  induction f with
  | atom name =>
    intro hn
    have hname := (hf name (List.mem_singleton.mpr rfl)).2 _ hn
    revert hname
    decide
  | verum => decide
  | falsum => decide
  | not inner ih =>
    have hinner := ih hf
    simp [display, hinner]
  | binary op lhs rhs ihl ihr =>
    obtain ⟨hl, hr⟩ := List.forall_mem_append.mp hf
    cases op <;> simp [display, Connective.symbol, ihl hl, ihr hr]

/-- Whether texts are names can be evaluated. -/
theorem forall_isName {names : List String}
    (h : names.all fun a => a.toList != [] && a.toList.all (IsNameChar ·)) :
    ∀ a ∈ names, IsName a := by
  intro a ha
  have hname := List.all_eq_true.mp h a ha
  rw [Bool.and_eq_true, bne_iff_ne, List.all_eq_true] at hname
  exact ⟨hname.1, fun c hc => of_decide_eq_true (hname.2 c hc)⟩

end Formula

namespace Text

theorem segments_append_newline {line : List Char} (hn : '\n' ∉ line) (cs : List Char) :
    segments (line ++ '\n' :: cs) = (line ++ ['\n']) :: segments cs := by
  induction line with
  | nil => rfl
  | cons c line ih =>
    rw [List.mem_cons, not_or] at hn
    have hc : ¬c = '\n' := fun h => hn.1 h.symm
    show addToSegments c (segments (line ++ '\n' :: cs)) = _
    rw [ih hn.2, addToSegments, if_neg hc]
    rfl

/-- Lines that hold no line feed are the segments of their text. -/
theorem segments_flatMap {ls : List (List Char)} (h : ∀ l ∈ ls, '\n' ∉ l) :
    segments (ls.flatMap (· ++ ['\n'])) = ls.map (· ++ ['\n']) := by
  induction ls with
  | nil => rfl
  | cons l ls ih =>
    rw [List.forall_mem_cons] at h
    rw [List.flatMap_cons, List.append_assoc, List.singleton_append, segments_append_newline h.1,
      ih h.2, List.map_cons]

theorem foldl_step_ascii (cs : List Char) (h : ∀ c ∈ cs, c.toNat < 128)
    (revParts : List (Option Char)) : (cs.map Char.toUInt8).foldl Decoder.step (.between revParts) =
      .between ((cs.map some).reverse ++ revParts) := by
  induction cs generalizing revParts with
  | nil => rfl
  | cons c cs ih =>
    obtain ⟨hc, hcs⟩ := List.forall_mem_cons.mp h
    have hbyte : c.toUInt8.toNat = c.toNat := Nat.mod_eq_of_lt (Nat.lt_trans hc (by decide))
    have hlt : c.toUInt8 < 0x80 := UInt8.lt_iff_toNat_lt.mpr (hbyte ▸ hc)
    have hstep : Decoder.step (.between revParts) c.toUInt8 = .between (some c :: revParts) := by
      show Decoder.lead revParts c.toUInt8 = _
      rw [Decoder.lead, if_pos hlt, hbyte, Char.ofNat_toNat]
    rw [List.map_cons, List.foldl_cons, hstep, ih hcs, List.map_cons, List.reverse_cons,
      List.append_assoc, List.singleton_append]

/-- **A text of ASCII characters** is its bytes decoded. -/
theorem decode?_ascii {s : String} (h : ∀ c ∈ s.toList, c.toNat < 128) :
    decode? (s.toList.map Char.toUInt8) = some s := by
  have hparts : decodeParts (s.toList.map Char.toUInt8) = s.toList.map some := by
    rw [decodeParts, foldl_step_ascii _ h, List.append_nil]
    exact List.reverse_reverse _
  have hchars : (s.toList.map some).mapM id = some s.toList := by
    induction s.toList with
    | nil => rfl
    | cons c cs ih => simp [ih]
  rw [decode?, hparts, hchars, Option.map_some, String.ofList_toList]

end Text

namespace KnowledgeBase

open Formula

/-- Each displayed line is a segment of the text. -/
theorem segments_display {fs : List Formula} (hf : ∀ f ∈ fs, ∀ a ∈ f.leaves, IsName a) :
    Text.segments (display ⟨fs⟩).toList = fs.map fun f => f.display.toList ++ ['\n'] := by
  have hlines : (display ⟨fs⟩).toList =
      (fs.map fun f => f.display.toList).flatMap (· ++ ['\n']) := by
    simp only [display, String.toList_join, List.flatMap_map, String.toList_append]
    rfl
  rw [hlines, Text.segments_flatMap, List.map_map]
  · rfl
  · exact List.forall_mem_map.mpr fun f h => not_mem_display (hf f h)

/-- **Displayed lines are read as their formulas.** -/
theorem readLines_display {fs : List Formula} (hf : ∀ f ∈ fs, ∀ a ∈ f.leaves, IsName a)
    (line offset : Nat) :
    readLines line offset (fs.map fun f => f.display.toList ++ ['\n']) = .ok fs := by
  induction fs generalizing line offset with
  | nil => rfl
  | cons f fs ih =>
    rw [List.forall_mem_cons] at hf
    have hw := written_display hf.1
    have hline := (readLine_lineBody_eq_ok_iff hw.exists_not_isBlank).mpr ⟨f, rfl, hw⟩
    rw [List.map_cons, readLines, hline, ih hf.2]
    rfl

theorem read_of_isName {kb : KnowledgeBase} (h : ∀ a ∈ kb.atoms, IsName a) :
    KnowledgeBase.read kb.display = .ok kb := by
  have hf : ∀ f ∈ kb.formulas, ∀ a ∈ f.leaves, IsName a := fun f hf a ha =>
    h a (mem_atoms.mpr ⟨f, hf, ha⟩)
  rw [KnowledgeBase.read, segments_display hf, readLines_display hf]
  rfl

/-- **A knowledge base whose atoms are names is read back from what is displayed,** so
displaying what has been read gives the same text. -/
theorem read_display {kb : KnowledgeBase} (h : ∀ a ∈ kb.atoms, IsName a) :
    KnowledgeBase.read kb.display = .ok kb ∧
      (KnowledgeBase.read kb.display).map KnowledgeBase.display = .ok kb.display := by
  refine ⟨read_of_isName h, ?_⟩
  rw [read_of_isName h]
  rfl

theorem read_display_negations :
    let kb : KnowledgeBase := ⟨[.not (.not (.atom "0")),
      .iff (.implies .verum (.atom "_a")) (.or .falsum (.not (.atom "A0")))]⟩
    (∀ a ∈ kb.atoms, IsName a) ∧
      kb.display = "!(!(0))\n((+ => _a) <=> (- || !(A0)))\n" ∧
      KnowledgeBase.read kb.display = .ok kb := by
  intro kb
  have h : ∀ a ∈ kb.atoms, IsName a := forall_isName (by decide)
  exact ⟨h, by decide, (read_display h).1⟩

end KnowledgeBase
end LeastGlut
