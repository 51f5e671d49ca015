/-
# Formulas read level by level

A parser of formulas can be built from the grammar: an operand is a name, a constant or a
formula in brackets, behind any number of negations; and each connective, from the one that
binds tightest, makes a level of chains of what the level below it reads. A level reads a
chain as a row of operands and groups it afterwards (`Formula.grouped`).

Each level is sound and complete for the tokens that derive at its tightness
(`Formula.Sound.binaryLevel`, `Formula.Complete.binaryLevel`). So this parser takes just the
texts of formulas, as the machine does (`Formula.read_toOption`).

Key definitions: `Formula.primary`, `Formula.negation`, `Formula.binaryLevel`,
`Formula.levels`, `Formula.readByLevels`.
-/
import LeastGlut.Proofs.Blanks
import LeastGlut.Proofs.Combinators

namespace LeastGlut
namespace Formula

open Text
open Text.Parser

/-! ### The levels -/

/-- Name characters, one at least. -/
def atomParser : Parser Formula :=
  map (fun cs => .atom (String.ofList (cs.1 :: cs.2)))
    (both (char isNameChar) (many (char isNameChar)))

def constantParser : Parser Formula :=
  orElse (map (fun _ => .verum) (just ['+'])) (map (fun _ => .falsum) (just ['-']))

def groupParser (formula : Parser Formula) : Parser Formula :=
  skipThen (just ['(']) (thenSkip formula (just [')']))

def primary (formula : Parser Formula) : Parser Formula :=
  padded (orElse (orElse atomParser constantParser) (groupParser formula))

/-- Any number of negations in front of what they negate. -/
def negation (formula : Parser Formula) : Parser Formula :=
  map (fun r => r.1.foldr (fun _ inner => .not inner) r.2)
    (both (many (padded (just ['!']))) (primary formula))

/-- A row of formulas grouped to the right, from its last one. -/
def foldRight (op : Connective) (first : Formula) (rest : List Formula) : Formula :=
  match rest.reverse with
  | [] => first
  | last :: init => .binary op first (init.foldl (fun rhs lhs => .binary op lhs rhs) last)

/-- A row of formulas grouped to the side of the connective. -/
def grouped (op : Connective) (first : Formula) (rest : List Formula) : Formula :=
  if op.groupsRight then foldRight op first rest else rest.foldl (.binary op) first

/-- The connective and what stands behind it. -/
def link (next : Parser Formula) (op : Connective) : Parser Formula :=
  skipThen (padded (just op.symbol.toList)) next

/-- Chains of one connective, of what the next-tightest level reads. -/
def binaryLevel (next : Parser Formula) (op : Connective) : Parser Formula :=
  map (fun r => grouped op r.1 r.2) (both next (many (link next op)))

/-- All levels, around a parser for what stands in brackets. -/
def levels (formula : Parser Formula) : Parser Formula :=
  Connective.all.foldl binaryLevel (negation formula)

/-- Formulas whose brackets are nested less deeply than a bound. -/
def formulaWithin : Nat → Parser Formula
  | 0 => fail
  | depth + 1 => levels (formulaWithin depth)

/-- Reads a whole text level by level. Brackets cannot be nested more deeply than the text
is long. -/
def readByLevels (cs : List Char) : Option Formula :=
  (thenSkip (padded (formulaWithin (cs.length + 1))) ending cs).map Prod.fst

variable {cs mid rest : List Char} {t : Token} {ts us vs : List Token} {f g : Formula}
  {k n : Nat} {op : Connective} {formula next : Parser Formula} {fs : List Formula}

theorem foldRight_cons (op : Connective) (first f : Formula) (rest : List Formula) :
    foldRight op first (f :: rest) = .binary op first (foldRight op f rest) := by
  unfold foldRight
  rw [List.reverse_cons]
  cases rest.reverse with
  | nil => rfl
  | cons last init =>
    show Formula.binary op first ((init ++ [f]).foldl _ last) = _
    rw [List.foldl_append]
    rfl

theorem consumes_link (next : Parser Formula) (op : Connective) : Consumes (link next op) := by
  have hsymbol : op.symbol.toList ≠ [] := by cases op <;> decide
  exact (consumes_just hsymbol).padded.skipThen next

theorem consumes_bang : Consumes (padded (just ['!'])) :=
  (consumes_just (List.cons_ne_nil _ _)).padded

/-! ### Tokens at the front of a text -/

theorem splits_unpadded : Splits (unpadded cs) ts ↔ Splits cs ts := by
  have hblank : ∀ c ∈ cs.takeWhile isBlank, isBlank c := fun c hc =>
    List.mem_takeWhile_imp hc
  calc Splits (unpadded cs) ts
      ↔ Splits (cs.takeWhile isBlank ++ unpadded cs) ts := (splits_blanks_append hblank).symm
    _ ↔ Splits cs ts := by rw [unpadded, List.takeWhile_append_dropWhile]

/-- A text starts with its first token, up to blanks. -/
theorem Splits.exists_eq_text (h : Splits cs (t :: ts)) : ∃ rest, unpadded cs = t.text ++ rest ∧
    t.Proper ∧ t.EndsAt rest ∧ Splits rest ts := by
  generalize heq : t :: ts = us at h
  induction h with
  | nil => cases heq
  | blank hc _ ih =>
    obtain ⟨rest, htext, hrest⟩ := ih heq
    refine ⟨rest, ?_, hrest⟩
    rw [← htext]
    exact unpadded_cons_of_isBlank hc _
  | @token t' cs ts' hp he hs _ =>
    obtain ⟨rfl, rfl⟩ := List.cons.inj heq
    refine ⟨cs, ?_, hp, he, hs⟩
    obtain ⟨c, ds, htext⟩ := List.exists_cons_of_ne_nil hp.text_ne_nil
    have hc : ¬isBlank c := by
      rw [hp.isBlank_eq_false (htext ▸ List.mem_cons_self)]
      decide
    rw [htext]
    exact unpadded_cons_of_not_isBlank hc _

theorem Splits.unpadded_eq_nil (h : Splits cs []) : unpadded cs = [] := by
  generalize heq : [] = us at h
  induction h with
  | nil => rfl
  | blank hc _ ih => exact (unpadded_cons_of_isBlank hc _).trans (ih heq)
  | token => cases heq

theorem Splits.length_le (h : Splits cs ts) : ts.length ≤ cs.length := by
  induction h with
  | nil => exact Nat.le_refl 0
  | blank _ _ ih => exact Nat.le_succ_of_le ih
  | @token t cs ts hp _ _ ih =>
    have hpos := List.length_pos_iff.mpr hp.text_ne_nil
    rw [List.length_append, List.length_cons]
    omega

/-- The tokens that are no atoms. -/
def Token.marks : List Token :=
  [.verum, .falsum, .neg, .opening, .closing] ++ Connective.all.map .op

theorem Token.eq_atom_or_mem_marks (t : Token) : (∃ name, t = .atom name) ∨ t ∈ marks := by
  cases t with
  | atom name => exact .inl ⟨name, rfl⟩
  | op op => cases op <;> exact .inr (by decide)
  | _ => exact .inr (by decide)

/-- A mark starts with a character that no name holds. -/
theorem Token.exists_eq_cons_of_mem_marks (ht : t ∈ Token.marks) :
    ∃ c ds, t.text = c :: ds ∧ isNameChar c = false := by
  have hall : ∀ t ∈ Token.marks, t.text ≠ [] ∧ t.text.head?.all (fun c => !isNameChar c) := by
    decide
  obtain ⟨hne, hname⟩ := hall t ht
  obtain ⟨c, ds, htext⟩ := List.exists_cons_of_ne_nil hne
  rw [htext, List.head?_cons, Option.all_some, Bool.not_eq_true'] at hname
  exact ⟨c, ds, htext, hname⟩

/-- A mark is told from every other token by its first character. -/
theorem Token.Proper.eq_of_head? {m : Token} (ht : t.Proper) (hm : m ∈ Token.marks)
    (h : t.text.head? = m.text.head?) : t = m := by
  have hmarks : ∀ t ∈ Token.marks, ∀ m ∈ Token.marks, t.text.head? = m.text.head? → t = m := by
    decide
  rcases t.eq_atom_or_mem_marks with ⟨name, rfl⟩ | hmem
  · obtain ⟨c, ds, htext, hc⟩ := Token.exists_eq_cons_of_mem_marks hm
    rw [htext, List.head?_cons] at h
    exact absurd (ht.2 c (List.mem_of_mem_head? h)) (isNameChar_eq_false_iff.mp hc)
  · exact hmarks t hmem m hm h

/-- A mark is read where it is the first token. -/
theorem Splits.exists_just (h : Splits cs (t :: ts)) :
    ∃ rest, just t.text (unpadded cs) = some ((), rest) ∧ Splits rest ts := by
  obtain ⟨rest, htext, -, -, hrest⟩ := h.exists_eq_text
  exact ⟨rest, htext ▸ just_append t.text rest, hrest⟩

/-- A mark is read only where it is the first token. -/
theorem Splits.just_eq_none (h : Splits cs ts) (ht : t ∈ Token.marks) (hne : ts.head? ≠ some t) :
    just t.text (unpadded cs) = none := by
  have htext : t.text ≠ [] := by
    obtain ⟨c, ds, htext, -⟩ := Token.exists_eq_cons_of_mem_marks ht
    rw [htext]
    exact List.cons_ne_nil c ds
  rw [Option.eq_none_iff_forall_ne_some]
  rintro ⟨u, rest⟩ hread
  have hcs := just_eq_some_iff.mp hread
  cases ts with
  | nil =>
    rw [h.unpadded_eq_nil] at hcs
    exact htext (List.append_eq_nil_iff.mp hcs.symm).1
  | cons s ts =>
    obtain ⟨rest', hs, hp, -, -⟩ := h.exists_eq_text
    have hhead : s.text.head? = t.text.head? := by
      rw [← List.head?_append_of_ne_nil s.text hp.text_ne_nil, ← hs, hcs,
        List.head?_append_of_ne_nil t.text htext]
    exact hne (congrArg some (hp.eq_of_head? ht hhead))

/-! ### What a level reads derives -/

/-- The tokens stand between a text and its rest. -/
def Between (cs : List Char) (ts : List Token) (rest : List Char) : Prop :=
  ∀ us, Splits rest us → Splits cs (ts ++ us)

theorem Between.trans (h : Between cs ts mid) (h' : Between mid us rest) :
    Between cs (ts ++ us) rest := by
  intro vs hs
  rw [List.append_assoc]
  exact h _ (h' vs hs)

theorem between_just {u : Unit} (hp : t.Proper) (he : t.EndsAt rest)
    (h : just t.text cs = some (u, rest)) : Between cs [t] rest := by
  rw [just_eq_some_iff.mp h]
  exact fun us hs => .token hp he hs

/-- Blanks around the tokens are passed over. -/
theorem Between.unpadded (h : Between (unpadded cs) ts rest) :
    Between cs ts (unpadded rest) := fun us hs =>
  splits_unpadded.mp (h us (splits_unpadded.mp hs))

theorem between_padded_just {u : Unit} (hp : t.Proper) (he : ∀ cs, t.EndsAt cs)
    (h : padded (just t.text) cs = some (u, rest)) : Between cs [t] rest := by
  obtain ⟨mid, hread, rfl⟩ := padded_eq_some_iff.mp h
  exact (between_just hp (he mid) hread).unpadded

/-- What the parser takes derives from its tokens. -/
def Sound (k : Nat) (p : Parser Formula) : Prop :=
  ∀ cs f rest, p cs = some (f, rest) → ∃ ts, Derives k ts f ∧ Between cs ts rest

theorem sound_atomParser : Sound 5 atomParser := by
  intro cs f rest h
  obtain ⟨⟨c, ds⟩, hread, rfl⟩ := map_eq_some_iff.mp h
  obtain ⟨mid, hfirst, hmore⟩ := both_eq_some_iff.mp hread
  obtain ⟨rfl, hc⟩ := char_eq_some_iff.mp hfirst
  rw [many_char] at hmore
  cases hmore
  obtain ⟨hp, he, htext⟩ := Token.longest_atom hc mid
  refine ⟨_, .atom _, fun us hs => ?_⟩
  rw [htext]
  exact .token hp he hs

theorem sound_constantParser : Sound 5 constantParser := by
  intro cs f rest h
  rcases orElse_eq_some_iff.mp h with h | ⟨-, h⟩
  · obtain ⟨u, hread, rfl⟩ := map_eq_some_iff.mp h
    exact ⟨_, .verum, between_just (t := .verum) trivial trivial hread⟩
  · obtain ⟨u, hread, rfl⟩ := map_eq_some_iff.mp h
    exact ⟨_, .falsum, between_just (t := .falsum) trivial trivial hread⟩

theorem Sound.group (h : Sound 1 formula) : Sound 5 (groupParser formula) := by
  intro cs f rest hread
  obtain ⟨u, inner, hopening, hread⟩ := skipThen_eq_some_iff.mp hread
  obtain ⟨u', behind, hinner, hclosing⟩ := thenSkip_eq_some_iff.mp hread
  obtain ⟨ts, hd, hts⟩ := h inner f behind hinner
  have hopen := between_just (t := .opening) trivial trivial hopening
  have hclose := between_just (t := .closing) trivial trivial hclosing
  exact ⟨_, .group hd, (hopen.trans hts).trans hclose⟩

theorem Sound.primary (h : Sound 1 formula) : Sound 5 (primary formula) := by
  intro cs f rest h'
  obtain ⟨mid, hread, rfl⟩ := padded_eq_some_iff.mp h'
  have hinner : ∃ ts, Derives 5 ts f ∧ Between (unpadded cs) ts mid := by
    rcases orElse_eq_some_iff.mp hread with hread | ⟨-, hread⟩
    · rcases orElse_eq_some_iff.mp hread with hread | ⟨-, hread⟩
      · exact sound_atomParser _ _ _ hread
      · exact sound_constantParser _ _ _ hread
    · exact h.group _ _ _ hread
  obtain ⟨ts, hd, hts⟩ := hinner
  exact ⟨ts, hd, hts.unpadded⟩

theorem sound_bangs {bangs : List Unit} (hparts : Parts (padded (just ['!'])) cs bangs mid)
    (hd : Derives 5 ts f) (hts : Between mid ts rest) :
    ∃ us, Derives 5 us (bangs.foldr (fun _ inner => .not inner) f) ∧ Between cs us rest := by
  induction hparts with
  | nil => exact ⟨ts, hd, hts⟩
  | cons hbang _ ih =>
    obtain ⟨us, hd', hus⟩ := ih hts
    have hneg := between_padded_just (t := .neg) trivial (fun _ => trivial) hbang
    exact ⟨_, .neg hd', hneg.trans hus⟩

theorem Sound.negation (h : Sound 1 formula) : Sound 5 (negation formula) := by
  intro cs f rest h'
  obtain ⟨⟨bangs, g⟩, hread, rfl⟩ := map_eq_some_iff.mp h'
  obtain ⟨mid, hbangs, hg⟩ := both_eq_some_iff.mp hread
  obtain ⟨hparts, -⟩ := (many_eq_some_iff consumes_bang).mp hbangs
  obtain ⟨ts, hd, hts⟩ := h.primary mid g rest hg
  exact sound_bangs hparts hd hts

theorem Sound.link (h : Sound k next) (hread : link next op cs = some (f, rest)) :
    ∃ mid ts, Between cs [.op op] mid ∧ Derives k ts f ∧ Between mid ts rest := by
  obtain ⟨u, mid, hop, hnext⟩ := skipThen_eq_some_iff.mp hread
  rw [← Token.text_op] at hop
  obtain ⟨ts, hd, hts⟩ := h mid f rest hnext
  exact ⟨mid, ts, between_padded_just trivial (fun _ => trivial) hop, hd, hts⟩

theorem Sound.foldLeft (h : Sound op.rightLevel next) (hleft : op.leftLevel = op.tightness)
    (hparts : Parts (Formula.link next op) mid fs rest) (hd : Derives op.tightness ts f)
    (hts : Between cs ts mid) :
    ∃ us, Derives op.tightness us (fs.foldl (.binary op) f) ∧ Between cs us rest := by
  induction hparts generalizing ts f with
  | nil => exact ⟨ts, hd, hts⟩
  | cons hlink _ ih =>
    obtain ⟨mid', us, hop, hg, hus⟩ := h.link hlink
    have hchain := Derives.chain (hleft ▸ hd) hg
    exact ih hchain (hts.trans (hop.trans hus))

theorem Sound.foldRight (h : Sound op.leftLevel next) (hright : op.rightLevel = op.tightness)
    (hparts : Parts (Formula.link next op) mid fs rest) (hd : Derives op.leftLevel ts f)
    (hts : Between cs ts mid) :
    ∃ us, Derives op.tightness us (foldRight op f fs) ∧ Between cs us rest := by
  induction hparts generalizing cs ts f with
  | nil => exact ⟨ts, hd.mono op.tightness_le_leftLevel, hts⟩
  | cons hlink _ ih =>
    obtain ⟨mid', us, hop, hg, hus⟩ := h.link hlink
    obtain ⟨vs, hv, hvs⟩ := ih hg hus
    rw [foldRight_cons]
    exact ⟨_, Derives.chain hd (hright ▸ hv), hts.trans (hop.trans hvs)⟩

/-- **A level reads chains** of what the next-tightest level reads. -/
theorem Sound.binaryLevel (op : Connective) (h : Sound (op.tightness + 1) next) :
    Sound op.tightness (binaryLevel next op) := by
  intro cs f rest h'
  obtain ⟨⟨first, fs⟩, hread, rfl⟩ := map_eq_some_iff.mp h'
  obtain ⟨mid, hfirst, hmore⟩ := both_eq_some_iff.mp hread
  obtain ⟨hparts, -⟩ := (many_eq_some_iff (consumes_link next op)).mp hmore
  obtain ⟨ts, hd, hts⟩ := h cs first mid hfirst
  unfold grouped
  by_cases hop : op.groupsRight
  · have hleft : op.leftLevel = op.tightness + 1 := if_pos hop
    rw [if_pos hop]
    exact Sound.foldRight (hleft ▸ h) (if_pos hop) hparts (hleft ▸ hd) hts
  · have hright : op.rightLevel = op.tightness + 1 := if_neg hop
    rw [if_neg hop]
    exact Sound.foldLeft (hright ▸ h) (if_neg hop) hparts (hd.mono (Nat.le_succ _)) hts

theorem Sound.levels (h : Sound 1 formula) : Sound 1 (levels formula) :=
  (((h.negation.binaryLevel .and).binaryLevel .or).binaryLevel .implies).binaryLevel .iff

theorem sound_formulaWithin (n : Nat) : Sound 1 (formulaWithin n) := by
  induction n with
  | zero =>
    intro cs f rest h
    cases h
  | succ n ih => exact ih.levels

/-! ### What derives is read: operands -/

theorem Derives.le_five (h : Derives k ts f) : k ≤ 5 := by
  induction h with
  | tighter _ ih => exact Nat.le_of_succ_le ih
  | _ => decide

/-- No chain of the level goes on with the tokens. -/
def Stops (k : Nat) (ts : List Token) : Prop := ∀ op, ts.head? = some (.op op) → op.tightness < k

theorem Stops.mono {j : Nat} (h : Stops j ts) (hjk : j ≤ k) : Stops k ts := fun op hop =>
  Nat.lt_of_lt_of_le (h op hop) hjk

/-- A connective stops every level that binds more tightly. -/
theorem stops_op (op : Connective) (ts : List Token) : Stops (op.tightness + 1) (.op op :: ts) := by
  intro op' hop
  cases hop
  exact Nat.lt_succ_self _

/-- The parser takes the formula from the text, with the blanks behind it, in front of the
tokens. -/
def Takes (p : Parser Formula) (cs : List Char) (f : Formula) (us : List Token) : Prop :=
  ∃ rest, p cs = some (f, rest) ∧ unpadded rest = rest ∧ Splits rest us

/-- The parser takes what derives at the level from fewer tokens than the bound. -/
def Complete (n k : Nat) (p : Parser Formula) : Prop :=
  ∀ ts f us cs, ts.length < n → Derives k ts f → Stops k us → Splits cs (ts ++ us) → Takes p cs f us

/-- An operand is taken with the blanks around it. -/
theorem takes_primary (h : orElse (orElse atomParser constantParser) (groupParser formula)
      (unpadded cs) = some (f, rest)) (hs : Splits rest us) : Takes (primary formula) cs f us :=
  ⟨unpadded rest, padded_eq_some_iff.mpr ⟨rest, h, rfl⟩, unpadded_unpadded rest,
    splits_unpadded.mpr hs⟩

theorem takes_atom {name : String} (hs : Splits cs (.atom name :: us)) :
    Takes (primary formula) cs (.atom name) us := by
  obtain ⟨rest, htext, hp, he, hrest⟩ := hs.exists_eq_text
  obtain ⟨c, ds, hname⟩ := List.exists_cons_of_ne_nil hp.1
  have hall : ∀ d ∈ c :: ds, isNameChar d := fun d hd => isNameChar_iff.mpr (hp.2 d (hname ▸ hd))
  rw [List.forall_mem_cons] at hall
  have hfirst : char isNameChar (c :: (ds ++ rest)) = some (c, ds ++ rest) := if_pos hall.1
  have hmore : many (char isNameChar) (ds ++ rest) = some (ds, rest) :=
    many_char_append hall.2 fun d hd hname => he d hd (isNameChar_iff.mp hname)
  have hatom : String.ofList (c :: ds) = name := by
    rw [← hname]
    exact String.ofList_toList
  have hread : atomParser (unpadded cs) = some (.atom name, rest) := by
    rw [htext, Token.text, hname, ← hatom]
    exact map_eq_some_iff.mpr ⟨(c, ds), both_eq_some_iff.mpr ⟨_, hfirst, hmore⟩, rfl⟩
  exact takes_primary (orElse_eq_some_iff.mpr (.inl (orElse_eq_some_iff.mpr (.inl hread)))) hrest

theorem atomParser_eq_none (h : Splits cs (t :: ts)) (ht : t ∈ Token.marks) :
    atomParser (unpadded cs) = none := by
  obtain ⟨rest, htext, -⟩ := h.exists_eq_text
  obtain ⟨c, ds, hc, hname⟩ := Token.exists_eq_cons_of_mem_marks ht
  have hchar : char isNameChar (c :: (ds ++ rest)) = none := if_neg (Bool.eq_false_iff.mp hname)
  rw [htext, hc]
  exact map_eq_none_iff.mpr (both_eq_none hchar)

theorem constantParser_eq_none (h : Splits cs ts) (hv : ts.head? ≠ some .verum)
    (hf : ts.head? ≠ some .falsum) : constantParser (unpadded cs) = none :=
  orElse_eq_none_iff.mpr ⟨map_eq_none_iff.mpr (h.just_eq_none (t := .verum) (by decide) hv),
    map_eq_none_iff.mpr (h.just_eq_none (t := .falsum) (by decide) hf)⟩

theorem takes_constant (h : Splits cs (t :: us)) (ht : t ∈ Token.marks)
    (hread : ∃ rest, constantParser (unpadded cs) = some (f, rest) ∧ Splits rest us) :
    Takes (primary formula) cs f us := by
  obtain ⟨rest, hread, hrest⟩ := hread
  have hatom := atomParser_eq_none h ht
  exact takes_primary (orElse_eq_some_iff.mpr (.inl (orElse_eq_some_iff.mpr (.inr ⟨hatom, hread⟩))))
    hrest

theorem takes_verum (h : Splits cs (.verum :: us)) : Takes (primary formula) cs .verum us := by
  obtain ⟨rest, hread, hrest⟩ := h.exists_just
  refine takes_constant h (by decide) ⟨rest, orElse_eq_some_iff.mpr (.inl ?_), hrest⟩
  exact map_eq_some_iff.mpr ⟨(), hread, rfl⟩

theorem takes_falsum (h : Splits cs (.falsum :: us)) : Takes (primary formula) cs .falsum us := by
  obtain ⟨rest, hread, hrest⟩ := h.exists_just
  have hverum := h.just_eq_none (t := .verum) (by decide) (fun h => by cases h)
  refine takes_constant h (by decide) ⟨rest, orElse_eq_some_iff.mpr (.inr ⟨?_, ?_⟩), hrest⟩
  · exact map_eq_none_iff.mpr hverum
  · exact map_eq_some_iff.mpr ⟨(), hread, rfl⟩

theorem Complete.group (h : Complete n 1 formula) (hlen : ts.length < n) (hd : Derives 1 ts f)
    (hs : Splits cs (.opening :: (ts ++ .closing :: us))) : Takes (primary formula) cs f us := by
  obtain ⟨inner, hopening, hinner⟩ := hs.exists_just
  have hstops : Stops 1 (.closing :: us) := by
    intro op hop
    cases hop
  obtain ⟨behind, hread, hclear, hbehind⟩ := h ts f (.closing :: us) inner hlen hd hstops hinner
  obtain ⟨rest, hclosing, hrest⟩ := hbehind.exists_just
  rw [hclear] at hclosing
  have hgroup : groupParser formula (unpadded cs) = some (f, rest) :=
    skipThen_eq_some_iff.mpr ⟨(), inner, hopening,
      thenSkip_eq_some_iff.mpr ⟨(), behind, hread, hclosing⟩⟩
  have hatom := atomParser_eq_none hs (by decide)
  have hconstant := constantParser_eq_none hs (fun h => by cases h) (fun h => by cases h)
  exact takes_primary
    (orElse_eq_some_iff.mpr (.inr ⟨orElse_eq_none_iff.mpr ⟨hatom, hconstant⟩, hgroup⟩)) hrest

/-- An operand that is no negation is taken where the negations end. -/
theorem takes_negation (h : Takes (primary formula) cs f us) (hs : Splits cs ts)
    (hts : ts.head? ≠ some .neg) : Takes (negation formula) cs f us := by
  obtain ⟨rest, hread, hrest⟩ := h
  have hbang : padded (just ['!']) cs = none :=
    padded_eq_none_iff.mpr (hs.just_eq_none (t := .neg) (by decide) hts)
  have hmany : many (padded (just ['!'])) cs = some ([], cs) :=
    (many_eq_some_iff consumes_bang).mpr ⟨.nil cs, hbang⟩
  exact ⟨rest, map_eq_some_iff.mpr ⟨([], f), both_eq_some_iff.mpr ⟨cs, hmany, hread⟩, rfl⟩, hrest⟩

theorem Takes.negation (hs : Splits cs (.neg :: ts))
    (h : ∀ mid, Splits mid ts → Takes (negation formula) mid f us) :
    Takes (negation formula) cs (.not f) us := by
  obtain ⟨mid, hbang, hmid⟩ := hs.exists_just
  obtain ⟨rest, hread, hrest⟩ := h (unpadded mid) (splits_unpadded.mpr hmid)
  obtain ⟨⟨bangs, g⟩, hboth, rfl⟩ := map_eq_some_iff.mp hread
  obtain ⟨inner, hbangs, hg⟩ := both_eq_some_iff.mp hboth
  obtain ⟨hparts, hend⟩ := (many_eq_some_iff consumes_bang).mp hbangs
  have hfirst : padded (just ['!']) cs = some ((), unpadded mid) :=
    padded_eq_some_iff.mpr ⟨mid, hbang, rfl⟩
  have hmany := (many_eq_some_iff consumes_bang).mpr ⟨hparts.cons hfirst, hend⟩
  exact ⟨rest, map_eq_some_iff.mpr ⟨(() :: bangs, g), both_eq_some_iff.mpr ⟨inner, hmany, hg⟩, rfl⟩,
    hrest⟩

theorem Complete.negation (h : Complete n 1 formula) : Complete (n + 1) 5 (negation formula) := by
  intro ts f us cs hlen hd _ hs
  -- A negation is taken by the same parser behind its mark, so the induction is on the derivation.
  generalize hk : 5 = k at hd
  induction hd generalizing cs with
  | atom name => exact takes_negation (takes_atom hs) hs (fun h => by cases h)
  | verum => exact takes_negation (takes_verum hs) hs (fun h => by cases h)
  | falsum => exact takes_negation (takes_falsum hs) hs (fun h => by cases h)
  | @group ts f hd _ =>
    have hlt : ts.length < n := by
      simp only [List.length_append, List.length_cons, List.length_nil] at hlen
      omega
    rw [List.append_assoc] at hs
    exact takes_negation (h.group hlt hd hs) hs (fun h => by cases h)
  | neg _ ih => exact Takes.negation hs fun mid hmid => ih mid (Nat.lt_of_succ_lt hlen) hmid rfl
  | and | or | implies | iff => exact absurd hk (by decide)
  | tighter hd _ =>
    subst hk
    exact absurd hd.le_five (by decide)

/-! ### What derives is read: chains -/

/-- What derives at the level of a connective is a chain of it, or binds more tightly. -/
theorem Derives.chain_or_tighter (h : Derives op.tightness ts f) :
    (∃ us vs g g', ts = us ++ .op op :: vs ∧ f = .binary op g g' ∧
      Derives op.leftLevel us g ∧ Derives op.rightLevel vs g') ∨
      Derives (op.tightness + 1) ts f := by
  generalize hk : op.tightness = k at h
  cases h with
  | tighter h => exact .inr h
  | atom | verum | falsum | group | neg => exact absurd hk (Nat.ne_of_lt op.tightness_lt)
  | and hf hg | or hf hg | implies hf hg | iff hf hg =>
    cases op <;> first | exact .inl ⟨_, _, _, _, rfl, rfl, hf, hg⟩ | exact absurd hk (by decide)

theorem Splits.exists_link (h : Splits cs (.op op :: ts)) :
    ∃ mid, padded (just op.symbol.toList) cs = some ((), mid) ∧ Splits mid ts := by
  obtain ⟨mid, hop, hmid⟩ := h.exists_just
  rw [Token.text_op] at hop
  exact ⟨unpadded mid, padded_eq_some_iff.mpr ⟨mid, hop, rfl⟩, splits_unpadded.mpr hmid⟩

theorem Splits.link_eq_none (h : Splits cs ts) (hts : ts.head? ≠ some (.op op)) :
    link next op cs = none := by
  have hmark : Token.op op ∈ Token.marks := by cases op <;> decide
  have hop := h.just_eq_none hmark hts
  rw [Token.text_op] at hop
  exact skipThen_eq_none (padded_eq_none_iff.mpr hop)

/-- The parser takes the row of a chain from the text, in front of the tokens. -/
def TakesRow (next : Parser Formula) (op : Connective) (cs : List Char) (f : Formula)
    (us : List Token) : Prop :=
  ∃ first mid fs rest, next cs = some (first, mid) ∧ Parts (link next op) mid fs rest ∧
    grouped op first fs = f ∧ unpadded rest = rest ∧ Splits rest us

theorem Takes.row (h : Takes next cs f us) : TakesRow next op cs f us := by
  obtain ⟨rest, hread, hclear, hrest⟩ := h
  have hgrouped : grouped op f [] = f := by
    unfold grouped
    split <;> rfl
  exact ⟨f, rest, [], rest, hread, .nil rest, hgrouped, hclear, hrest⟩

/-- A chain that groups to the left goes on behind its row. -/
theorem TakesRow.concat (h : TakesRow next op cs f (.op op :: ts)) (hop : op.groupsRight = false)
    (hnext : ∀ mid, Splits mid ts → Takes next mid g us) :
    TakesRow next op cs (.binary op f g) us := by
  obtain ⟨first, mid, fs, rest, hfirst, hparts, rfl, -, hrest⟩ := h
  obtain ⟨behind, hlink, hbehind⟩ := hrest.exists_link
  obtain ⟨rest', hread, hclear, hrest'⟩ := hnext behind hbehind
  have hmore : link next op rest = some (g, rest') :=
    skipThen_eq_some_iff.mpr ⟨(), behind, hlink, hread⟩
  have hgrouped : grouped op first (fs ++ [g]) = .binary op (grouped op first fs) g := by
    unfold grouped
    rw [if_neg (Bool.eq_false_iff.mp hop), if_neg (Bool.eq_false_iff.mp hop), List.foldl_append]
    rfl
  exact ⟨first, mid, fs ++ [g], rest', hfirst, hparts.concat hmore, hgrouped, hclear, hrest'⟩

/-- A chain that groups to the right goes on in front of its row. -/
theorem Takes.cons (h : Takes next cs f (.op op :: ts)) (hop : op.groupsRight)
    (hrow : ∀ mid, Splits mid ts → TakesRow next op mid g us) :
    TakesRow next op cs (.binary op f g) us := by
  obtain ⟨mid, hread, -, hmid⟩ := h
  obtain ⟨behind, hlink, hbehind⟩ := hmid.exists_link
  obtain ⟨first, mid', fs, rest, hfirst, hparts, rfl, hrest⟩ := hrow behind hbehind
  have hmore : link next op mid = some (first, mid') :=
    skipThen_eq_some_iff.mpr ⟨(), behind, hlink, hfirst⟩
  have hgrouped : grouped op f (first :: fs) = .binary op f (grouped op first fs) := by
    unfold grouped
    rw [if_pos hop, if_pos hop, foldRight_cons]
  exact ⟨f, mid, first :: fs, rest, hread, hparts.cons hmore, hgrouped, hrest⟩

/-- A row is taken up to where the tokens stop, or go on with the same connective. -/
theorem Complete.row {ts us : List Token} {f : Formula} {cs : List Char}
    (h : Complete n (op.tightness + 1) next) (hlen : ts.length < n)
    (hd : Derives op.tightness ts f) (hus : Stops (op.tightness + 1) us)
    (hs : Splits cs (ts ++ us)) : TakesRow next op cs f us := by
  rcases hd.chain_or_tighter with ⟨ls, rs, g, g', hts, rfl, hl, hr⟩ | hd
  · have hll : ls.length < ts.length := by
      rw [hts, List.length_append, List.length_cons]
      omega
    have hrl : rs.length < ts.length := by
      rw [hts, List.length_append, List.length_cons]
      omega
    rw [hts, List.append_assoc] at hs
    -- The side that is a chain itself is a shorter row, and the other one an operand.
    by_cases hop : op.groupsRight
    · have hleft : op.leftLevel = op.tightness + 1 := if_pos hop
      have hright : op.rightLevel = op.tightness := if_pos hop
      rw [hleft] at hl
      rw [hright] at hr
      have hfirst := h ls g _ cs (Nat.lt_trans hll hlen) hl (stops_op op (rs ++ us)) hs
      exact hfirst.cons hop fun mid hmid => row h (Nat.lt_trans hrl hlen) hr hus hmid
    · have hleft : op.leftLevel = op.tightness := if_neg hop
      have hright : op.rightLevel = op.tightness + 1 := if_neg hop
      rw [hleft] at hl
      rw [hright] at hr
      have hrow := row h (Nat.lt_trans hll hlen) hl (stops_op op (rs ++ us)) hs
      exact hrow.concat (Bool.eq_false_iff.mpr hop) fun mid hmid =>
        h rs g' us mid (Nat.lt_trans hrl hlen) hr hus hmid
  · exact (h ts f us cs hlen hd hus hs).row
termination_by ts.length
decreasing_by
  · exact hrl
  · exact hll

/-- **A level reads every chain** if the next-tightest level reads its operands. -/
theorem Complete.binaryLevel (op : Connective) (h : Complete n (op.tightness + 1) next) :
    Complete n op.tightness (binaryLevel next op) := by
  intro ts f us cs hlen hd hus hs
  obtain ⟨first, mid, fs, rest, hfirst, hparts, hgrouped, hrest⟩ :=
    h.row hlen hd (hus.mono (Nat.le_succ _)) hs
  have hend : link next op rest = none :=
    hrest.2.link_eq_none fun hop => absurd (hus op hop) (Nat.lt_irrefl _)
  have hmany := (many_eq_some_iff (consumes_link next op)).mpr ⟨hparts, hend⟩
  have hrow := both_eq_some_iff.mpr ⟨mid, hfirst, hmany⟩
  exact ⟨rest, map_eq_some_iff.mpr ⟨(first, fs), hrow, hgrouped⟩, hrest⟩

theorem Complete.levels (h : Complete n 1 formula) : Complete (n + 1) 1 (levels formula) :=
  (((h.negation.binaryLevel .and).binaryLevel .or).binaryLevel .implies).binaryLevel .iff

theorem complete_formulaWithin (n : Nat) : Complete n 1 (formulaWithin n) := by
  induction n with
  | zero => exact fun ts f us cs hlen => absurd hlen (Nat.not_lt_zero _)
  | succ n ih => exact ih.levels

/-! ### Whole texts -/

/-- **The levels read just the texts of formulas.** -/
theorem readByLevels_eq_some_iff : readByLevels cs = some f ↔ Written cs f := by
  unfold readByLevels
  rw [Option.map_eq_some_iff]
  constructor
  · rintro ⟨⟨f', rest⟩, hwhole, rfl⟩
    obtain ⟨hpadded, rfl⟩ := thenSkip_ending_eq_some_iff.mp hwhole
    obtain ⟨mid, hread, hmid⟩ := padded_eq_some_iff.mp hpadded
    obtain ⟨ts, hd, hts⟩ := sound_formulaWithin _ _ _ _ hread
    have hs := hts.unpadded [] (hmid ▸ .nil)
    rw [List.append_nil] at hs
    exact ⟨ts, hs, hd⟩
  · rintro ⟨ts, hs, hd⟩
    have hlen : ts.length < cs.length + 1 := Nat.lt_succ_of_le hs.length_le
    have hstops : Stops 1 [] := by
      intro op hop
      cases hop
    have hs' : Splits (unpadded cs) (ts ++ []) := by
      rw [List.append_nil]
      exact splits_unpadded.mpr hs
    obtain ⟨rest, hread, -, hrest⟩ := complete_formulaWithin _ ts f [] _ hlen hd hstops hs'
    have hpadded : padded (formulaWithin (cs.length + 1)) cs = some (f, []) :=
      padded_eq_some_iff.mpr ⟨rest, hread, hrest.unpadded_eq_nil⟩
    exact ⟨(f, []), thenSkip_ending_eq_some_iff.mpr ⟨hpadded, rfl⟩, rfl⟩

/-- **The machine reads what the levels read,** from every text. -/
theorem read_toOption (cs : List Char) : (read cs).toOption = readByLevels cs := by
  ext f
  rw [readByLevels_eq_some_iff, ← read_eq_ok_iff]
  cases read cs with
  | error e => exact iff_of_false (fun h => by cases h) (fun h => by cases h)
  | ok g => exact ⟨fun h => congrArg Except.ok (Option.some_inj.mp h), fun h => by cases h; rfl⟩

end Formula
end LeastGlut
