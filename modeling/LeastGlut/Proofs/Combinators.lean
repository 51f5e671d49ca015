/-
# Parsers made of smaller ones

A parser takes a front part of a text and gives what it has read with the rest, or it
fails. Parsers stand one behind the other; of two, the second is tried where the first
fails; and one is repeated as often as it takes something. A parser that fails has taken
nothing, so what is tried next starts where it did.

Every parser carries the proof that its rest is no longer than its text, and one made of
smaller ones has it from them. What a repetition takes is a row of parts, up to where its
parser fails (`Text.Parser.many_eq_some_iff`).

Key definitions: `Text.unpadded`, `Text.Parser`, `Text.Parser.both`, `Text.Parser.orElse`,
`Text.Parser.many`, `Text.Parser.Parts`.
-/
import LeastGlut.Text.Blank
import Mathlib.Data.List.DropRight
import Mathlib.Data.List.TakeWhile

namespace LeastGlut.Text

/-- A text without the blanks in front. -/
def unpadded (cs : List Char) : List Char := cs.dropWhile isBlank

theorem unpadded_cons_of_isBlank {c : Char} (hc : isBlank c) (cs : List Char) :
    unpadded (c :: cs) = unpadded cs := List.dropWhile_cons_of_pos hc

theorem unpadded_cons_of_not_isBlank {c : Char} (hc : ¬isBlank c) (cs : List Char) :
    unpadded (c :: cs) = c :: cs := List.dropWhile_cons_of_neg hc

theorem unpadded_unpadded (cs : List Char) :
    unpadded (unpadded cs) = unpadded cs := List.dropWhile_idempotent _ cs

theorem length_unpadded_le (cs : List Char) : (unpadded cs).length ≤ cs.length :=
  (List.dropWhile_suffix _).length_le

theorem not_isBlank_of_unpadded {c : Char} {cs : List Char} (h : unpadded (c :: cs) = c :: cs) :
    ¬isBlank c := by
  intro hc
  have hle := length_unpadded_le cs
  rw [← unpadded_cons_of_isBlank hc, h, List.length_cons] at hle
  exact Nat.not_succ_le_self _ hle

/-- What is read from the front of a text, and the rest. -/
structure Parser (α : Type) where
  run : List Char → Option (α × List Char)
  length_le : ∀ {cs a rest}, run cs = some (a, rest) → rest.length ≤ cs.length

namespace Parser

variable {α β : Type}

instance : CoeFun (Parser α) fun _ => List Char → Option (α × List Char) := ⟨run⟩

/-- Takes nothing. -/
def pure (a : α) : Parser α where
  run cs := some (a, cs)
  length_le := by
    intro cs b rest h
    cases h
    exact Nat.le_refl _

/-- Takes nothing from any text. -/
def fail : Parser α where
  run _ := none
  length_le := by
    intro cs a rest h
    cases h

/-- The end of the text. -/
def ending : Parser Unit where
  run
    | [] => some ((), [])
    | _ :: _ => none
  length_le := by
    intro cs u rest h
    cases cs with
    | nil =>
      cases h
      exact Nat.le_refl _
    | cons _ _ => cases h

/-- One character of a class. -/
def char (p : Char → Bool) : Parser Char where
  run
    | [] => none
    | c :: cs => if p c then some (c, cs) else none
  length_le := by
    intro cs c rest h
    cases cs with
    | nil => cases h
    | cons d cs =>
      dsimp only at h
      split at h
      · cases h
        exact Nat.le_succ _
      · cases h

/-- The characters as they stand. -/
def just (text : List Char) : Parser Unit where
  run cs := if text <+: cs then some ((), cs.drop text.length) else none
  length_le := by
    intro cs u rest h
    split at h
    · cases h
      rw [List.length_drop]
      exact Nat.sub_le _ _
    · cases h

/-- What is made of what has been read; it may be refused. -/
def filterMap (f : α → Option β) (p : Parser α) : Parser β where
  run cs := (p cs).bind fun (a, rest) => (f a).map fun b => (b, rest)
  length_le := by
    intro cs b rest h
    obtain ⟨⟨a, mid⟩, ha, h⟩ := Option.bind_eq_some_iff.mp h
    obtain ⟨b', hb, h⟩ := Option.map_eq_some_iff.mp h
    cases h
    exact p.length_le ha

def map (f : α → β) (p : Parser α) : Parser β := filterMap (fun a => some (f a)) p

/-- One parser behind the other. -/
def both (p : Parser α) (q : Parser β) : Parser (α × β) where
  run cs := (p cs).bind fun (a, mid) => (q mid).map fun (b, rest) => ((a, b), rest)
  length_le := by
    intro cs ab rest h
    obtain ⟨⟨a, mid⟩, ha, h⟩ := Option.bind_eq_some_iff.mp h
    obtain ⟨⟨b, rest'⟩, hb, h⟩ := Option.map_eq_some_iff.mp h
    cases h
    exact Nat.le_trans (q.length_le hb) (p.length_le ha)

/-- One parser behind the other, for what the second reads. -/
def skipThen (p : Parser α) (q : Parser β) : Parser β := map Prod.snd (both p q)

/-- One parser behind the other, for what the first reads. -/
def thenSkip (p : Parser α) (q : Parser β) : Parser α := map Prod.fst (both p q)

/-- The second parser where the first fails. -/
def orElse (p q : Parser α) : Parser α where
  run cs := (p cs).or (q cs)
  length_le := by
    intro cs a rest h
    rcases Option.or_eq_some_iff.mp h with h | ⟨-, h⟩
    · exact p.length_le h
    · exact q.length_le h

/-- Blanks around do not matter. -/
def padded (p : Parser α) : Parser α where
  run cs := (p (unpadded cs)).map fun (a, rest) => (a, unpadded rest)
  length_le := by
    intro cs a rest h
    obtain ⟨⟨a', mid⟩, ha, h⟩ := Option.map_eq_some_iff.mp h
    cases h
    exact Nat.le_trans (length_unpadded_le mid)
      (Nat.le_trans (p.length_le ha) (length_unpadded_le cs))

/-- What is read one behind the other, as often as the parser takes something. -/
def repeated (p : Parser α) (cs : List Char) : List α × List Char :=
  match p cs with
  | none => ([], cs)
  | some (a, rest) =>
    if rest.length < cs.length then ((a :: (repeated p rest).1), (repeated p rest).2) else ([], cs)
termination_by cs.length

/-- As often as the parser takes something; this never fails. -/
def many (p : Parser α) : Parser (List α) where
  run cs := some (repeated p cs)
  length_le := by
    intro cs as rest h
    have hrest : rest = (repeated p cs).2 := by rw [Option.some_inj.mp h]
    rw [hrest]
    clear h hrest
    fun_induction repeated p cs with
    | case1 cs _ => exact Nat.le_refl _
    | case2 cs a mid hsome hlt ih => exact Nat.le_trans ih (Nat.le_of_lt hlt)
    | case3 cs a mid hsome hlt => exact Nat.le_refl _

/-- What the parser takes, or nothing. -/
def optional (p : Parser α) : Parser (Option α) := orElse (map some p) (pure none)

/-- Any number of parts with something between any two. -/
def sepBy (p : Parser α) (sep : Parser β) : Parser (List α) :=
  orElse (map (fun r => r.1 :: r.2) (both p (many (skipThen sep p)))) (pure [])

variable {p : Parser α} {q : Parser β} {a : α} {b : β} {as bs : List α}
  {cs mid rest text : List Char}

/-! ### What is read -/

theorem just_append (text rest : List Char) : just text (text ++ rest) = some ((), rest) := by
  show (if _ then _ else _) = _
  rw [if_pos (List.prefix_append text rest), List.drop_left]

theorem just_eq_some_iff {u : Unit} : just text cs = some (u, rest) ↔ cs = text ++ rest := by
  constructor
  · intro h
    change (if _ then _ else _) = _ at h
    split at h
    next hfront =>
      obtain ⟨ds, rfl⟩ := hfront
      rw [List.drop_left] at h
      cases h
      rfl
    next => cases h
  · rintro rfl
    exact just_append text rest

theorem just_singleton_of_ne {c d : Char} (h : c ≠ d) (cs : List Char) :
    just [d] (c :: cs) = none := if_neg fun hfront => h (List.cons_prefix_cons.mp hfront).1.symm

theorem char_eq_some_iff {p : Char → Bool} {c : Char} :
    char p cs = some (c, rest) ↔ cs = c :: rest ∧ p c := by
  cases cs with
  | nil => exact iff_of_false (fun h => by cases h) (fun h => by cases h.1)
  | cons d cs =>
    show (if _ then _ else _) = _ ↔ _
    constructor
    · intro h
      split at h
      next hd =>
        cases h
        exact ⟨rfl, hd⟩
      next => cases h
    · rintro ⟨h, hc⟩
      cases h
      exact if_pos hc

theorem filterMap_eq_some_iff {f : α → Option β} :
    filterMap f p cs = some (b, rest) ↔ ∃ a, p cs = some (a, rest) ∧ f a = some b := by
  show Option.bind _ _ = _ ↔ _
  constructor
  · intro h
    obtain ⟨⟨a, mid⟩, ha, h⟩ := Option.bind_eq_some_iff.mp h
    obtain ⟨b', hb, h⟩ := Option.map_eq_some_iff.mp h
    cases h
    exact ⟨a, ha, hb⟩
  · rintro ⟨a, ha, hb⟩
    rw [ha]
    show Option.map _ (f a) = _
    rw [hb]
    rfl

theorem map_eq_some_iff {f : α → β} :
    map f p cs = some (b, rest) ↔ ∃ a, p cs = some (a, rest) ∧ f a = b := by
  unfold map
  rw [filterMap_eq_some_iff]
  exact exists_congr fun a => and_congr_right' Option.some_inj

theorem map_eq_none_iff {f : α → β} : map f p cs = none ↔ p cs = none := by
  show Option.bind _ _ = _ ↔ _
  cases p cs with
  | none => exact iff_of_true rfl rfl
  | some r => exact iff_of_false (fun h => by cases h) (fun h => by cases h)

theorem both_eq_some_iff : both p q cs = some ((a, b), rest) ↔
    ∃ mid, p cs = some (a, mid) ∧ q mid = some (b, rest) := by
  show Option.bind _ _ = _ ↔ _
  constructor
  · intro h
    obtain ⟨⟨a', mid⟩, ha, h⟩ := Option.bind_eq_some_iff.mp h
    obtain ⟨⟨b', rest'⟩, hb, h⟩ := Option.map_eq_some_iff.mp h
    cases h
    exact ⟨mid, ha, hb⟩
  · rintro ⟨mid, ha, hb⟩
    rw [ha]
    show Option.map _ (q mid) = _
    rw [hb]
    rfl

theorem both_of_some (h : p cs = some (a, mid)) (q : Parser β) :
    both p q cs = (q mid).map fun r => ((a, r.1), r.2) := by
  show Option.bind _ _ = _
  rw [h]
  rfl

theorem both_eq_none (h : p cs = none) : both p q cs = none := by
  show Option.bind _ _ = none
  rw [h]
  rfl

theorem skipThen_eq_some_iff : skipThen p q cs = some (b, rest) ↔
    ∃ a mid, p cs = some (a, mid) ∧ q mid = some (b, rest) := by
  unfold skipThen
  rw [map_eq_some_iff]
  constructor
  · rintro ⟨⟨a, b'⟩, h, rfl⟩
    exact ⟨a, both_eq_some_iff.mp h⟩
  · rintro ⟨a, h⟩
    exact ⟨(a, b), both_eq_some_iff.mpr h, rfl⟩

theorem skipThen_of_some (h : p cs = some (a, mid)) (q : Parser β) : skipThen p q cs = q mid := by
  show Option.bind (both p q cs) _ = _
  rw [both_of_some h]
  cases q mid <;> rfl

theorem skipThen_eq_none (h : p cs = none) : skipThen p q cs = none :=
  map_eq_none_iff.mpr (both_eq_none h)

theorem thenSkip_eq_some_iff : thenSkip p q cs = some (a, rest) ↔
    ∃ b mid, p cs = some (a, mid) ∧ q mid = some (b, rest) := by
  unfold thenSkip
  rw [map_eq_some_iff]
  constructor
  · rintro ⟨⟨a', b⟩, h, rfl⟩
    exact ⟨b, both_eq_some_iff.mp h⟩
  · rintro ⟨b, h⟩
    exact ⟨(a, b), both_eq_some_iff.mpr h, rfl⟩

theorem thenSkip_of_some (h : p cs = some (a, mid)) (q : Parser β) :
    thenSkip p q cs = (q mid).map fun r => (a, r.2) := by
  show Option.bind (both p q cs) _ = _
  rw [both_of_some h]
  cases q mid <;> rfl

theorem orElse_eq_some_iff {q : Parser α} : orElse p q cs = some (a, rest) ↔
    p cs = some (a, rest) ∨ p cs = none ∧ q cs = some (a, rest) :=
  Option.or_eq_some_iff

theorem orElse_eq_none_iff {q : Parser α} : orElse p q cs = none ↔ p cs = none ∧ q cs = none :=
  Option.or_eq_none_iff

theorem orElse_of_none {q : Parser α} (h : p cs = none) : orElse p q cs = q cs := by
  show Option.or _ _ = _
  rw [h, Option.none_or]

theorem orElse_of_right_none {q : Parser α} (h : q cs = none) : orElse p q cs = p cs := by
  show Option.or _ _ = _
  rw [h, Option.or_none]

theorem padded_eq_some_iff : padded p cs = some (a, rest) ↔
    ∃ mid, p (unpadded cs) = some (a, mid) ∧ unpadded mid = rest := by
  show Option.map _ _ = _ ↔ _
  rw [Option.map_eq_some_iff]
  constructor
  · rintro ⟨⟨a', mid⟩, ha, h⟩
    cases h
    exact ⟨mid, ha, rfl⟩
  · rintro ⟨mid, ha, rfl⟩
    exact ⟨(a, mid), ha, rfl⟩

theorem padded_eq_none_iff : padded p cs = none ↔ p (unpadded cs) = none :=
  Option.map_eq_none_iff

theorem thenSkip_ending_eq_some_iff :
    thenSkip p ending cs = some (a, rest) ↔ p cs = some (a, []) ∧ rest = [] := by
  rw [thenSkip_eq_some_iff]
  constructor
  · rintro ⟨u, mid, ha, hend⟩
    cases mid with
    | nil =>
      cases hend
      exact ⟨ha, rfl⟩
    | cons _ _ => cases hend
  · rintro ⟨ha, rfl⟩
    exact ⟨(), [], ha, rfl⟩

/-! ### Repetitions -/

/-- The parts follow each other, from the text to the rest. -/
inductive Parts (p : Parser α) : List Char → List α → List Char → Prop
  | nil (cs : List Char) : Parts p cs [] cs
  | cons {a : α} {as : List α} {cs mid rest : List Char} : p cs = some (a, mid) →
    Parts p mid as rest → Parts p cs (a :: as) rest

theorem Parts.concat (h : Parts p cs as mid) (ha : p mid = some (a, rest)) :
    Parts p cs (as ++ [a]) rest := by
  induction h with
  | nil => exact .cons ha (.nil rest)
  | cons hb _ ih => exact .cons hb (ih ha)

/-- Whatever the parser takes is not empty. -/
def Consumes (p : Parser α) : Prop := ∀ cs a rest, p cs = some (a, rest) → rest.length < cs.length

theorem Consumes.nil (hp : Consumes p) : p [] = none := by
  rw [Option.eq_none_iff_forall_ne_some]
  rintro ⟨a, rest⟩ h
  exact Nat.not_lt_zero _ (hp _ _ _ h)

theorem repeated_of_none (h : p cs = none) : repeated p cs = ([], cs) := by
  unfold repeated
  rw [h]

theorem repeated_of_some (hp : Consumes p) (h : p cs = some (a, rest)) :
    repeated p cs = (a :: (repeated p rest).1, (repeated p rest).2) := by
  rw [repeated, h]
  exact if_pos (hp _ _ _ h)

/-- **A repetition takes parts up to where its parser fails.** -/
theorem many_eq_some_iff (hp : Consumes p) :
    many p cs = some (as, rest) ↔ Parts p cs as rest ∧ p rest = none := by
  have hrun : many p cs = some (repeated p cs) := rfl
  rw [hrun, Option.some_inj]
  constructor
  · intro h
    clear hrun
    fun_induction repeated p cs generalizing as rest with
    | case1 cs hnone =>
      cases h
      exact ⟨.nil cs, hnone⟩
    | case2 cs a mid hsome _ ih =>
      cases h
      obtain ⟨hparts, hnone⟩ := ih rfl
      exact ⟨.cons hsome hparts, hnone⟩
    | case3 cs a mid hsome hlt => exact absurd (hp _ _ _ hsome) hlt
  · rintro ⟨h, hnone⟩
    clear hrun
    induction h with
    | nil => exact repeated_of_none hnone
    | cons hsome _ ih => rw [repeated_of_some hp hsome, ih hnone]

theorem optional_of_none (h : p cs = none) : optional p cs = some (none, cs) :=
  orElse_of_none (map_eq_none_iff.mpr h)

theorem optional_of_some (h : p cs = some (a, rest)) : optional p cs = some (some a, rest) :=
  orElse_eq_some_iff.mpr (.inl (map_eq_some_iff.mpr ⟨a, h, rfl⟩))

theorem sepBy_of_none (h : p cs = none) (sep : Parser β) : sepBy p sep cs = some ([], cs) :=
  orElse_of_none (map_eq_none_iff.mpr (both_eq_none h))

theorem sepBy_of_some (h : p cs = some (a, mid)) (sep : Parser β) : sepBy p sep cs =
    some (a :: (repeated (skipThen sep p) mid).1, (repeated (skipThen sep p) mid).2) :=
  orElse_eq_some_iff.mpr (.inl (map_eq_some_iff.mpr
    ⟨(a, (repeated (skipThen sep p) mid).1), both_eq_some_iff.mpr ⟨mid, h, rfl⟩, rfl⟩))

/-! ### Parsers that take something -/

theorem consumes_just (h : text ≠ []) : Consumes (just text) := by
  intro cs u rest hread
  rw [just_eq_some_iff.mp hread, List.length_append]
  exact Nat.lt_add_of_pos_left (List.length_pos_iff.mpr h)

theorem Consumes.padded (hp : Consumes p) : Consumes (padded p) := by
  intro cs a rest h
  obtain ⟨mid, ha, rfl⟩ := padded_eq_some_iff.mp h
  have hmid := hp _ _ _ ha
  exact Nat.lt_of_le_of_lt (length_unpadded_le mid)
    (Nat.lt_of_lt_of_le hmid (length_unpadded_le cs))

theorem Consumes.filterMap (hp : Consumes p) (f : α → Option β) : Consumes (filterMap f p) := by
  intro cs b rest h
  obtain ⟨a, ha, -⟩ := filterMap_eq_some_iff.mp h
  exact hp _ _ _ ha

theorem Consumes.map (hp : Consumes p) (f : α → β) : Consumes (map f p) := hp.filterMap _

theorem Consumes.both_left (hp : Consumes p) (q : Parser β) : Consumes (both p q) := by
  intro cs ab rest h
  obtain ⟨mid, ha, hb⟩ := both_eq_some_iff.mp h
  exact Nat.lt_of_le_of_lt (q.length_le hb) (hp _ _ _ ha)

theorem Consumes.both_right (hq : Consumes q) (p : Parser α) : Consumes (both p q) := by
  intro cs ab rest h
  obtain ⟨mid, ha, hb⟩ := both_eq_some_iff.mp h
  exact Nat.lt_of_lt_of_le (hq _ _ _ hb) (p.length_le ha)

theorem Consumes.orElse {q : Parser α} (hp : Consumes p) (hq : Consumes q) :
    Consumes (orElse p q) := by
  intro cs a rest h
  rcases orElse_eq_some_iff.mp h with h | ⟨-, h⟩
  · exact hp _ _ _ h
  · exact hq _ _ _ h

theorem Consumes.skipThen (hp : Consumes p) (q : Parser β) : Consumes (skipThen p q) := by
  intro cs b rest h
  obtain ⟨a, mid, ha, hb⟩ := skipThen_eq_some_iff.mp h
  exact Nat.lt_of_le_of_lt (q.length_le hb) (hp _ _ _ ha)

theorem consumes_char (c : Char → Bool) : Consumes (char c) := by
  intro cs d rest h
  rw [(char_eq_some_iff.mp h).1]
  exact Nat.lt_succ_self _

/-- A repeated class takes the characters up to one that is not of the class. -/
theorem many_char (c : Char → Bool) (cs : List Char) :
    many (char c) cs = some (cs.takeWhile c, cs.dropWhile c) := by
  show some (repeated (char c) cs) = _
  rw [Option.some_inj]
  induction cs with
  | nil => exact repeated_of_none rfl
  | cons d cs ih =>
    by_cases hd : c d
    · have hread : char c (d :: cs) = some (d, cs) := if_pos hd
      rw [repeated_of_some (consumes_char c) hread, ih, List.takeWhile_cons_of_pos hd,
        List.dropWhile_cons_of_pos hd]
    · have hread : char c (d :: cs) = none := if_neg hd
      rw [repeated_of_none hread, List.takeWhile_cons_of_neg hd, List.dropWhile_cons_of_neg hd]

theorem many_char_append {c : Char → Bool} (htext : ∀ d ∈ text, c d)
    (hrest : ∀ d ∈ rest.head?, ¬c d) :
    many (char c) (text ++ rest) = some (text, rest) := by
  rw [many_char, List.takeWhile_append_of_pos htext, List.dropWhile_append_of_pos htext]
  cases rest with
  | nil => rw [List.takeWhile_nil, List.dropWhile_nil, List.append_nil]
  | cons d rest =>
    have hd : ¬c d := hrest d rfl
    rw [List.takeWhile_cons_of_neg hd, List.dropWhile_cons_of_neg hd, List.append_nil]

end Parser
end LeastGlut.Text
