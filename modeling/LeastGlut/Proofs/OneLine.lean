/-
# Texts without a line feed

Numbers, quoted text, and what is put together from texts on one line stay on
one line. A list of lines is what a text is split into at its line feeds just
when none of them holds one and there is a line at all
(`Text.splitOn_intercalate_iff`).

Key definitions: `Text.OneLine`.
-/
import LeastGlut.Text.Quoted
import Mathlib.Tactic.SplitIfs

namespace LeastGlut

namespace Text

variable {s t : String} {l : List String}

/-- The text stays on one line. -/
def OneLine (s : String) : Prop := '\n' ∉ s.toList

instance (s : String) : Decidable (OneLine s) := inferInstanceAs (Decidable (¬_))

theorem oneLine_append : OneLine (s ++ t) ↔ OneLine s ∧ OneLine t := by
  simp only [OneLine, String.toList_append, List.mem_append, not_or]

theorem oneLine_join : OneLine (String.join l) ↔ ∀ s ∈ l, OneLine s := by
  simp only [OneLine, String.toList_join, List.mem_flatMap, not_exists, not_and]

theorem oneLine_intercalate (hs : OneLine s) (h : ∀ t ∈ l, OneLine t) :
    OneLine (s.intercalate l) := by
  induction l with
  | nil => exact List.not_mem_nil
  | cons t l ih =>
    obtain ⟨ht, hl⟩ := List.forall_mem_cons.mp h
    cases l with
    | nil =>
      rw [String.intercalate_singleton]
      exact ht
    | cons u l =>
      rw [String.intercalate_cons_cons, oneLine_append, oneLine_append]
      exact ⟨⟨ht, hs⟩, ih hl⟩

theorem toList_toString (n : Nat) : (toString n).toList = Nat.toDigits 10 n := by
  rw [Nat.toString_eq_repr, Nat.toList_repr]

/-- A numeral is of one number. -/
theorem toString_injective {m n : Nat} (h : toString m = toString n) : m = n := by
  have hdigits : Nat.toDigits 10 m = Nat.toDigits 10 n := by
    rw [← toList_toString, h, toList_toString]
  have hread := congrArg (Nat.ofDigitChars 10 · 0) hdigits
  simpa only [Nat.ofDigitChars_ten_toDigits] using hread

theorem isDigit_of_mem_toString (n : Nat) : ∀ c ∈ (toString n).toList, c.isDigit := fun c hc =>
  Nat.isDigit_of_mem_toDigits (by decide) (by decide) (toList_toString n ▸ hc)

theorem bounds_of_mem_toString (n : Nat) : ∀ c ∈ (toString n).toList, '0' ≤ c ∧ c ≤ '9' := by
  intro c hc
  have hdigit := isDigit_of_mem_toString n c hc
  rw [Char.isDigit, Bool.and_eq_true, decide_eq_true_eq, decide_eq_true_eq] at hdigit
  exact hdigit

theorem oneLine_toString_nat (n : Nat) : OneLine (toString n) := fun h =>
  absurd (isDigit_of_mem_toString n _ h) (by decide)

theorem not_mem_toDigitsCore (fuel n : Nat) {cs : List Char} (h : '\n' ∉ cs) :
    '\n' ∉ Nat.toDigitsCore 16 fuel n cs := by
  induction fuel generalizing n cs with
  | zero => exact h
  | succ fuel ih =>
    have hdigit : ∀ k < 16, '\n' ≠ Nat.digitChar k := by decide
    have hcs : '\n' ∉ Nat.digitChar (n % 16) :: cs := by
      rw [List.mem_cons, not_or]
      exact ⟨hdigit _ (Nat.mod_lt n (by decide)), h⟩
    unfold Nat.toDigitsCore
    dsimp only
    split
    · exact hcs
    · exact ih _ hcs

theorem oneLine_escape (marks : List Char) (c : Char) : OneLine (escape marks c) := by
  by_cases hc : c = '\n'
  · subst hc
    exact (by decide : OneLine "\\n")
  have hchar : OneLine c.toString := by
    simp [OneLine, eq_comm, hc]
  have hdigits : OneLine (String.ofList (Nat.toDigits 16 c.toNat)) := by
    rw [OneLine, String.toList_ofList]
    exact not_mem_toDigitsCore _ _ List.not_mem_nil
  unfold escape
  rw [if_neg hc]
  split_ifs
  · decide
  · decide
  · decide
  · exact oneLine_append.mpr ⟨by decide, hchar⟩
  · exact oneLine_append.mpr ⟨oneLine_append.mpr ⟨by decide, hdigits⟩, by decide⟩
  · exact hchar

/-- **Quoted text stays on one line,** whatever the text is. -/
theorem oneLine_quoted (s : String) : OneLine (quoted s) := by
  unfold quoted
  rw [oneLine_append, oneLine_append, oneLine_join, List.forall_mem_map]
  exact ⟨⟨by decide, fun c _ => oneLine_escape _ c⟩, by decide⟩

/-- A piece of a split text does not hold what it was split at. -/
theorem not_mem_of_mem_splitOn {sep : Char} {cs piece : List Char} (h : piece ∈ cs.splitOn sep) :
    sep ∉ piece := by
  induction cs generalizing piece with
  | nil =>
    rw [List.splitOn_nil, List.mem_singleton] at h
    rw [h]
    exact List.not_mem_nil
  | cons c cs ih =>
    obtain ⟨first, rest, hsplit⟩ := List.exists_cons_of_ne_nil (List.splitOn_ne_nil sep cs)
    rw [List.splitOn_cons_eq_if_modifyHead] at h
    split at h
    next =>
      rcases List.mem_cons.mp h with rfl | h
      · exact List.not_mem_nil
      · exact ih h
    next hne =>
      rw [hsplit] at ih h
      rcases List.mem_cons.mp h with rfl | h
      · have hc : sep ≠ c := fun heq => hne (beq_iff_eq.mpr heq.symm)
        have hfirst : sep ∉ first := ih List.mem_cons_self
        rw [List.mem_cons, not_or]
        exact ⟨hc, hfirst⟩
      · exact ih (List.mem_cons_of_mem _ h)

theorem splitOn_intercalate_iff {sep : Char} {lines : List (List Char)} :
    ([sep].intercalate lines).splitOn sep = lines ↔ lines ≠ [] ∧ ∀ line ∈ lines, sep ∉ line := by
  constructor
  · intro h
    have hne : ([sep].intercalate lines).splitOn sep ≠ [] := List.splitOn_ne_nil _ _
    rw [h] at hne
    refine ⟨hne, fun line hline => ?_⟩
    rw [← h] at hline
    exact not_mem_of_mem_splitOn hline
  · intro h
    exact List.splitOn_intercalate sep h.2 h.1

end Text
end LeastGlut
