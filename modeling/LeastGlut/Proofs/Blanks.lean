/-
# Blanks in the text of a formula

Which blanks stand in a text does not matter: with other blanks in their places, it splits
into the same tokens (`Formula.Splits.alike`). Nor do blanks around it. So the text of a
formula that is written over several lines is read as the one line that it becomes when each
line feed is made a space, and a knowledge base of that line is the formula
(`Formula.read_eq_ok_iff_read_spaced`).

Key definitions: `Text.Alike`, `Text.spaced`.
-/
import LeastGlut.Proofs.Displays
import Mathlib.Data.List.Forall2

namespace LeastGlut

namespace Text

/-- The same character, or two blanks. -/
def Alike (c d : Char) : Prop := c = d ∨ isBlank c ∧ isBlank d

/-- Makes a line feed a space. -/
def spaced (c : Char) : Char := if c = '\n' then ' ' else c

variable {c d : Char} {cs ds xs : List Char}

theorem Alike.symm (h : Alike c d) : Alike d c := h.imp Eq.symm And.symm

theorem Alike.isBlank_eq (h : Alike c d) : isBlank c = isBlank d := by
  rcases h with rfl | ⟨hc, hd⟩
  · rfl
  · rw [hc, hd]

theorem alike_spaced (c : Char) : Alike c (spaced c) := by
  unfold spaced
  by_cases hc : c = '\n'
  · rw [if_pos hc, hc]
    exact .inr ⟨rfl, rfl⟩
  · rw [if_neg hc]
    exact .inl rfl

theorem not_mem_map_spaced (cs : List Char) : '\n' ∉ cs.map spaced := by
  intro h
  obtain ⟨c, -, hc⟩ := List.mem_map.mp h
  unfold spaced at hc
  by_cases hfeed : c = '\n'
  · rw [if_pos hfeed] at hc
    exact absurd hc (by decide)
  · rw [if_neg hfeed] at hc
    exact hfeed hc

/-- What is no blank stands in both texts. -/
theorem exists_append_of_alike (hxs : ∀ c ∈ xs, isBlank c = false)
    (h : List.Forall₂ Alike (xs ++ cs) ds) : ∃ es, ds = xs ++ es ∧ List.Forall₂ Alike cs es := by
  induction xs generalizing ds with
  | nil => exact ⟨ds, rfl, h⟩
  | cons x xs ih =>
    rw [List.forall_mem_cons] at hxs
    obtain ⟨d, ds, hd, htail, rfl⟩ := List.forall₂_cons_left_iff.mp h
    obtain ⟨es, rfl, hes⟩ := ih hxs.2 htail
    rcases hd with rfl | ⟨hx, -⟩
    · exact ⟨es, rfl, hes⟩
    · rw [hxs.1] at hx
      cases hx

end Text

namespace Formula

open Text

variable {cs ds u v : List Char} {c : Char} {t : Token} {ts : List Token} {f : Formula}

theorem Token.EndsAt.alike (h : t.EndsAt cs) (hds : List.Forall₂ Alike cs ds) : t.EndsAt ds := by
  cases t with
  | atom name =>
    intro d hd hname
    cases hds with
    | nil => cases hd
    | @cons c d' cs ds hcd _ =>
      obtain rfl : d' = d := Option.some_inj.mp hd
      rcases hcd with rfl | ⟨-, hblank⟩
      · exact h c rfl hname
      · rw [hname.isBlank_eq_false] at hblank
        cases hblank
  | _ => trivial

/-- **Other blanks in their places** leave the tokens of a text as they are. -/
theorem Splits.alike (h : Splits cs ts) (hds : List.Forall₂ Alike cs ds) : Splits ds ts := by
  induction h generalizing ds with
  | nil =>
    rw [List.forall₂_nil_left_iff.mp hds]
    exact .nil
  | blank hc _ ih =>
    obtain ⟨d, ds, hd, htail, rfl⟩ := List.forall₂_cons_left_iff.mp hds
    rw [hd.isBlank_eq] at hc
    exact .blank hc (ih htail)
  | token hp he _ ih =>
    obtain ⟨es, rfl, hes⟩ := exists_append_of_alike (fun c hc => hp.isBlank_eq_false hc) hds
    exact .token hp (he.alike hes) (ih hes)

theorem written_congr (h : List.Forall₂ Alike cs ds) : Written cs f ↔ Written ds f := by
  have hback : List.Forall₂ Alike ds cs := (h.imp fun _ _ => Alike.symm).flip
  exact exists_congr fun ts => and_congr_left' ⟨fun hs => hs.alike h, fun hs => hs.alike hback⟩

/-! ### Blanks around a text -/

theorem splits_blank_cons (hc : isBlank c) : Splits (c :: cs) ts ↔ Splits cs ts := by
  constructor
  · intro h
    generalize heq : c :: cs = as at h
    cases h with
    | nil => cases heq
    | blank _ h =>
      rw [(List.cons.inj heq).2]
      exact h
    | @token t as ts hp _ _ =>
      -- no token starts with a blank
      obtain ⟨d, ds, ht⟩ := List.exists_cons_of_ne_nil hp.text_ne_nil
      have hd : isBlank d = false := hp.isBlank_eq_false (ht ▸ List.mem_cons_self)
      rw [ht, List.cons_append] at heq
      rw [← (List.cons.inj heq).1, hc] at hd
      cases hd
  · exact .blank hc

theorem splits_blanks_append (hu : ∀ c ∈ u, isBlank c) : Splits (u ++ cs) ts ↔ Splits cs ts := by
  induction u with
  | nil => rfl
  | cons c u ih =>
    rw [List.forall_mem_cons] at hu
    exact (splits_blank_cons hu.1).trans (ih hu.2)

/-- Blanks around a text make no difference to what it is read as. -/
theorem read_padded_eq_ok_iff (hu : ∀ c ∈ u, isBlank c) (hv : ∀ c ∈ v, isBlank c) :
    read (u ++ cs ++ v) = .ok f ↔ read cs = .ok f := by
  have hsplits : ∀ ts, Splits (u ++ cs ++ v) ts ↔ Splits cs ts := fun ts =>
    (splits_append_blanks hv).trans (splits_blanks_append hu)
  rw [read_eq_ok_iff, read_eq_ok_iff]
  exact exists_congr fun ts => and_congr_left' (hsplits ts)

end Formula

namespace KnowledgeBase

open Text

variable {ss : List (List Char)} {text : String} {f : Formula}

/-! ### One line of a knowledge base -/

theorem readLines_of_isBlank (h : ∀ s ∈ ss, ∀ c ∈ s, isBlank c) (line offset : Nat) :
    readLines line offset ss = .ok [] := by
  induction ss generalizing line offset with
  | nil => rfl
  | cons s ss ih =>
    rw [List.forall_mem_cons] at h
    obtain ⟨bs, hs, -⟩ := exists_lineBody s
    have hbody : (lineBody s).all isBlank := List.all_eq_true.mpr fun c hc =>
      h.1 c (hs ▸ List.mem_append_left bs hc)
    have hline : readLine (lineBody s) = .ok none := if_pos hbody
    rw [readLines, hline, ih h.2]
    rfl

/-- A text of blanks alone holds no formulas. -/
theorem read_of_isBlank (h : ∀ c ∈ text.toList, isBlank c) : read text = .ok ⟨[]⟩ := by
  have hsegments : ∀ s ∈ segments text.toList, ∀ c ∈ s, isBlank c := fun s hs c hc =>
    h c (flatten_segments text.toList ▸ List.mem_flatten_of_mem hs hc)
  rw [read, readLines_of_isBlank hsegments]
  rfl

/-- A text of one line, blank or not, is read as one formula just when it is written as the
formula. -/
theorem read_singleton_iff_written (hline : '\n' ∉ text.toList) :
    read text = .ok ⟨[f]⟩ ↔ Formula.Written text.toList f := by
  by_cases hblank : ∃ c ∈ text.toList, ¬isBlank c
  · exact read_eq_ok_singleton_iff hline hblank
  · have hall : ∀ c ∈ text.toList, isBlank c := by simpa using hblank
    rw [read_of_isBlank hall]
    exact iff_of_false (fun h => by cases h) (fun hw => hblank hw.exists_not_isBlank)

end KnowledgeBase

namespace Formula

open Text

/-- **The two readers agree.** A text is read as a formula just when the one line that it
becomes with its line feeds made spaces is read as the knowledge base of that formula; blanks
around the text make no difference. -/
theorem read_eq_ok_iff_read_spaced (text : String) (f : Formula) :
    (read text.toList = .ok f ↔ KnowledgeBase.read (text.map spaced) = .ok ⟨[f]⟩) ∧
      ∀ u v, (∀ c ∈ u, isBlank c) → (∀ c ∈ v, isBlank c) →
        (read (u ++ text.toList ++ v) = .ok f ↔ read text.toList = .ok f) := by
  have hlist : (text.map spaced).toList = text.toList.map spaced := String.toList_map
  have hline : '\n' ∉ (text.map spaced).toList := by
    rw [hlist]
    exact not_mem_map_spaced text.toList
  have halike : List.Forall₂ Alike text.toList (text.toList.map spaced) :=
    List.forall₂_map_right_iff.mpr (List.forall₂_same.mpr fun c _ => alike_spaced c)
  refine ⟨?_, fun u v hu hv => read_padded_eq_ok_iff hu hv⟩
  calc read text.toList = .ok f ↔ Written text.toList f := read_eq_ok_iff
    _ ↔ Written (text.map spaced).toList f := hlist ▸ written_congr halike
    _ ↔ KnowledgeBase.read (text.map spaced) = .ok ⟨[f]⟩ :=
        (KnowledgeBase.read_singleton_iff_written hline).symm

theorem read_eq_ok_iff_read_spaced_lines :
    let text := "!\n(A &&\r\n\u2003B)"
    let f : Formula := .not (.and (.atom "A") (.atom "B"))
    read text.toList = .ok f ∧ KnowledgeBase.read (text.map spaced) = .ok ⟨[f]⟩ ∧
      read (['\n'] ++ text.toList ++ ['\r', '\n']) = .ok f := by
  intro text f
  obtain ⟨hspaced, hpadded⟩ := read_eq_ok_iff_read_spaced text f
  have hread : read text.toList = .ok f := by decide
  have hu : ∀ c ∈ ['\n'], isBlank c := List.all_eq_true.mp (by decide)
  have hv : ∀ c ∈ ['\r', '\n'], isBlank c := List.all_eq_true.mp (by decide)
  exact ⟨hread, hspaced.mp hread, (hpadded _ _ hu hv).mpr hread⟩

end Formula
end LeastGlut
