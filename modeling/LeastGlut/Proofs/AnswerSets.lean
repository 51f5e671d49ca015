/-
# Answer sets

A ground rule has a head and a body. The head is one atom, a choice among
atoms, or falsity; the body asks for atoms, for their absence, or for the
number of tuples whose atoms are all there.

Rules are read at two sets of atoms, `here` inside `there`. Absence is looked
up in `there`, and a choice may leave out here what is left out there. An
answer set satisfies its rules, and no proper subset satisfies them here with
the answer set there.

Every atom of an answer set has a rule that supports it
(`IsAnswerSet.supported`). Where the rules that apply have bodies of lower rank
than their heads, this suffices: a model all of whose atoms are supported is
an answer set (`isAnswerSet_of_supported`), and it is determined by what it
chooses (`eq_of_supported`).

Key definitions: `Rule`, `IsAnswerSet`, `Supported`, `Stratified`.
-/
import Mathlib.Data.Set.Card

namespace LeastGlut
namespace AnswerSets

/-- What a body asks for. -/
inductive Condition (τ α : Type)
  | present (a : α)
  | absent (a : α)
  /-- As many tuples have all of their atoms. -/
  | count (atoms : τ → List α) (size : Nat)

/-- What a rule concludes. -/
inductive Head (α : Type)
  | atom (a : α)
  /-- Between `least` and `most` of the atoms on offer, each under conditions. -/
  | choice (least most : Nat) (offers : List (α × List α))
  | falsity

/-- A ground rule. -/
structure Rule (τ α : Type) where
  head : Head α
  body : List (Condition τ α)

variable {τ α : Type} {I J M : Set α} {P D : Set (Rule τ α)} {a : α}

/-! ### Satisfaction -/

/-- The tuples all of whose atoms are there. -/
def tuples (atoms : τ → List α) (I : Set α) : Set τ := {g | ∀ a ∈ atoms g, a ∈ I}

/-- The atoms on offer whose conditions are there. -/
def offered (offers : List (α × List α)) (I : Set α) : Set α :=
  {a | ∃ o ∈ offers, o.1 = a ∧ ∀ c ∈ o.2, c ∈ I}

def Condition.Sat (here there : Set α) : Condition τ α → Prop
  | present a => a ∈ here
  | absent a => a ∉ there
  | count atoms size => (tuples atoms here).encard = size ∧ (tuples atoms there).encard = size

def Head.Sat (here there : Set α) : Head α → Prop
  | atom a => a ∈ here
  | choice least most offers => (∀ a ∈ offered offers here, a ∈ here ∨ a ∉ there) ∧
      least ≤ (offered offers there ∩ there).encard ∧
      (offered offers there ∩ there).encard ≤ most
  | falsity => False

/-- The conditions of the body are satisfied. -/
def Rule.Applies (here there : Set α) (r : Rule τ α) : Prop := ∀ c ∈ r.body, c.Sat here there

def Rule.Sat (here there : Set α) (r : Rule τ α) : Prop :=
  r.Applies here there → r.head.Sat here there

/-- The set satisfies the rules, and no proper subset does with absence as in the set. -/
structure IsAnswerSet (P : Set (Rule τ α)) (I : Set α) : Prop where
  model : ∀ r ∈ P, r.Sat I I
  minimal : ∀ J ⊆ I, (∀ r ∈ P, r.Sat J I) → J = I

theorem Condition.Sat.there {c : Condition τ α} (h : c.Sat J I) (hJ : J ⊆ I) : c.Sat I I := by
  cases c with
  | present a => exact hJ h
  | absent a => exact h
  | count atoms size => exact ⟨h.2, h.2⟩

theorem Rule.Applies.there {r : Rule τ α} (h : r.Applies J I) (hJ : J ⊆ I) : r.Applies I I :=
  fun c hc => (h c hc).there hJ

/-- Rules that conclude falsity only rule answer sets out. -/
theorem isAnswerSet_union_falsity (hD : ∀ r ∈ D, r.head = .falsity) :
    IsAnswerSet (P ∪ D) I ↔ IsAnswerSet P I ∧ ∀ r ∈ D, ¬r.Applies I I := by
  constructor
  · intro h
    have hno : ∀ r ∈ D, ¬r.Applies I I := fun r hr ha => by
      have hs := h.model r (Or.inr hr) ha
      rw [hD r hr] at hs
      exact hs
    refine ⟨⟨fun r hr => h.model r (Or.inl hr), fun J hJ hs => h.minimal J hJ fun r hr => ?_⟩, hno⟩
    rcases hr with hr | hr
    · exact hs r hr
    · exact fun ha => absurd (ha.there hJ) (hno r hr)
  · intro hp
    obtain ⟨h, hno⟩ := hp
    refine ⟨fun r hr => ?_, fun J hJ hs => h.minimal J hJ fun r hr => hs r (Or.inl hr)⟩
    rcases hr with hr | hr
    · exact h.model r hr
    · exact fun ha => absurd ha (hno r hr)

/-! ### Support -/

/-- The rule may conclude the atom. -/
def Head.Offers (I : Set α) (a : α) : Head α → Prop
  | atom b => b = a
  | choice _ _ offers => a ∈ offered offers I
  | falsity => False

/-- A rule that applies may conclude the atom. -/
def Supported (P : Set (Rule τ α)) (I : Set α) (a : α) : Prop :=
  ∃ r ∈ P, r.Applies I I ∧ r.head.Offers I a

theorem supported_of_atom {body : List (Condition τ α)} (hr : ⟨.atom a, body⟩ ∈ P)
    (hb : ∀ c ∈ body, c.Sat I I) : Supported P I a := ⟨_, hr, hb, rfl⟩

theorem offered_mono (offers : List (α × List α)) (hJ : J ⊆ I) :
    offered offers J ⊆ offered offers I := by
  rintro a ⟨o, ho, hoa, hc⟩
  exact ⟨o, ho, hoa, fun c hco => hJ (hc c hco)⟩

/-- **Atoms of an answer set are supported.** -/
theorem IsAnswerSet.supported (h : IsAnswerSet P I) (ha : a ∈ I) : Supported P I a := by
  by_contra hn
  have hsub : I \ {a} ⊆ I := Set.sdiff_subset
  have hkeep : ∀ {r : Rule τ α}, r ∈ P → r.Applies I I → ∀ b, r.head.Offers I b → b ∈ I →
      b ∈ I \ {a} := fun {r} hr hb b ho hbI =>
    ⟨hbI, fun hba => hn ⟨r, hr, hb, (Set.mem_singleton_iff.mp hba) ▸ ho⟩⟩
  have heq := h.minimal (I \ {a}) hsub fun r hr hb => by
    have hbI := hb.there hsub
    have hs := h.model r hr hbI
    have hk := hkeep hr hbI
    cases hh : r.head with
    | atom b =>
      rw [hh] at hs hk
      exact hk b rfl hs
    | choice least most offers =>
      rw [hh] at hs hk
      refine ⟨fun b hbo => ?_, hs.2⟩
      have hbo' := offered_mono offers hsub hbo
      exact (hs.1 b hbo').imp_left (hk b hbo')
    | falsity =>
      rw [hh] at hs
      exact hs
  rw [← heq] at ha
  exact ha.2 rfl

/-! ### Ranks -/

section

variable {β : Type} [Preorder β] {rank : α → β} {k : β}

/-- Whether the condition holds is settled by the atoms of lower rank. -/
def Condition.Below (rank : α → β) (I : Set α) (k : β) : Condition τ α → Prop
  | present a => rank a < k
  | absent a => rank a < k
  | count atoms _ => ∀ g, (∀ a ∈ atoms g, rank a < k) ∨ ∃ a ∈ atoms g, rank a < k ∧ a ∉ I

/-- A rule that applies concludes atoms of higher rank than those it asks for. -/
structure Stratified (rank : α → β) (P : Set (Rule τ α)) (I : Set α) : Prop where
  body : ∀ r ∈ P, r.Applies I I → ∀ a, r.head.Offers I a → ∀ c ∈ r.body, c.Below rank I (rank a)
  offers : ∀ r ∈ P, ∀ {least most offers}, r.head = .choice least most offers →
    ∀ o ∈ offers, ∀ c ∈ o.2, rank c < rank o.1

theorem tuples_congr {atoms : τ → List α} (h : ∀ a, rank a < k → (a ∈ I ↔ a ∈ M))
    (hb : ∀ g, (∀ a ∈ atoms g, rank a < k) ∨ ∃ a ∈ atoms g, rank a < k ∧ a ∉ I) :
    tuples atoms I = tuples atoms M := by
  ext g
  rcases hb g with hb | ⟨a, ha, hlt, hn⟩
  · exact forall₂_congr fun a ha => h a (hb a ha)
  · exact iff_of_false (fun hg => hn (hg a ha)) fun hg => hn ((h a hlt).mpr (hg a ha))

theorem Condition.Below.sat_congr {c : Condition τ α} (hb : c.Below rank I k)
    (h : ∀ a, rank a < k → (a ∈ I ↔ a ∈ M)) (hc : c.Sat I I) : c.Sat M M := by
  cases c with
  | present a => exact (h a hb).mp hc
  | absent a => exact fun ha => hc ((h a hb).mpr ha)
  | count atoms size =>
    have ht := tuples_congr h hb
    rw [Condition.Sat, ← ht]
    exact hc

variable [WellFoundedLT β]

/-- **A model whose atoms are supported is an answer set.** -/
theorem isAnswerSet_of_supported (hm : ∀ r ∈ P, r.Sat I I) (hs : ∀ a ∈ I, Supported P I a)
    (hr : Stratified rank P I) : IsAnswerSet P I where
  model := hm
  minimal J hJ hJr := by
    refine Set.Subset.antisymm hJ fun a => ?_
    induction hk : rank a using WellFoundedLT.induction generalizing a with
    | ind k ih =>
      intro ha
      subst hk
      obtain ⟨r, hrP, hb, ho⟩ := hs a ha
      have hlow : ∀ b, rank b < rank a → (b ∈ I ↔ b ∈ J) := fun b hlt =>
        ⟨ih (rank b) hlt b rfl, fun h => hJ h⟩
      have hbJ : r.Applies J I := fun c hc => by
        have hbelow := hr.body r hrP hb a ho c hc
        cases c with
        | present b => exact (hlow b hbelow).mp (hb _ hc)
        | absent b => exact hb _ hc
        | count atoms size =>
          refine ⟨?_, (hb _ hc).2⟩
          rw [← tuples_congr hlow hbelow]
          exact (hb _ hc).2
      have hsat := hJr r hrP hbJ
      cases hh : r.head with
      | atom b =>
        rw [hh] at hsat ho
        exact (show b = a from ho) ▸ hsat
      | choice least most offers =>
        rw [hh] at hsat ho
        obtain ⟨o, hmem, hoa, hc⟩ := ho
        refine (hsat.1 a ⟨o, hmem, hoa, fun c hco => ?_⟩).resolve_right fun hn => hn ha
        exact (hlow c (hoa ▸ hr.offers r hrP hh o hmem c hco)).mp (hc c hco)
      | falsity =>
        rw [hh] at ho
        exact ho.elim

/-- **Two models whose atoms are supported are one when they choose the same.** -/
theorem eq_of_supported (hmI : ∀ r ∈ P, r.Sat I I) (hsI : ∀ a ∈ I, Supported P I a)
    (hrI : Stratified rank P I) (hmM : ∀ r ∈ P, r.Sat M M) (hsM : ∀ a ∈ M, Supported P M a)
    (hrM : Stratified rank P M)
    (hchoice : ∀ r ∈ P, ∀ {least most offers}, r.head = .choice least most offers →
      ∀ o ∈ offers, o.1 ∈ I ↔ o.1 ∈ M) : I = M := by
  have hstep : ∀ {K L : Set α}, (∀ a ∈ K, Supported P K a) → Stratified rank P K →
      (∀ r ∈ P, r.Sat L L) → (∀ r ∈ P, ∀ {least most offers}, r.head = .choice least most offers →
        ∀ o ∈ offers, o.1 ∈ K → o.1 ∈ L) →
      ∀ a, (∀ b, rank b < rank a → (b ∈ K ↔ b ∈ L)) → a ∈ K → a ∈ L := by
    intro K L hs hr hm hch a hlow ha
    obtain ⟨r, hrP, hb, ho⟩ := hs a ha
    have hsat := hm r hrP fun c hc => (hr.body r hrP hb a ho c hc).sat_congr hlow (hb c hc)
    cases hh : r.head with
    | atom b =>
      rw [hh] at hsat ho
      exact (show b = a from ho) ▸ hsat
    | choice least most offers =>
      rw [hh] at ho
      obtain ⟨o, hmem, rfl, -⟩ := ho
      exact hch r hrP hh o hmem ha
    | falsity =>
      rw [hh] at ho
      exact ho.elim
  ext a
  induction hk : rank a using WellFoundedLT.induction generalizing a with
  | ind k ih =>
    subst hk
    have hlow : ∀ b, rank b < rank a → (b ∈ I ↔ b ∈ M) := fun b hlt => ih (rank b) hlt b rfl
    exact ⟨hstep hsI hrI hmM (fun r hr _ _ _ hh o ho => (hchoice r hr hh o ho).mp) a hlow,
      hstep hsM hrM hmI (fun r hr _ _ _ hh o ho => (hchoice r hr hh o ho).mpr) a
        fun b hlt => (hlow b hlt).symm⟩

end

end AnswerSets
end LeastGlut
