/-
# Lawful oracles

An oracle is lawful when it finds a model that keeps the bound just when there
is one (`Oracle.Lawful`). All that is proved of optima holds for every lawful
oracle.

The oracle that splits is lawful (`Oracle.lawful_splitting`). Of its quotas it
is known at every time that their members are those under the bound, each in
one quota, and that no model makes fewer members of a quota true than its limit
(`Quota.Bounds`). A failure rests on some quotas, so every model exceeds one
of them, and this is what merging them says (`Quota.Bounds.merge`).

The oracle that writes the bound as clauses is lawful when the clauses say what
the bound says, with some choice of their own variables
(`Oracle.lawful_encoded`).

Key definitions: `Oracle.IsModel`, `Oracle.Lawful`, `Quota.Bounds`,
`Oracle.SaysAtMost`.
-/
import LeastGlut.Proofs.Search

namespace LeastGlut

namespace Residual

/-! ### The whole problem -/

theorem le_foldl_max {α : Type} (f : α → Nat) (as : List α) (n : Nat) :
    n ≤ as.foldl (fun n a => max n (f a)) n ∧
      ∀ a ∈ as, f a ≤ as.foldl (fun n a => max n (f a)) n := by
  induction as generalizing n with
  | nil => simp
  | cons a as ih =>
    obtain ⟨hn, hi⟩ := ih (max n (f a))
    refine ⟨Nat.le_trans (Nat.le_max_left _ _) hn, fun b hb => ?_⟩
    rcases List.mem_cons.mp hb with rfl | hb
    · exact Nat.le_trans (Nat.le_max_right _ _) hn
    · exact hi b hb

theorem le_foldl_foldl_max {α β : Type} (f : α → List β) (g : β → Nat) (as : List α) (n : Nat) :
    let after := as.foldl (fun n a => (f a).foldl (fun n b => max n (g b)) n) n
    n ≤ after ∧ ∀ a ∈ as, ∀ b ∈ f a, g b ≤ after := by
  induction as generalizing n with
  | nil => simp
  | cons a as ih =>
    obtain ⟨hn, hi⟩ := le_foldl_max g (f a) n
    obtain ⟨hn', hi'⟩ := ih ((f a).foldl (fun n b => max n (g b)) n)
    refine ⟨Nat.le_trans hn hn', fun d hd b hb => ?_⟩
    rcases List.mem_cons.mp hd with rfl | hd
    · exact Nat.le_trans (hi b hb) hn'
    · exact hi' d hd b hb

variable {clauses : List Clause} {quotas : List Quota}

theorem natAbs_le_maxIdent {c : Clause} (hc : c ∈ clauses) {l : Literal} (hl : l ∈ c) :
    Int.natAbs l ≤ maxIdent clauses quotas :=
  Nat.le_trans ((le_foldl_foldl_max id Int.natAbs clauses 0).2 c hc l hl) (Nat.le_max_left _ _)

theorem member_le_maxIdent {q : Quota} (hq : q ∈ quotas) {i : Nat} (hi : i ∈ q.members) :
    i ≤ maxIdent clauses quotas :=
  Nat.le_trans ((le_foldl_foldl_max Quota.members id quotas 0).2 q hq i hi) (Nat.le_max_right _ _)

theorem value?_blank (n i : Nat) : (Assignment.blank n).value? i = none := by
  unfold Assignment.value? Assignment.blank
  rw [Array.getElem?_replicate]
  split <;> rfl

/-- Before anything is decided, everything is left. -/
theorem leftOf_ofProblem (clauses : List Clause) (quotas : List Quota) :
    (ofProblem clauses quotas).LeftOf clauses quotas := by
  have hv := value?_blank (maxIdent clauses quotas)
  refine ⟨fun c hc => Or.inr ⟨⟨c, c⟩, List.mem_map.mpr ⟨c, hc, rfl⟩, rfl⟩, fun r hr => ?_,
    fun r hr l hl => ?_, fun r hr l hl => ?_, fun q hq => ?_, fun w hw => ?_, fun c hc l hl => ?_⟩
  · obtain ⟨c, hc, rfl⟩ := List.mem_map.mp hr
    exact hc
  · obtain ⟨c, hc, rfl⟩ := List.mem_map.mp hr
    exact ⟨hl, Assignment.literal?_eq_none_iff.mpr (hv _)⟩
  · obtain ⟨c, hc, rfl⟩ := List.mem_map.mp hr
    exact Or.inl hl
  · exact ⟨_, List.mem_map.mpr ⟨q, hq, rfl⟩, Allowance.tracks_ofQuota hv q⟩
  · obtain ⟨q, hq, rfl⟩ := List.mem_map.mp hw
    exact ⟨q, hq, Allowance.tracks_ofQuota hv q⟩
  · simp only [ofProblem, Assignment.blank, Array.size_replicate]
    exact Nat.lt_succ_of_le (natAbs_le_maxIdent hc hl)

/-- **A search of the whole problem** finds a model, or finds that the clauses have none
that keeps the quotas named. -/
theorem search_ofProblem (h0 : Proper clauses quotas) : match (ofProblem clauses quotas).search with
      | .ok v => (∀ c ∈ clauses, c.holds v) ∧ ∀ q ∈ quotas, q.Kept v
      | .error c => ∀ v, (∀ d ∈ clauses, d.holds v) →
        ¬∀ q ∈ quotas, q.name ∈ c.quotas → q.Kept v := by
  have ha := (leftOf_ofProblem clauses quotas).search h0
  revert ha
  rcases (ofProblem clauses quotas).search with c | v
  · rintro ⟨hv, hf⟩ v hm hk
    obtain ⟨l, hl, -⟩ := List.any_eq_true.mp (hv v hm hk)
    have hfl := (hf l hl).2
    have hnone := Assignment.literal?_eq_none_iff.mpr
      (value?_blank (maxIdent clauses quotas) (Int.natAbs l))
    unfold ofProblem at hfl
    rw [hnone] at hfl
    cases hfl
  · exact id

end Residual

/-! ### Lawful oracles -/

namespace Oracle

/-- A model of the clauses that keeps the bound. -/
structure IsModel (clauses : List Clause) (bound : Option (List Ident × Nat))
    (v : Ident → Bool) : Prop where
  holds : ∀ c ∈ clauses, c.holds v
  kept : ∀ b ∈ bound, b.1.countP v ≤ b.2

/-- The identifier zero has no literals of its own. -/
structure IsProper (clauses : List Clause) (bound : Option (List Ident × Nat)) : Prop where
  clauses : ∀ c ∈ clauses, (0 : Int) ∉ c
  bound : ∀ b ∈ bound, 0 ∉ b.1

/-- A model is found just when there is one. -/
structure Lawful (o : Oracle) : Prop where
  sound : ∀ {clauses bound v}, IsProper clauses bound → o.model? clauses bound = some v →
    IsModel clauses bound v
  complete : ∀ {clauses bound}, IsProper clauses bound → o.model? clauses bound = none →
    ∀ v, ¬IsModel clauses bound v

end Oracle

namespace Quota

variable {clauses : List Clause} {is : List Ident} {bound : Nat} {qs : List Quota}
  {v : Ident → Bool}

/-- The quotas share out the variables, and no model makes fewer members of a quota true
than its limit. -/
structure Bounds (clauses : List Clause) (is : List Ident) (qs : List Quota) : Prop where
  share : ∀ v, (qs.flatMap members).countP v = is.countP v
  lower : ∀ v, (∀ c ∈ clauses, c.holds v) → ∀ q ∈ qs, q.limit ≤ q.members.countP v
  proper : ∀ q ∈ qs, 0 ∉ q.members

theorem total_le (h : ∀ q ∈ qs, q.limit ≤ q.members.countP v) :
    total qs ≤ (qs.flatMap members).countP v := by
  induction qs with
  | nil => exact Nat.le_refl _
  | cons q qs ih =>
    rw [List.forall_mem_cons] at h
    rw [List.flatMap_cons, List.countP_append]
    exact Nat.add_le_add h.1 (ih h.2)

theorem le_total (h : ∀ q ∈ qs, q.Kept v) : (qs.flatMap members).countP v ≤ total qs := by
  induction qs with
  | nil => exact Nat.le_refl _
  | cons q qs ih =>
    rw [List.forall_mem_cons] at h
    rw [List.flatMap_cons, List.countP_append]
    exact Nat.add_le_add h.1 (ih h.2)

/-- One quota exceeded exceeds the limits together. -/
theorem total_lt (h : ∀ q ∈ qs, q.limit ≤ q.members.countP v) (hx : ¬∀ q ∈ qs, q.Kept v) :
    total qs < (qs.flatMap members).countP v := by
  induction qs with
  | nil => exact absurd (fun q hq => absurd hq List.not_mem_nil) hx
  | cons q qs ih =>
    rw [List.forall_mem_cons] at h hx
    rw [List.flatMap_cons, List.countP_append]
    by_cases hq : q.Kept v
    · exact Nat.add_lt_add_of_le_of_lt h.1 (ih h.2 fun hk => hx ⟨hq, hk⟩)
    · exact Nat.add_lt_add_of_lt_of_le (Nat.lt_of_not_le hq) (total_le h.2)

theorem bounds_singletons (h0 : 0 ∉ is) : Bounds clauses is (singletons is) where
  share v := by
    have his : (singletons is).flatMap members = is := by
      unfold singletons
      rw [List.flatMap_map]
      exact List.flatMap_singleton' is
    rw [his]
  lower v _ q hq := by
    obtain ⟨i, -, rfl⟩ := List.mem_map.mp hq
    exact Nat.zero_le _
  proper q hq := by
    obtain ⟨i, hi, rfl⟩ := List.mem_map.mp hq
    exact fun h => h0 (List.mem_singleton.mp h ▸ hi)

/-- **Merging** the quotas that a failure rests on. -/
theorem Bounds.merge (h : Bounds clauses is qs) {names : List Ident}
    (hx : ∀ v, (∀ c ∈ clauses, c.holds v) → ¬∀ q ∈ qs, q.name ∈ names → q.Kept v) :
    Bounds clauses is (merge names qs) where
  share v := by
    have hperm := List.filter_append_perm (fun q => names.contains q.name) qs
    have hcount := (hperm.flatMap_right members).countP_eq v
    rw [List.flatMap_append] at hcount
    unfold Quota.merge
    rw [List.flatMap_cons, hcount]
    exact h.share v
  lower v hv q hq := by
    rcases List.mem_cons.mp hq with rfl | hq
    · refine total_lt (fun q hq => h.lower v hv q (List.mem_filter.mp hq).1) fun hk => ?_
      exact hx v hv fun q hq hn =>
        hk q (List.mem_filter.mpr ⟨hq, List.contains_iff_mem.mpr hn⟩)
    · exact h.lower v hv q (List.mem_filter.mp hq).1
  proper q hq := by
    rcases List.mem_cons.mp hq with rfl | hq
    · rw [List.mem_flatMap]
      intro hp
      obtain ⟨q, hq, h0⟩ := hp
      exact h.proper q (List.mem_filter.mp hq).1 h0
    · exact h.proper q (List.mem_filter.mp hq).1

/-- **Climbing** finds a model that keeps the bound just when there is one. -/
theorem Bounds.climb {qs : List Quota} (h : Bounds clauses is qs)
    (h0 : ∀ c ∈ clauses, (0 : Int) ∉ c) : match climb clauses bound qs with
      | some v => (∀ c ∈ clauses, c.holds v) ∧ is.countP v ≤ bound
      | none => ∀ v, (∀ c ∈ clauses, c.holds v) → ¬is.countP v ≤ bound := by
  unfold Quota.climb
  by_cases hb : bound < total qs
  · rw [if_pos hb]
    intro v hv hle
    have ht := total_le (h.lower v hv)
    rw [h.share] at ht
    omega
  · rw [if_neg hb]
    have hs := Residual.search_ofProblem ⟨h0, h.proper⟩
    revert hs
    rcases (Residual.ofProblem clauses qs).search with c | v
    · intro hs
      by_cases hc : c.quotas.isEmpty
      · simp only [hc, if_true]
        refine fun v hv _ => hs v hv fun q _ hq => ?_
        rw [List.isEmpty_iff.mp hc] at hq
        cases hq
      · simp only [hc, Bool.false_eq_true, if_false]
        exact (h.merge hs).climb h0
    · intro hp
      obtain ⟨hv, hk⟩ := hp
      have hle := le_total hk
      rw [h.share] at hle
      exact ⟨hv, by omega⟩
termination_by bound + 1 - total qs
decreasing_by
  rw [total_merge]
  omega

end Quota

namespace Oracle

/-- **Splitting finds a model that keeps the bound just when there is one.** -/
theorem lawful_splitting : splitting.Lawful := by
  have hnone : ∀ {clauses : List Clause}, IsProper clauses none →
      match ((Residual.ofProblem clauses []).search).toOption with
      | some v => ∀ c ∈ clauses, c.holds v
      | none => ∀ v, ¬∀ c ∈ clauses, c.holds v := by
    intro clauses h0
    have hs := @Residual.search_ofProblem clauses [] ⟨h0.clauses, by simp⟩
    revert hs
    rcases (Residual.ofProblem clauses []).search with c | v
    · exact fun hs v hv => hs v hv (by simp)
    · exact fun hs => hs.1
  have hsome : ∀ {clauses : List Clause} {is : List Ident} {bound : Nat},
      IsProper clauses (some (is, bound)) →
      match Quota.climb clauses bound (Quota.singletons is) with
      | some v => (∀ c ∈ clauses, c.holds v) ∧ is.countP v ≤ bound
      | none => ∀ v, (∀ c ∈ clauses, c.holds v) → ¬is.countP v ≤ bound := fun h0 =>
    (Quota.bounds_singletons (h0.bound _ rfl)).climb h0.clauses
  constructor
  · intro clauses bound v h0 hv
    rcases bound with _ | ⟨is, bound⟩
    · have hs := hnone h0
      rw [show ((Residual.ofProblem clauses []).search).toOption = some v from hv] at hs
      exact ⟨hs, by simp⟩
    · have hs := hsome h0
      rw [show Quota.climb clauses bound (Quota.singletons is) = some v from hv] at hs
      exact ⟨hs.1, fun b hb => by rw [← Option.some_inj.mp hb]; exact hs.2⟩
  · intro clauses bound h0 hv v hm
    rcases bound with _ | ⟨is, bound⟩
    · have hs := hnone h0
      rw [show ((Residual.ofProblem clauses []).search).toOption = none from hv] at hs
      exact hs v hm.holds
    · have hs := hsome h0
      rw [show Quota.climb clauses bound (Quota.singletons is) = none from hv] at hs
      exact hs v hm.holds (hm.kept _ rfl)

/-! ### Bounds written as clauses -/

/-- A model of clauses is found just when there is one. -/
structure FindsModels (sat : List Clause → Option (Ident → Bool)) : Prop where
  sound : ∀ {clauses v}, (∀ c ∈ clauses, (0 : Int) ∉ c) → sat clauses = some v →
    ∀ c ∈ clauses, c.holds v
  complete : ∀ {clauses}, (∀ c ∈ clauses, (0 : Int) ∉ c) → sat clauses = none →
    ∀ v, ¬∀ c ∈ clauses, c.holds v

/-- With some choice of the variables behind the first `n`, the clauses say that at most
so many of the variables given are true. -/
structure SaysAtMost (atMost : Ident → List Ident → Nat → List Clause) : Prop where
  proper : ∀ n is bound, ∀ c ∈ atMost n is bound, (0 : Int) ∉ c
  sound : ∀ {n is bound v}, (∀ c ∈ atMost n is bound, c.holds v) → is.countP v ≤ bound
  complete : ∀ {n : Nat} {is bound v}, (∀ i ∈ is, i ≤ n) → is.countP v ≤ bound →
    ∃ w, (∀ i : Nat, i ≤ n → w i = v i) ∧ ∀ c ∈ atMost n is bound, c.holds w

/-- **Writing the bound as clauses** makes a lawful oracle of one that finds models. -/
theorem lawful_encoded {sat : List Clause → Option (Ident → Bool)}
    {atMost : Ident → List Ident → Nat → List Clause} (hs : FindsModels sat)
    (ha : SaysAtMost atMost) : (encoded sat atMost).Lawful := by
  have hproper : ∀ {clauses : List Clause} {is : List Ident} {n bound : Nat},
      IsProper clauses (some (is, bound)) → ∀ c ∈ clauses ++ atMost n is bound, (0 : Int) ∉ c :=
    fun h0 => List.forall_mem_append.mpr ⟨h0.clauses, ha.proper _ _ _⟩
  constructor
  · intro clauses bound v h0 hv
    rcases bound with _ | ⟨is, bound⟩
    · exact ⟨hs.sound h0.clauses hv, by simp⟩
    · have hm := List.forall_mem_append.mp (hs.sound (hproper h0) hv)
      exact ⟨hm.1, fun b hb => by rw [← Option.some_inj.mp hb]; exact ha.sound hm.2⟩
  · intro clauses bound h0 hv v hm
    rcases bound with _ | ⟨is, bound⟩
    · exact hs.complete h0.clauses hv v hm.holds
    · obtain ⟨w, hw, hc⟩ := ha.complete (v := v)
        (fun i hi => @Residual.member_le_maxIdent clauses [⟨0, bound, is⟩] _
          List.mem_cons_self i hi) (hm.kept _ rfl)
      refine hs.complete (hproper h0) hv w (List.forall_mem_append.mpr ⟨fun c hcm => ?_, hc⟩)
      obtain ⟨l, hl, hlv⟩ := List.any_eq_true.mp (hm.holds c hcm)
      refine List.any_eq_true.mpr ⟨l, hl, ?_⟩
      unfold Literal.holds
      rw [hw _ (Residual.natAbs_le_maxIdent hcm hl)]
      exact hlv

end Oracle
end LeastGlut
