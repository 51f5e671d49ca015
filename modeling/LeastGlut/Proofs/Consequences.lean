/-
# Consequences stay valid

A consequence is valid for clauses and quotas when it holds in every model of
the clauses that keeps the quotas it names. Resolution keeps it valid
(`Consequence.valid_resolve`), and an explanation resolves on every literal of
a round with the reason for it, so it names none of them
(`Consequence.mem_explain`).

Key definitions: `Quota.Kept`, `Consequence.Valid`.
-/
import LeastGlut.Oracle
import LeastGlut.Proofs.Literals

namespace LeastGlut

/-- As few members are true as the limit allows. -/
def Quota.Kept (v : Ident → Bool) (q : Quota) : Prop := q.members.countP v ≤ q.limit

/-! ### Resolution -/

theorem mem_joinDistinct {xs ys : List Int} {k : Int} :
    k ∈ joinDistinct xs ys ↔ k ∈ xs ∨ k ∈ ys := by
  unfold joinDistinct
  rw [List.mem_append, List.mem_filter]
  constructor
  · intro hp
    rcases hp with h | ⟨h, -⟩
    · exact Or.inl h
    · exact Or.inr h
  · intro hp
    rcases hp with h | h
    · exact Or.inl h
    · by_cases hx : k ∈ xs
      · exact Or.inl hx
      · exact Or.inr ⟨h, by simpa using hx⟩

namespace Consequence

variable {clauses : List Clause} {quotas : List Quota} {c reason : Consequence} {l : Literal}
  {reasons : List (Literal × Consequence)}

/-- It holds in every model of the clauses that keeps the quotas it needs. -/
def Valid (clauses : List Clause) (quotas : List Quota) (c : Consequence) : Prop :=
  ∀ v, (∀ d ∈ clauses, d.holds v) → (∀ q ∈ quotas, q.name ∈ c.quotas → q.Kept v) →
    c.clause.holds v

theorem valid_of_mem {d : Clause} (hd : d ∈ clauses) : Valid clauses quotas ⟨d, []⟩ :=
  fun _ hv _ => hv d hd

theorem valid_choice (hl : l ≠ 0) : (choice l).Valid clauses quotas := by
  intro v _ _
  simp only [choice, Clause.holds, List.any_cons, List.any_nil, Bool.or_false]
  rw [Literal.holds_neg hl, Bool.or_not_self]

theorem mem_resolve (h : -l ∈ c.clause) {k : Literal} :
    k ∈ (c.resolve l reason).clause ↔
      k ∈ c.clause ∧ k ≠ -l ∨ k ∈ reason.clause ∧ k ≠ l := by
  rw [resolve, if_pos (List.contains_iff_mem.mpr h), mem_joinDistinct, List.mem_filter,
    List.mem_filter, bne_iff_ne, bne_iff_ne]

theorem resolve_of_not_mem (h : -l ∉ c.clause) : c.resolve l reason = c := by
  unfold resolve
  rw [if_neg fun hc => h (List.contains_iff_mem.mp hc)]

theorem mem_resolve_quotas (h : -l ∈ c.clause) {i : Ident} :
    i ∈ (c.resolve l reason).quotas ↔ i ∈ c.quotas ∨ i ∈ reason.quotas := by
  unfold resolve
  rw [if_pos (List.contains_iff_mem.mpr h), List.mem_append, List.mem_filter]
  constructor
  · intro hp
    rcases hp with h | ⟨h, -⟩
    · exact Or.inl h
    · exact Or.inr h
  · intro hp
    rcases hp with h | h
    · exact Or.inl h
    · by_cases hx : i ∈ c.quotas
      · exact Or.inl hx
      · exact Or.inr ⟨h, by simpa using hx⟩

/-- **A resolvent of valid consequences is valid.** -/
theorem valid_resolve (hl : l ≠ 0) (hc : c.Valid clauses quotas)
    (hr : reason.Valid clauses quotas) : (c.resolve l reason).Valid clauses quotas := by
  by_cases h : -l ∈ c.clause
  · intro v hv hq
    have hcv := hc v hv fun q hm hn => hq q hm ((mem_resolve_quotas h).mpr (Or.inl hn))
    have hrv := hr v hv fun q hm hn => hq q hm ((mem_resolve_quotas h).mpr (Or.inr hn))
    obtain ⟨k, hk, hkv⟩ := List.any_eq_true.mp hcv
    obtain ⟨m, hm, hmv⟩ := List.any_eq_true.mp hrv
    refine List.any_eq_true.mpr ?_
    by_cases hkl : k = -l
    · -- the literal resolved on is false, so the reason holds by another one
      rw [hkl, Literal.holds_neg hl, Bool.not_eq_true'] at hkv
      refine ⟨m, (mem_resolve h).mpr (Or.inr ⟨hm, fun hml => ?_⟩), hmv⟩
      rw [hml, hkv] at hmv
      exact absurd hmv Bool.false_ne_true
    · exact ⟨k, (mem_resolve h).mpr (Or.inl ⟨hk, hkl⟩), hkv⟩
  · rw [resolve_of_not_mem h]
    exact hc

theorem valid_explain (hc : c.Valid clauses quotas)
    (hr : ∀ r ∈ reasons, r.1 ≠ 0 ∧ r.2.Valid clauses quotas) :
    (c.explain reasons).Valid clauses quotas := by
  induction reasons generalizing c with
  | nil => exact hc
  | cons r reasons ih =>
    obtain ⟨hl, hv⟩ := hr r List.mem_cons_self
    exact ih (valid_resolve hl hc hv) fun s hs => hr s (List.mem_cons_of_mem _ hs)

/-- **What an explanation names.** Nothing of the literals of the round is left. -/
theorem mem_explain {P : Literal → Prop}
    (hc : ∀ k ∈ c.clause, P k ∨ -k ∈ Residual.literals reasons)
    (hr : ∀ r ∈ reasons, ∀ k ∈ r.2.clause, k = r.1 ∨ P k) :
    ∀ k ∈ (c.explain reasons).clause, P k := by
  induction reasons generalizing c with
  | nil =>
    intro k hk
    exact (hc k hk).resolve_right List.not_mem_nil
  | cons r reasons ih =>
    refine ih (c := c.resolve r.1 r.2) (fun k hk => ?_)
      fun s hs => hr s (List.mem_cons_of_mem _ hs)
    have hold : k ∈ c.clause → k ≠ -r.1 → P k ∨ -k ∈ Residual.literals reasons := fun hk hne => by
      refine (hc k hk).imp_right fun hm => (List.mem_cons.mp hm).resolve_left fun h => ?_
      exact hne (by rw [← h, Int.neg_neg])
    by_cases h : -r.1 ∈ c.clause
    · rcases (mem_resolve h).mp hk with ⟨hk, hne⟩ | ⟨hk, hne⟩
      · exact hold hk hne
      · exact Or.inl ((hr r List.mem_cons_self k hk).resolve_left hne)
    · rw [resolve_of_not_mem h] at hk
      exact hold hk fun he => h (he ▸ hk)

end Consequence
end LeastGlut
