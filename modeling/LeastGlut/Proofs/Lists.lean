/-
# Lists without repeats, searches and lists of results

Dropping repeats keeps what a list holds, in order of first occurrence, leaves
nothing twice and changes a list without repeats not at all. A search for what
is there at most once finds it. Mapping a function that may fail over a list
succeeds where it does so pointwise.
-/
import LeastGlut.KnowledgeBase
import Mathlib.Data.List.Induction
import Mathlib.Data.List.Perm.Basic
import Mathlib.Data.Set.Function

namespace LeastGlut

variable {α β ε : Type}

section

variable [BEq α] [LawfulBEq α]

theorem any_eraseDups (l : List α) (p : α → Bool) : l.eraseDups.any p = l.any p := by
  rw [Bool.eq_iff_iff]
  simp only [List.any_eq_true, List.mem_eraseDups]

theorem nodup_eraseDups (l : List α) : l.eraseDups.Nodup := by
  match l with
  | [] => exact List.nodup_nil
  | a :: l =>
    rw [List.eraseDups_cons, List.nodup_cons]
    have hlt : (l.filter fun b => !b == a).length < l.length + 1 :=
      Nat.lt_succ_of_le (List.length_filter_le _ l)
    exact ⟨by simp, nodup_eraseDups _⟩
termination_by l.length

theorem eraseDups_concat (l : List α) (a : α) :
    (l ++ [a]).eraseDups = if a ∈ l then l.eraseDups else l.eraseDups ++ [a] := by
  rw [List.eraseDups_append]
  by_cases ha : a ∈ l <;> simp [List.removeAll, List.eraseDups_cons, ha]

/-- What is left keeps the order of the first occurrences. -/
theorem pairwise_idxOf_eraseDups (l : List α) :
    l.eraseDups.Pairwise fun a b => l.idxOf a < l.idxOf b := by
  induction l using List.reverseRecOn with
  | nil => exact .nil
  | append_singleton l a ih =>
    have hl : l.eraseDups.Pairwise fun b c => (l ++ [a]).idxOf b < (l ++ [a]).idxOf c := by
      refine ih.imp_of_mem fun hb hc hlt => ?_
      rwa [List.idxOf_append_of_mem (List.mem_eraseDups.mp hb),
        List.idxOf_append_of_mem (List.mem_eraseDups.mp hc)]
    rw [eraseDups_concat]
    split
    · exact hl
    · next ha =>
      refine List.pairwise_append.mpr ⟨hl, List.pairwise_singleton _ _, fun b hb c hc => ?_⟩
      have hb := List.mem_eraseDups.mp hb
      rw [List.mem_singleton.mp hc, List.idxOf_append_of_mem hb, List.idxOf_append_of_notMem ha]
      exact Nat.lt_add_right _ (List.idxOf_lt_length_of_mem hb)

/-- What is one to one on a list maps its repeats to repeats, and nothing else. -/
theorem eraseDups_map {γ : Type} [BEq γ] [LawfulBEq γ] {g : α → γ} (l : List α)
    (hg : Set.InjOn g {a | a ∈ l}) : (l.map g).eraseDups = l.eraseDups.map g := by
  match l with
  | [] => rfl
  | a :: l =>
    have hlt : (l.filter fun b => !b == a).length < l.length + 1 :=
      Nat.lt_succ_of_le (List.length_filter_le _ l)
    have hfilter : l.filter ((fun c => !c == g a) ∘ g) = l.filter fun b => !b == a := by
      refine List.filter_congr fun b hb => congrArg Bool.not ?_
      rw [Bool.eq_iff_iff, beq_iff_eq, beq_iff_eq]
      exact ⟨fun h => hg (List.mem_cons_of_mem a hb) List.mem_cons_self h, congrArg g⟩
    have hrest : Set.InjOn g {b | b ∈ l.filter fun b => !b == a} := hg.mono fun b hb =>
      List.mem_cons_of_mem a (List.mem_filter.mp hb).1
    rw [List.map_cons, List.eraseDups_cons, List.eraseDups_cons, List.map_cons, List.filter_map,
      hfilter, eraseDups_map _ hrest]
termination_by l.length

/-- An entry is found under its new key, when no other key is renamed to it. -/
theorem lookup_map_key {g : α → α} {l : List (α × β)} {a : α}
    (hg : ∀ e ∈ l, g a = g e.1 → a = e.1) :
    (l.map fun e => (g e.1, e.2)).lookup (g a) = l.lookup a := by
  induction l with
  | nil => rfl
  | cons e l ih =>
    obtain ⟨he, hl⟩ := List.forall_mem_cons.mp hg
    have hkey : (g a == g e.1) = (a == e.1) := by
      rw [Bool.eq_iff_iff, beq_iff_eq, beq_iff_eq]
      exact ⟨he, congrArg g⟩
    rw [List.map_cons, List.lookup_cons, hkey, ih hl]
    rfl

theorem eraseDups_of_nodup {l : List α} (h : l.Nodup) : l.eraseDups = l := by
  induction l with
  | nil => rfl
  | cons a l ih =>
    obtain ⟨ha, hl⟩ := List.nodup_cons.mp h
    have hf : (l.filter fun b => !b == a) = l := List.filter_eq_self.mpr fun b hb => by
      simpa using fun hba : b = a => ha (hba ▸ hb)
    rw [List.eraseDups_cons, hf, ih hl]

end

/-- A search finds what satisfies it, when all that does is one. -/
theorem find?_eq_some_iff_of_unique {l : List α} {p : α → Bool}
    (hu : ∀ a ∈ l, ∀ b ∈ l, p a → p b → a = b) {a : α} : l.find? p = some a ↔ a ∈ l ∧ p a := by
  constructor
  · exact fun h => ⟨List.mem_of_find?_eq_some h, List.find?_some h⟩
  · intro hw
    obtain ⟨ha, hp⟩ := hw
    have hsome : (l.find? p).isSome := List.find?_isSome.mpr ⟨a, ha, hp⟩
    obtain ⟨b, hb⟩ := Option.isSome_iff_exists.mp hsome
    have hba : b = a := hu b (List.mem_of_find?_eq_some hb) a ha (List.find?_some hb) hp
    rw [hb, hba]

theorem findSome?_eq_some_iff_of_unique {l : List α} {f : α → Option β}
    (hu : ∀ a ∈ l, ∀ b ∈ l, ∀ x y, f a = some x → f b = some y → x = y) {x : β} :
    l.findSome? f = some x ↔ ∃ a ∈ l, f a = some x := by
  constructor
  · exact List.exists_of_findSome?_eq_some
  · intro h
    obtain ⟨a, ha, hx⟩ := h
    have hsome : (l.findSome? f).isSome :=
      List.findSome?_isSome_iff.mpr ⟨a, ha, Option.isSome_iff_exists.mpr ⟨x, hx⟩⟩
    obtain ⟨y, hy⟩ := Option.isSome_iff_exists.mp hsome
    obtain ⟨b, hb, hby⟩ := List.exists_of_findSome?_eq_some hy
    rw [hy, hu b hb a ha y x hby hx]

theorem bind_eq_ok_iff {x : Except ε α} {f : α → Except ε β} {b : β} :
    (x >>= f) = .ok b ↔ ∃ a, x = .ok a ∧ f a = .ok b := by
  cases x with
  | error e =>
    constructor
    · intro h
      cases h
    · rintro ⟨a, ha, -⟩
      cases ha
  | ok a =>
    constructor
    · exact fun h => ⟨a, rfl, h⟩
    · rintro ⟨a', ha, h⟩
      cases ha
      exact h

theorem bind_eq_error_iff {x : Except ε α} {f : α → Except ε β} {e : ε} :
    (x >>= f) = .error e ↔ x = .error e ∨ ∃ a, x = .ok a ∧ f a = .error e := by
  cases x with
  | error e' => simp [bind, Except.bind]
  | ok a => simp [bind, Except.bind]

/-- A mapping succeeds where it does so pointwise. -/
theorem mapM_eq_ok_iff {f : α → Except ε β} {l : List α} {bs : List β} :
    l.mapM f = .ok bs ↔ List.Forall₂ (fun a b => f a = .ok b) l bs := by
  induction l generalizing bs with
  | nil =>
    rw [List.forall₂_nil_left_iff, eq_comm]
    exact ⟨Except.ok.inj, congrArg Except.ok⟩
  | cons a l ih =>
    rw [List.mapM_cons, List.forall₂_cons_left_iff, bind_eq_ok_iff]
    simp only [bind_eq_ok_iff, ih]
    constructor
    · rintro ⟨b, hb, cs, hcs, he⟩
      exact ⟨b, cs, hb, hcs, (Except.ok.inj he).symm⟩
    · rintro ⟨b, cs, hb, hcs, rfl⟩
      exact ⟨b, hb, cs, hcs, rfl⟩

theorem exists_mem_of_forall₂ {R : α → β → Prop} {l : List α} {bs : List β}
    (h : List.Forall₂ R l bs) {b : β} (hb : b ∈ bs) : ∃ a ∈ l, R a b := by
  induction h with
  | nil => cases hb
  | @cons a c l bs hac _ ih =>
    rcases List.mem_cons.mp hb with rfl | hb
    · exact ⟨a, List.mem_cons_self, hac⟩
    · obtain ⟨d, hd, hdb⟩ := ih hb
      exact ⟨d, List.mem_cons_of_mem _ hd, hdb⟩

theorem exists_forall₂ {R : α → β → Prop} {l : List α} (h : ∀ a ∈ l, ∃ b, R a b) :
    ∃ bs, List.Forall₂ R l bs := by
  induction l with
  | nil => exact ⟨[], .nil⟩
  | cons a l ih =>
    obtain ⟨⟨b, hb⟩, hl⟩ := List.forall_mem_cons.mp h
    obtain ⟨bs, hbs⟩ := ih hl
    exact ⟨b :: bs, .cons hb hbs⟩

theorem mapM_eq_ok {f : α → Except ε β} {g : α → β} {l : List α}
    (h : ∀ a ∈ l, f a = .ok (g a)) : l.mapM f = .ok (l.map g) :=
  mapM_eq_ok_iff.mpr (List.forall₂_map_right_iff.mpr (List.forall₂_same.mpr h))

/-- A mapping fails only as it does at a point. -/
theorem exists_of_mapM_eq_error {f : α → Except ε β} {l : List α} {e : ε}
    (h : l.mapM f = .error e) : ∃ a ∈ l, f a = .error e := by
  induction l with
  | nil => cases h
  | cons a l ih =>
    rw [List.mapM_cons, bind_eq_error_iff] at h
    rcases h with ha | ⟨b, -, h⟩
    · exact ⟨a, List.mem_cons_self, ha⟩
    · rcases bind_eq_error_iff.mp h with hl | ⟨bs, -, h⟩
      · obtain ⟨c, hc, hce⟩ := ih hl
        exact ⟨c, List.mem_cons_of_mem _ hc, hce⟩
      · cases h

/-- A mapping that fails at a point fails, as it does at one of them. -/
theorem exists_mapM_eq_error {f : α → Except ε β} {l : List α} (h : ∃ a ∈ l, ∃ e, f a = .error e) :
    ∃ a ∈ l, ∃ e, f a = .error e ∧ l.mapM f = .error e := by
  cases hl : l.mapM f with
  | ok bs =>
    obtain ⟨a, ha, e, he⟩ := h
    obtain ⟨b, -, hb⟩ := exists_mem_of_forall₂ (mapM_eq_ok_iff.mp hl).flip ha
    cases he.symm.trans hb
  | error e =>
    obtain ⟨a, ha, he⟩ := exists_of_mapM_eq_error hl
    exact ⟨a, ha, e, he, rfl⟩

/-- A mapping of the same list in another order gives the same results in another order. -/
theorem mapM_perm {f : α → Except ε β} {l l' : List α} {bs : List β} (hl : l.Perm l')
    (h : l.mapM f = .ok bs) : ∃ bs', l'.mapM f = .ok bs' ∧ bs.Perm bs' := by
  obtain ⟨bs', hbs', hperm⟩ := List.perm_comp_forall₂ hl.symm (mapM_eq_ok_iff.mp h)
  exact ⟨bs', mapM_eq_ok_iff.mpr hbs', hperm.symm⟩

end LeastGlut
