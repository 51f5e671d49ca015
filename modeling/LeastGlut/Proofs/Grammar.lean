/-
# The grammar of formulas

A formula is written in tokens, at five levels. Operands bind tightest: atoms,
constants, formulas in brackets and negations of operands. Then come chains of
each connective. A chain groups to one side: the operand on that side may be a
chain of the same connective, the other one binds more tightly. These are the
levels that the reader's table of connectives gives (`Formula.Derives.chain`).

The reader's machine keeps pending what a looser connective or a bracket would
complete. Reading the tokens of a formula, it comes behind the formula up to
what is pending (`Formula.Derives.leads`); and whatever it has read, its stack
and its formula derive from the tokens read (`Formula.State.Covers.shift`). So it
accepts the tokens that derive a formula, with this formula
(`Formula.accepts_iff_derives`).

Key definitions: `Formula.Token`, `Formula.Derives`, `Formula.State.shift`,
`Formula.Behind`, `Formula.Leads`, `Formula.State.Covers`.
-/
import LeastGlut.Formula.Reader

namespace LeastGlut

namespace Connective

/-- How tightly the left operand of a chain binds. -/
def leftLevel (op : Connective) : Nat :=
  if op.groupsRight then op.tightness + 1 else op.tightness

/-- How tightly the right operand of a chain binds. -/
def rightLevel (op : Connective) : Nat :=
  if op.groupsRight then op.tightness else op.tightness + 1

theorem tightness_pos (op : Connective) : 1 ≤ op.tightness := by
  cases op <;> decide

theorem tightness_lt (op : Connective) : op.tightness < 5 := by
  cases op <;> decide

theorem tightness_le_leftLevel (op : Connective) : op.tightness ≤ op.leftLevel := by
  cases op <;> decide

theorem tightness_le_rightLevel (op : Connective) : op.tightness ≤ op.rightLevel := by
  cases op <;> decide

end Connective

namespace Formula

/-- What a formula is written in. -/
inductive Token
  | atom (name : String)
  | verum
  | falsum
  | neg
  | op (op : Connective)
  | opening
  | closing
  deriving DecidableEq

/-- The tokens are a formula of the level: 5 for operands, 4 for conjunctions, 3 for
disjunctions, 2 for implications and 1 for equivalences. Implications group to the right,
the others to the left. -/
inductive Derives : Nat → List Token → Formula → Prop
  | atom (name : String) : Derives 5 [.atom name] (.atom name)
  | verum : Derives 5 [.verum] .verum
  | falsum : Derives 5 [.falsum] .falsum
  | group {ts : List Token} {f : Formula} : Derives 1 ts f →
    Derives 5 (.opening :: ts ++ [.closing]) f
  | neg {ts : List Token} {f : Formula} : Derives 5 ts f → Derives 5 (.neg :: ts) (.not f)
  | and {ts us : List Token} {f g : Formula} : Derives 4 ts f → Derives 5 us g →
    Derives 4 (ts ++ .op .and :: us) (.and f g)
  | or {ts us : List Token} {f g : Formula} : Derives 3 ts f → Derives 4 us g →
    Derives 3 (ts ++ .op .or :: us) (.or f g)
  | implies {ts us : List Token} {f g : Formula} : Derives 3 ts f → Derives 2 us g →
    Derives 2 (ts ++ .op .implies :: us) (.implies f g)
  | iff {ts us : List Token} {f g : Formula} : Derives 1 ts f → Derives 2 us g →
    Derives 1 (ts ++ .op .iff :: us) (.iff f g)
  | tighter {k : Nat} {ts : List Token} {f : Formula} : Derives (k + 1) ts f → Derives k ts f

variable {j k : Nat} {stack outer : List Frame} {ts us vs : List Token} {f g : Formula}
  {s s' : State} {op : Connective}

theorem Derives.mono (h : Derives k ts f) (hjk : j ≤ k) : Derives j ts f := by
  induction hjk with
  | refl => exact h
  | step _ ih => exact ih h.tighter

/-- A chain of any connective, by its tightness and the side it groups to. -/
theorem Derives.chain (hf : Derives op.leftLevel ts f) (hg : Derives op.rightLevel us g) :
    Derives op.tightness (ts ++ .op op :: us) (.binary op f g) := by
  cases op with
  | and => exact .and hf hg
  | or => exact .or hf hg
  | implies => exact .implies hf hg
  | iff => exact .iff hf hg

/-! ### Whole tokens -/

/-- Takes a whole token. -/
def State.shift : State → Token → Option State
  | .operand stack, .atom a => some (negated stack (.atom a))
  | .operand stack, .verum => some (negated stack .verum)
  | .operand stack, .falsum => some (negated stack .falsum)
  | .operand stack, .neg => some (.operand (.neg :: stack))
  | .operand stack, .opening => some (.operand (.bracket :: stack))
  | .after stack f, .op op => some (.operand (pushLeft op stack f))
  | .after stack f, .closing => match complete stack f with
    | (.bracket :: outer, g) => some (negated outer g)
    | _ => none
  | _, _ => none

/-- The formula that a state makes of further tokens. -/
def State.accepts (s : State) (ts : List Token) : Option Formula :=
  (ts.foldlM State.shift s).bind State.finish?

/-- No negation waits for the operand that comes next. -/
def Unnegated : List Frame → Prop
  | .neg :: _ => False
  | _ => True

/-- An operand of the level may stand behind the stack. -/
def Expects (k : Nat) : List Frame → Prop
  | .left op _ :: _ => op.rightLevel ≤ k
  | .neg :: _ => 5 ≤ k
  | _ => True

theorem Expects.mono (h : Expects j stack) (hjk : j ≤ k) : Expects k stack := by
  rcases stack with _ | ⟨frame, stack⟩
  · trivial
  · cases frame with
    | neg => exact Nat.le_trans h hjk
    | left op lhs => exact Nat.le_trans h hjk
    | bracket => trivial

theorem Expects.unnegated (h : Expects op.tightness stack) : Unnegated stack := by
  have hlt := op.tightness_lt
  rcases stack with _ | ⟨frame, stack⟩
  · trivial
  · cases frame with
    | neg => exact absurd h (Nat.not_le_of_lt hlt)
    | left op' lhs => trivial
    | bracket => trivial

theorem negated_eq (h : Unnegated stack) (f : Formula) : negated stack f = .after stack f := by
  rcases stack with _ | ⟨frame, stack⟩
  · rfl
  · cases frame with
    | neg => exact h.elim
    | left op lhs => rfl
    | bracket => rfl

/-- A pending operand is complete when the next connective takes in what binds as tightly. -/
theorem yields_iff (op' op : Connective) : yields op' op ↔ op.leftLevel ≤ op'.tightness := by
  cases op' <;> cases op <;> decide

/-- A pending operand waits when a chain of the next connective may stand behind it. -/
theorem not_yields_iff (op' op : Connective) :
    ¬yields op' op ↔ op'.rightLevel ≤ op.tightness := by
  cases op' <;> cases op <;> decide

theorem pushLeft_eq (h : Expects op.tightness stack) (f : Formula) :
    pushLeft op stack f = .left op f :: stack := by
  rcases stack with _ | ⟨frame, stack⟩
  · rfl
  · cases frame with
    | neg => rfl
    | left op' lhs => exact if_neg ((not_yields_iff op' op).mpr h)
    | bracket => rfl

/-! ### What derives is read -/

/-- The state is behind the formula on the stack, up to pending compounds that bind at
least as tightly as the level says. -/
inductive Behind (k : Nat) : List Frame → Formula → State → Prop
  | done (stack : List Frame) (f : Formula) : Behind k stack f (negated stack f)
  | pending {op : Connective} {lhs g : Formula} {stack : List Frame} {s : State} :
    k ≤ op.tightness → Behind k (.left op lhs :: stack) g s → Behind k stack (.binary op lhs g) s

theorem Behind.mono (h : Behind k stack f s) (hjk : j ≤ k) : Behind j stack f s := by
  induction h with
  | done stack f => exact .done stack f
  | pending hk _ ih => exact .pending (Nat.le_trans hjk hk) ih

/-- Behind an operand nothing is pending. -/
theorem Behind.eq_negated (h : Behind 5 stack f s) : s = negated stack f := by
  cases h with
  | done => rfl
  | pending hk _ => exact absurd hk (Nat.not_le_of_lt (Connective.tightness_lt _))

/-- What is pending comes to the same once it is completed, by a connective that does not
bind more tightly or by a bracket. -/
theorem Behind.exists_after (h : Behind k stack f s) (hs : Unnegated stack) :
    ∃ stack' f', s = .after stack' f' ∧ complete stack' f' = complete stack f ∧
      ∀ op : Connective, op.leftLevel ≤ k → pushLeft op stack' f' = pushLeft op stack f := by
  induction h with
  | done stack f => exact ⟨stack, f, negated_eq hs f, rfl, fun _ _ => rfl⟩
  | @pending op lhs g stack s hk _ ih =>
    obtain ⟨stack', f', rfl, hc, hp⟩ := ih trivial
    refine ⟨stack', f', rfl, hc, fun op' hop => ?_⟩
    have hy : yields op op' := (yields_iff op op').mpr (Nat.le_trans hop hk)
    rw [hp op' hop]
    exact if_pos hy

/-- Reading the tokens leads behind the formula, wherever one of the level may stand. -/
def Leads (k : Nat) (ts : List Token) (f : Formula) : Prop :=
  ∀ stack, Expects k stack →
    ∃ s, ts.foldlM State.shift (.operand stack) = some s ∧ Behind k stack f s

theorem Leads.group (h : Leads 1 ts f) : Leads 5 (.opening :: ts ++ [.closing]) f := by
  intro stack _
  obtain ⟨s, hrun, hb⟩ := h (.bracket :: stack) trivial
  obtain ⟨stack', f', rfl, hc, -⟩ := hb.exists_after trivial
  have hclose : State.shift (.after stack' f') .closing = some (negated stack f) := by
    show (match complete stack' f' with
      | (.bracket :: outer, g) => some (negated outer g)
      | _ => none) = _
    rw [hc]
    rfl
  refine ⟨negated stack f, ?_, .done stack f⟩
  show (ts ++ [Token.closing]).foldlM State.shift (.operand (.bracket :: stack)) = _
  rw [List.foldlM_append, hrun, Option.bind_eq_bind, Option.bind_some, List.foldlM_cons, hclose]
  rfl

theorem Leads.neg (h : Leads 5 ts f) : Leads 5 (.neg :: ts) (.not f) := by
  intro stack _
  obtain ⟨s, hrun, hb⟩ := h (.neg :: stack) (Nat.le_refl 5)
  rw [hb.eq_negated] at hrun
  exact ⟨negated stack (.not f), hrun, .done stack _⟩

theorem Leads.chain (op : Connective) (hf : Leads op.leftLevel ts f)
    (hg : Leads op.rightLevel us g) :
    Leads op.tightness (ts ++ .op op :: us) (.binary op f g) := by
  intro stack hs
  obtain ⟨s, hrun, hb⟩ := hf stack (hs.mono op.tightness_le_leftLevel)
  obtain ⟨stack', f', rfl, -, hp⟩ := hb.exists_after hs.unnegated
  obtain ⟨s', hrun', hb'⟩ := hg (.left op f :: stack) (Nat.le_refl _)
  have hop : State.shift (.after stack' f') (.op op) = some (.operand (.left op f :: stack)) := by
    rw [← pushLeft_eq hs f, ← hp op (Nat.le_refl _)]
    rfl
  refine ⟨s', ?_, .pending (Nat.le_refl _) (hb'.mono op.tightness_le_rightLevel)⟩
  rw [List.foldlM_append, hrun, Option.bind_eq_bind, Option.bind_some, List.foldlM_cons, hop]
  exact hrun'

/-- **Reading a formula's tokens** leads behind the formula. -/
theorem Derives.leads (h : Derives k ts f) : Leads k ts f := by
  induction h with
  | atom name => exact fun stack _ => ⟨_, rfl, .done stack _⟩
  | verum => exact fun stack _ => ⟨_, rfl, .done stack _⟩
  | falsum => exact fun stack _ => ⟨_, rfl, .done stack _⟩
  | group _ ih => exact ih.group
  | neg _ ih => exact ih.neg
  | and _ _ ihf ihg => exact Leads.chain .and ihf ihg
  | or _ _ ihf ihg => exact Leads.chain .or ihf ihg
  | implies _ _ ihf ihg => exact Leads.chain .implies ihf ihg
  | iff _ _ ihf ihg => exact Leads.chain .iff ihf ihg
  | tighter _ ih =>
    intro stack hs
    obtain ⟨s, hrun, hb⟩ := ih stack (hs.mono (Nat.le_succ _))
    exact ⟨s, hrun, hb.mono (Nat.le_succ _)⟩

/-! ### What is read derives -/

/-- The tokens open what waits on the stack, and each left operand derives from its own. -/
inductive Opens : List Frame → List Token → Prop
  | nil : Opens [] []
  | neg {stack : List Frame} {ts : List Token} : Opens stack ts →
    Opens (.neg :: stack) (ts ++ [.neg])
  | bracket {stack : List Frame} {ts : List Token} : Opens stack ts →
    Opens (.bracket :: stack) (ts ++ [.opening])
  | left {op : Connective} {lhs : Formula} {stack : List Frame} {ts us : List Token} :
    Opens stack ts → Expects op.tightness stack → Derives op.leftLevel us lhs →
    Opens (.left op lhs :: stack) (ts ++ us ++ [.op op])

/-- What a state has read: what opens its stack and, behind an operand, the operand. -/
def State.Covers : State → List Token → Prop
  | .operand stack, ts => Opens stack ts
  | .after stack f, ts => ∃ us vs, ts = us ++ vs ∧ Opens stack us ∧ Unnegated stack ∧ Derives 5 vs f
  | _, _ => False

theorem Opens.negated (h : Opens stack us) (hf : Derives 5 vs f) :
    (negated stack f).Covers (us ++ vs) := by
  induction h generalizing vs f with
  | nil => exact ⟨[], vs, rfl, .nil, trivial, hf⟩
  | @neg stack ts _ ih =>
    rw [List.append_assoc]
    exact ih hf.neg
  | @bracket stack ts h => exact ⟨_, vs, rfl, h.bracket, trivial, hf⟩
  | left h he hl => exact ⟨_, vs, rfl, h.left he hl, trivial, hf⟩

theorem Opens.pushLeft (h : Opens stack us) (hf : Derives j vs f) (hj : op.leftLevel ≤ j)
    (hn : Unnegated stack) (he : Expects j stack) :
    Opens (pushLeft op stack f) (us ++ vs ++ [.op op]) := by
  induction h generalizing vs f j with
  | nil => exact Opens.nil.left trivial (hf.mono hj)
  | neg => exact hn.elim
  | bracket h => exact h.bracket.left trivial (hf.mono hj)
  | @left op' lhs stack ts us h hs hl ih =>
    by_cases hy : yields op' op
    · have hc : Derives op'.tightness (us ++ .op op' :: vs) (.binary op' lhs f) :=
        .chain hl (hf.mono he)
      have ho := ih hc ((yields_iff op' op).mp hy) hs.unnegated hs
      simp only [List.append_assoc, List.cons_append, List.nil_append] at ho ⊢
      rw [Formula.pushLeft, if_pos hy]
      exact ho
    · rw [Formula.pushLeft, if_neg hy]
      exact (h.left hs hl).left ((not_yields_iff op' op).mp hy) (hf.mono hj)

theorem Opens.complete (h : Opens stack us) (hf : Derives j vs f) (hj : 1 ≤ j)
    (he : Expects j stack) : ∃ us' vs', us ++ vs = us' ++ vs' ∧
      Opens (complete stack f).1 us' ∧ Derives 1 vs' (complete stack f).2 := by
  induction h generalizing vs f j with
  | nil => exact ⟨[], vs, rfl, .nil, hf.mono hj⟩
  | neg h => exact ⟨_, vs, rfl, h.neg, hf.mono hj⟩
  | bracket h => exact ⟨_, vs, rfl, h.bracket, hf.mono hj⟩
  | @left op lhs stack ts us _ hs hl ih =>
    have hc : Derives op.tightness (us ++ .op op :: vs) (.binary op lhs f) :=
      .chain hl (hf.mono he)
    obtain ⟨us', vs', heq, ho, hd⟩ := ih hc op.tightness_pos hs
    refine ⟨us', vs', ?_, ho, hd⟩
    rw [← heq]
    simp only [List.append_assoc, List.cons_append, List.nil_append]

theorem Opens.eq_append_opening (h : Opens (.bracket :: stack) ts) :
    ∃ us, ts = us ++ [.opening] ∧ Opens stack us := by
  cases h with
  | bracket h => exact ⟨_, rfl, h⟩

theorem Opens.eq_nil (h : Opens [] ts) : ts = [] := by
  cases h
  rfl

theorem expects_five (stack : List Frame) : Expects 5 stack := by
  rcases stack with _ | ⟨frame, stack⟩
  · trivial
  · cases frame with
    | neg => exact Nat.le_refl 5
    | left op lhs =>
      show op.rightLevel ≤ 5
      cases op <;> decide
    | bracket => trivial

/-- **A token more is covered.** -/
theorem State.Covers.shift {t : Token} (h : s.Covers ts) (ht : s.shift t = some s') :
    s'.Covers (ts ++ [t]) := by
  cases s with
  | operand stack =>
    have ho : Opens stack ts := h
    cases t with
    | atom name =>
      cases ht
      exact ho.negated (.atom name)
    | verum =>
      cases ht
      exact ho.negated .verum
    | falsum =>
      cases ht
      exact ho.negated .falsum
    | neg =>
      cases ht
      exact ho.neg
    | opening =>
      cases ht
      exact ho.bracket
    | op _ => cases ht
    | closing => cases ht
  | after stack f =>
    obtain ⟨us, vs, rfl, ho, hn, hf⟩ := h
    have he := expects_five stack
    cases t with
    | op op =>
      cases ht
      exact ho.pushLeft hf (by cases op <;> decide) hn he
    | closing =>
      obtain ⟨us', vs', heq, ho', hd⟩ := ho.complete hf (by decide) he
      simp only [State.shift] at ht
      split at ht
      · rename_i outer g hc
        rw [hc] at ho' hd
        cases ht
        obtain ⟨ws, rfl, hw⟩ := ho'.eq_append_opening
        have hg := hw.negated hd.group
        rw [heq]
        simp only [List.append_assoc, List.cons_append, List.nil_append] at hg ⊢
        exact hg
      · cases ht
    | _ => cases ht
  | name _ _ => exact h.elim
  | symbol _ _ _ _ _ => exact h.elim

theorem State.Covers.shifts (h : s.Covers us) (hr : ts.foldlM State.shift s = some s') :
    s'.Covers (us ++ ts) := by
  induction ts generalizing s us with
  | nil =>
    cases hr
    rw [List.append_nil]
    exact h
  | cons t ts ih =>
    rw [List.foldlM_cons] at hr
    obtain ⟨s₁, hs, hr⟩ := Option.bind_eq_some_iff.mp hr
    have hc := ih (h.shift hs) hr
    rw [List.append_assoc] at hc
    exact hc

theorem State.Covers.derives (h : s.Covers ts) (hf : s.finish? = some f) : Derives 1 ts f := by
  cases s with
  | operand stack => cases hf
  | after stack g =>
    obtain ⟨us, vs, rfl, ho, -, hd⟩ := h
    obtain ⟨us', vs', heq, ho', hd'⟩ := ho.complete hd (by decide) (expects_five stack)
    simp only [State.finish?, State.settle] at hf
    split at hf
    · rename_i hc
      rw [hc] at ho' hd'
      cases hf
      rw [heq, ho'.eq_nil]
      exact hd'
    · cases hf
  | name _ _ => exact h.elim
  | symbol _ _ _ _ _ => exact h.elim

/-- **The machine accepts the tokens of a formula,** and only these. -/
theorem accepts_iff_derives : (State.operand []).accepts ts = some f ↔ Derives 1 ts f := by
  unfold State.accepts
  constructor
  · intro h
    obtain ⟨s, hr, hf⟩ := Option.bind_eq_some_iff.mp h
    have hc : State.Covers (.operand []) [] := Opens.nil
    exact (hc.shifts hr).derives hf
  · intro h
    have he : Expects 1 [] := trivial
    obtain ⟨s, hr, hb⟩ := h.leads [] he
    obtain ⟨stack', f', rfl, hc, -⟩ := hb.exists_after trivial
    rw [hr, Option.bind_some]
    simp only [State.finish?, State.settle, hc]
    rfl

end Formula
end LeastGlut
