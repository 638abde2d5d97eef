/-
Fol.Escape.SummaryJoin — the effect lattice and the join of summaries
(`summaries.lisp`).

A position that a summary neither lists nor covers by a rest effect is `:retained` for a
caller (`effect-for-arg`). `summary-join` gives a position that one of its arguments
does not list the effect of the other, and likewise the rest effect. It is an upper
bound exactly where the argument that lists the position is no weaker there than what
the other one means for a caller (`Covers`).
-/
import Mathlib.Order.MinMax
import Fol.Escape.Summaries

namespace Fol.Escape

/-! ## §1 Effects -/

/-- `%effect-rank`. -/
def Effect.rank : Effect → Nat
  | .none => 0
  | .invoked => 1
  | .sharedWithResult => 2
  | .retained => 3

theorem Effect.rank_injective : Function.Injective Effect.rank := by
  intro a b h
  cases a <;> cases b <;> first | rfl | simp [Effect.rank] at h

/-- `effect<=`. -/
instance : LinearOrder Effect := LinearOrder.lift' Effect.rank Effect.rank_injective

theorem Effect.none_le (e : Effect) : .none ≤ e := Nat.zero_le _

theorem Effect.le_retained (e : Effect) : e ≤ .retained := by
  cases e <;> decide

/-- `effect-join`. -/
def effectJoin (e₁ e₂ : Effect) : Effect := if e₁ ≤ e₂ then e₂ else e₁

theorem effectJoin_eq_max (e₁ e₂ : Effect) : effectJoin e₁ e₂ = max e₁ e₂ := (max_def e₁ e₂).symm

/-! ## §2 Summaries -/

namespace EscapeSummary

/-- What the summary says of arguments it does not list. -/
def restOf (s : EscapeSummary) : Effect := s.restEffect.getD .retained

/-- `%max-param-count`. -/
def maxParamCount (s₁ s₂ : EscapeSummary) : Nat :=
  max s₁.paramEffects.length s₂.paramEffects.length

/-- `summary<=`. -/
def summaryLe (new old : EscapeSummary) : Bool :=
  ((List.range (maxParamCount new old)).all fun i => effectForArg new i ≤ effectForArg old i) &&
    decide (new.restOf ≤ old.restOf) &&
    (!old.returnsFresh || new.returnsFresh) &&
    (old.barrier || !new.barrier)

/-- The effect listed for a position, `:none` if none is. -/
def listed (s : EscapeSummary) (i : Nat) : Effect := (s.paramEffects[i]?).getD .none

/-- The rest effect of the join. -/
def joinRest : Option Effect → Option Effect → Option Effect
  | some r₁, some r₂ => some (effectJoin r₁ r₂)
  | r₁, r₂ => r₁.or r₂

/-- Fresh neither always nor under a condition on classes. -/
def neverFresh (s : EscapeSummary) : Bool := !s.returnsFresh && s.freshIfClassesTrusted.isEmpty

/-- The freshness of the join: `returns-fresh-p` and `fresh-if-classes-trusted`. -/
def joinFresh (s₁ s₂ : EscapeSummary) : Bool × List Symbol :=
  if s₁.neverFresh || s₂.neverFresh then (false, [])
  else if s₁.returnsFresh && s₂.returnsFresh then (true, [])
  else (false, (if s₁.returnsFresh then [] else s₁.freshIfClassesTrusted) ∪
    (if s₂.returnsFresh then [] else s₂.freshIfClassesTrusted))

/-- `summary-join`. -/
def summaryJoin (s₁ s₂ : EscapeSummary) : EscapeSummary where
  paramEffects := (List.range (maxParamCount s₁ s₂)).map fun i =>
    effectJoin (s₁.listed i) (s₂.listed i)
  restEffect := joinRest s₁.restEffect s₂.restEffect
  returnsFresh := (joinFresh s₁ s₂).1
  freshIfClassesTrusted := (joinFresh s₁ s₂).2
  returnsKind := if s₁.returnsKind = s₂.returnsKind then s₁.returnsKind else .none
  barrier := s₁.barrier || s₂.barrier

/-! ## §3 Positions -/

section Positions

variable {s s₁ s₂ s₃ : EscapeSummary} {i : Nat}

theorem effectForArg_of_lt (h : i < s.paramEffects.length) : effectForArg s i = s.listed i := by
  simp [effectForArg, listed, List.getElem?_eq_getElem h]

theorem effectForArg_of_le (h : s.paramEffects.length ≤ i) : effectForArg s i = s.restOf := by
  simp [effectForArg, restOf, List.getElem?_eq_none h]

theorem listed_of_le (h : s.paramEffects.length ≤ i) : s.listed i = .none := by
  simp [listed, List.getElem?_eq_none h]

@[simp] theorem length_paramEffects_join :
    (summaryJoin s₁ s₂).paramEffects.length = maxParamCount s₁ s₂ := by
  simp [summaryJoin]

/-- At every position the join lists the maximum of what its arguments list. -/
theorem listed_join : (summaryJoin s₁ s₂).listed i = max (s₁.listed i) (s₂.listed i) := by
  rcases Nat.lt_or_ge i (maxParamCount s₁ s₂) with h | h
  · simp [listed, summaryJoin, h, effectJoin_eq_max]
  · obtain ⟨h₁, h₂⟩ := Nat.max_le.mp h
    rw [listed_of_le h₁, listed_of_le h₂, listed_of_le (by simpa using h), max_self]

theorem effectForArg_join_of_lt (h : i < maxParamCount s₁ s₂) :
    effectForArg (summaryJoin s₁ s₂) i = max (s₁.listed i) (s₂.listed i) := by
  rw [effectForArg_of_lt (by simpa using h), listed_join]

theorem effectForArg_join_of_le (h : maxParamCount s₁ s₂ ≤ i) :
    effectForArg (summaryJoin s₁ s₂) i = (joinRest s₁.restEffect s₂.restEffect).getD .retained :=
  effectForArg_of_le (by simpa using h)

end Positions

/-! ## §4 Laws -/

/-- Where `s₂` alone lists a position, or alone has a rest effect, it is no weaker than
what `s₁` means there. -/
structure Covers (s₁ s₂ : EscapeSummary) : Prop where
  params : ∀ i, s₁.paramEffects.length ≤ i → i < s₂.paramEffects.length →
    s₁.restOf ≤ s₂.listed i
  rest : s₁.restEffect = .none → ∀ r, s₂.restEffect = some r → r = .retained

section Laws

variable {s₁ s₂ s₃ : EscapeSummary}

/-- `summary<=` compares what a caller is told of every argument. -/
theorem summaryLe_iff {new old : EscapeSummary} : summaryLe new old = true ↔
    (∀ i, effectForArg new i ≤ effectForArg old i) ∧
      (old.returnsFresh = true → new.returnsFresh = true) ∧
      (new.barrier = true → old.barrier = true) := by
  simp only [summaryLe, Bool.and_eq_true, List.all_eq_true, List.mem_range, decide_eq_true_eq,
    Bool.or_eq_true, Bool.not_eq_true']
  constructor
  · rintro ⟨⟨⟨hparams, hrest⟩, hfresh⟩, hbarrier⟩
    refine ⟨fun i => ?_, fun h => hfresh.resolve_left (by simp [h]),
      fun h => hbarrier.resolve_right (by simp [h])⟩
    rcases Nat.lt_or_ge i (maxParamCount new old) with h | h
    · exact hparams i h
    · obtain ⟨h₁, h₂⟩ := Nat.max_le.mp h
      rwa [effectForArg_of_le h₁, effectForArg_of_le h₂]
  · rintro ⟨heffects, hfresh, hbarrier⟩
    have hrest := heffects (maxParamCount new old)
    have h₁ : new.paramEffects.length ≤ maxParamCount new old := Nat.le_max_left _ _
    have h₂ : old.paramEffects.length ≤ maxParamCount new old := Nat.le_max_right _ _
    rw [effectForArg_of_le h₁, effectForArg_of_le h₂] at hrest
    refine ⟨⟨⟨fun i _ => heffects i, hrest⟩, ?_⟩, ?_⟩
    · cases h : old.returnsFresh with
      | false => exact Or.inl rfl
      | true => exact Or.inr (hfresh h)
    · cases h : new.barrier with
      | false => exact Or.inr rfl
      | true => exact Or.inl (hbarrier h)

/-- `summary<=` looks at finitely many positions and decides the order on all of them, which
is reflexive and transitive whatever the arities. -/
theorem summaryLe_exact :
    (∀ new old, summaryLe new old = true ↔
      (∀ i, effectForArg new i ≤ effectForArg old i) ∧
        (old.returnsFresh = true → new.returnsFresh = true) ∧
        (new.barrier = true → old.barrier = true)) ∧
      (∀ s, summaryLe s s = true) ∧
      ∀ s t u, summaryLe s t = true → summaryLe t u = true → summaryLe s u = true := by
  refine ⟨fun new old => summaryLe_iff, fun s => ?_, fun s t u hst htu => ?_⟩
  · exact summaryLe_iff.mpr ⟨fun _ => le_rfl, id, id⟩
  · obtain ⟨heffects, hfresh, hbarrier⟩ := summaryLe_iff.mp hst
    obtain ⟨heffects', hfresh', hbarrier'⟩ := summaryLe_iff.mp htu
    refine summaryLe_iff.mpr ⟨fun i => (heffects i).trans (heffects' i), ?_, ?_⟩
    · exact fun h => hfresh (hfresh' h)
    · exact fun h => hbarrier' (hbarrier h)

theorem returnsFresh_join :
    (summaryJoin s₁ s₂).returnsFresh = (s₁.returnsFresh && s₂.returnsFresh) := by
  have hfst : (joinFresh s₁ s₂).1 = (s₁.returnsFresh && s₂.returnsFresh) := by
    unfold joinFresh
    split
    · rename_i h
      simp only [neverFresh, Bool.or_eq_true, Bool.and_eq_true, Bool.not_eq_true'] at h
      rcases h with h | h <;> simp [h.1]
    · split
      · rename_i h
        exact h.symm
      · rename_i h
        exact (Bool.eq_false_iff.mpr h).symm
  exact hfst

theorem effectForArg_le_join_of_lt {i : Nat} (h : i < s₁.paramEffects.length) :
    effectForArg s₁ i ≤ effectForArg (summaryJoin s₁ s₂) i := by
  rw [effectForArg_of_lt h, effectForArg_join_of_lt (Nat.lt_of_lt_of_le h (Nat.le_max_left _ _))]
  exact le_max_left _ _

/-- Only the positions that `s₁` does not list decide. -/
theorem forall_effectForArg_le_join_iff :
    (∀ i, effectForArg s₁ i ≤ effectForArg (summaryJoin s₁ s₂) i) ↔ Covers s₁ s₂ := by
  constructor
  · intro h
    constructor
    · intro i h₁ h₂
      have hi := h i
      rwa [effectForArg_of_le h₁,
        effectForArg_join_of_lt (Nat.lt_of_lt_of_le h₂ (Nat.le_max_right _ _)),
        listed_of_le h₁, max_eq_right (Effect.none_le _)] at hi
    · intro h₁ r h₂
      have hlen : s₁.paramEffects.length ≤ maxParamCount s₁ s₂ := Nat.le_max_left _ _
      have hi := h (maxParamCount s₁ s₂)
      rw [effectForArg_of_le hlen, effectForArg_join_of_le le_rfl, restOf, h₁, h₂] at hi
      exact le_antisymm (Effect.le_retained r) hi
  · intro hc i
    rcases Nat.lt_or_ge i s₁.paramEffects.length with h₁ | h₁
    · exact effectForArg_le_join_of_lt h₁
    rw [effectForArg_of_le h₁]
    rcases Nat.lt_or_ge i s₂.paramEffects.length with h₂ | h₂
    · rw [effectForArg_join_of_lt (Nat.lt_of_lt_of_le h₂ (Nat.le_max_right _ _))]
      exact (hc.params i h₁ h₂).trans (le_max_right _ _)
    · rw [effectForArg_join_of_le (Nat.max_le.mpr ⟨h₁, h₂⟩), restOf]
      cases hr₁ : s₁.restEffect with
      | some r₁ =>
        cases s₂.restEffect with
        | some r₂ => simp [joinRest, effectJoin_eq_max]
        | none => simp [joinRest]
      | none =>
        cases hr₂ : s₂.restEffect with
        | some r₂ => simp [joinRest, hc.rest hr₁ r₂ hr₂]
        | none => simp [joinRest]

theorem joinRest_comm (r₁ r₂ : Option Effect) : joinRest r₁ r₂ = joinRest r₂ r₁ := by
  cases r₁ <;> cases r₂ <;> simp [joinRest, effectJoin_eq_max, max_comm]

theorem joinRest_assoc (r₁ r₂ r₃ : Option Effect) :
    joinRest (joinRest r₁ r₂) r₃ = joinRest r₁ (joinRest r₂ r₃) := by
  cases r₁ <;> cases r₂ <;> cases r₃ <;> simp [joinRest, effectJoin_eq_max, max_assoc]

theorem effectForArg_join_comm (i : Nat) :
    effectForArg (summaryJoin s₁ s₂) i = effectForArg (summaryJoin s₂ s₁) i := by
  have hlen : maxParamCount s₁ s₂ = maxParamCount s₂ s₁ := max_comm _ _
  rcases Nat.lt_or_ge i (maxParamCount s₁ s₂) with h | h
  · rw [effectForArg_join_of_lt h, effectForArg_join_of_lt (hlen ▸ h), max_comm]
  · rw [effectForArg_join_of_le h, effectForArg_join_of_le (hlen ▸ h), joinRest_comm]

theorem effectForArg_join_assoc (i : Nat) :
    effectForArg (summaryJoin (summaryJoin s₁ s₂) s₃) i =
      effectForArg (summaryJoin s₁ (summaryJoin s₂ s₃)) i := by
  have hlen : maxParamCount (summaryJoin s₁ s₂) s₃ = maxParamCount s₁ (summaryJoin s₂ s₃) := by
    simp [maxParamCount, max_assoc]
  rcases Nat.lt_or_ge i (maxParamCount (summaryJoin s₁ s₂) s₃) with h | h
  · rw [effectForArg_join_of_lt h, effectForArg_join_of_lt (hlen ▸ h), listed_join, listed_join,
      max_assoc]
  · rw [effectForArg_join_of_le h, effectForArg_join_of_le (hlen ▸ h)]
    exact congrArg (·.getD .retained) (joinRest_assoc _ _ _)

/-- Two summaries that a consumer cannot tell apart. -/
theorem summaryLe_of_eq {new old : EscapeSummary}
    (heffects : ∀ i, effectForArg new i = effectForArg old i)
    (hfresh : new.returnsFresh = old.returnsFresh) (hbarrier : new.barrier = old.barrier) :
    summaryLe new old = true :=
  summaryLe_iff.mpr ⟨fun i => (heffects i).le, fun h => hfresh.trans h, fun h => hbarrier ▸ h⟩

theorem summaryLe_join_comm : summaryLe (summaryJoin s₁ s₂) (summaryJoin s₂ s₁) = true := by
  refine summaryLe_of_eq effectForArg_join_comm ?_ (Bool.or_comm _ _)
  rw [returnsFresh_join, returnsFresh_join, Bool.and_comm]

theorem summaryLe_join_left_iff : summaryLe s₁ (summaryJoin s₁ s₂) = true ↔ Covers s₁ s₂ := by
  rw [summaryLe_iff, forall_effectForArg_le_join_iff, and_iff_left]
  refine ⟨fun h => ?_, fun h => ?_⟩
  · rw [returnsFresh_join, Bool.and_eq_true] at h
    exact h.1
  · simp [summaryJoin, h]

theorem forall_effectForArg_le_join_right_iff :
    (∀ i, effectForArg s₂ i ≤ effectForArg (summaryJoin s₁ s₂) i) ↔ Covers s₂ s₁ := by
  rw [← forall_effectForArg_le_join_iff]
  exact forall_congr' fun i => by rw [effectForArg_join_comm]

theorem summaryLe_join_right_iff : summaryLe s₂ (summaryJoin s₁ s₂) = true ↔ Covers s₂ s₁ := by
  rw [summaryLe_iff, forall_effectForArg_le_join_right_iff, and_iff_left]
  refine ⟨fun h => ?_, fun h => ?_⟩
  · rw [returnsFresh_join, Bool.and_eq_true] at h
    exact h.2
  · simp [summaryJoin, h]

end Laws

/-- What `summary-join` promises its consumers. -/
structure JoinSound (s₁ s₂ s₃ : EscapeSummary) : Prop where
  left : ∀ i, effectForArg s₁ i ≤ effectForArg (summaryJoin s₁ s₂) i
  right : ∀ i, effectForArg s₂ i ≤ effectForArg (summaryJoin s₁ s₂) i
  le_left : summaryLe s₁ (summaryJoin s₁ s₂) = true
  le_right : summaryLe s₂ (summaryJoin s₁ s₂) = true
  comm : summaryLe (summaryJoin s₁ s₂) (summaryJoin s₂ s₁) = true
  assoc : summaryLe (summaryJoin (summaryJoin s₁ s₂) s₃) (summaryJoin s₁ (summaryJoin s₂ s₃)) =
    true ∧
    summaryLe (summaryJoin s₁ (summaryJoin s₂ s₃)) (summaryJoin (summaryJoin s₁ s₂) s₃) = true

theorem summaryLe_join_assoc (s₁ s₂ s₃ : EscapeSummary) :
    summaryLe (summaryJoin (summaryJoin s₁ s₂) s₃) (summaryJoin s₁ (summaryJoin s₂ s₃)) = true ∧
      summaryLe (summaryJoin s₁ (summaryJoin s₂ s₃)) (summaryJoin (summaryJoin s₁ s₂) s₃) =
      true := by
  have hfresh : (summaryJoin (summaryJoin s₁ s₂) s₃).returnsFresh =
      (summaryJoin s₁ (summaryJoin s₂ s₃)).returnsFresh := by
    simp only [returnsFresh_join, Bool.and_assoc]
  have hbarrier : (summaryJoin (summaryJoin s₁ s₂) s₃).barrier =
      (summaryJoin s₁ (summaryJoin s₂ s₃)).barrier := Bool.or_assoc _ _ _
  exact ⟨summaryLe_of_eq effectForArg_join_assoc hfresh hbarrier,
    summaryLe_of_eq (fun i => (effectForArg_join_assoc i).symm) hfresh.symm hbarrier.symm⟩

/-- The join is sound exactly where each argument is covered by the other; it is
commutative and associative for its consumers everywhere. -/
theorem summaryJoin_sound_iff (s₁ s₂ s₃ : EscapeSummary) :
    (JoinSound s₁ s₂ s₃ ↔ Covers s₁ s₂ ∧ Covers s₂ s₁) ∧
      summaryLe (summaryJoin s₁ s₂) (summaryJoin s₂ s₁) = true ∧
      summaryLe (summaryJoin (summaryJoin s₁ s₂) s₃) (summaryJoin s₁ (summaryJoin s₂ s₃)) = true ∧
      summaryLe (summaryJoin s₁ (summaryJoin s₂ s₃)) (summaryJoin (summaryJoin s₁ s₂) s₃) =
      true := by
  refine ⟨⟨fun h => ?_, fun h => ?_⟩, summaryLe_join_comm, summaryLe_join_assoc s₁ s₂ s₃⟩
  · exact ⟨summaryLe_join_left_iff.mp h.le_left, summaryLe_join_right_iff.mp h.le_right⟩
  · exact
      { left := forall_effectForArg_le_join_iff.mpr h.1
        right := forall_effectForArg_le_join_right_iff.mpr h.2
        le_left := summaryLe_join_left_iff.mpr h.1
        le_right := summaryLe_join_right_iff.mpr h.2
        comm := summaryLe_join_comm
        assoc := summaryLe_join_assoc s₁ s₂ s₃ }

/-- A summary of one read-only parameter joined with one that also has a read-only rest
effect: the second argument, retained by the first, becomes read-only. -/
theorem summaryJoin_not_upper :
    ¬ JoinSound { paramEffects := [.none] }
      { paramEffects := [.none], restEffect := some .none } {} := by
  intro h
  exact absurd (h.left 1) (by decide)

end EscapeSummary

end Fol.Escape
