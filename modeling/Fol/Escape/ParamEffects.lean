/-
Fol.Escape.ParamEffects — the parameter effects `infer-summary` finds, as a least
solution over the direct uses of the parameters.

A use has an effect of its own, except for an argument of a call the function makes to
itself: that one has the effect of the parameter in its place. The inferred effect of a
parameter is the largest that reaches it through its uses, unless the rounds run out.

  §1 Flows  — `sourceOf`, `flowsOf`.
  §2 Rounds — `Solves`: one pass, and the rounds that end, list the least solution.
-/
import Fol.Lib.Flow
import Fol.Escape.Infer

namespace Fol.Escape

open Lib EscapeSummary

instance : OrderBot Effect where
  bot := .none
  bot_le := Effect.none_le

/-! ## §1 Flows -/

/-- The call is one the function makes to itself, under the name it is assumed by. -/
def callsSelf (self operator : Option Symbol) : Bool :=
  operator.any fun op => self = some op && op.package ≠ keywordPackage

/-- Where the effect of a use comes from, in a function of `count` parameters. -/
def sourceOf (Γ : Env) (self : Option Symbol) (count : Nat) (u : ParamUse) : Source Nat Effect :=
  match u with
  | .passed operator kw index =>
    if !(kw && index == 0) && callsSelf self operator then
      if index < count then .of index else .const .retained
    else .const (u.effect Γ)
  | .returned => .const (u.effect Γ)
  | .captured => .const (u.effect Γ)

/-- The sources of every parameter, from what the walk has seen. -/
def flowsOf (Γ : Env) (self : Option Symbol) (params : Params) (seen : List Seen) (index : Nat) :
    List (Source Nat Effect) :=
  (usesAt params.names seen index).map (sourceOf Γ self params.names.length)

/-- The name the rounds of `infer-summary` assume a summary for, if there are rounds. -/
def assumedName (name : Option Symbol) (params : Params) (body : List Ast) : Option Symbol :=
  name.filter fun _ => !containsRecur (.fn name [(params, body)])

/-! ## §2 Rounds -/

section Rounds

variable {Γ : Env} {params : Params} {body : List Ast}

theorem foldl_effectJoin {α : Type} (f : α → Effect) (us : List α) (a : Effect) :
    let e := us.foldl (fun e u => effectJoin e (f u)) a
    a ≤ e ∧ (∀ u ∈ us, f u ≤ e) ∧ (e = a ∨ ∃ u ∈ us, e = f u) := by
  induction us generalizing a with
  | nil => simp
  | cons u us ih =>
    obtain ⟨hle, hall, hatt⟩ := ih (effectJoin a (f u))
    rw [effectJoin_eq_max] at hle hatt
    obtain ⟨ha, hu⟩ := max_le_iff.mp hle
    simp only [List.foldl_cons]
    rw [effectJoin_eq_max] at *
    refine ⟨ha, List.forall_mem_cons.mpr ⟨hu, hall⟩, ?_⟩
    rcases hatt with heq | ⟨u', hu', heq⟩
    · rcases max_choice a (f u) with hmax | hmax
      · exact .inl (heq.trans hmax)
      · exact .inr ⟨u, List.mem_cons_self, heq.trans hmax⟩
    · exact .inr ⟨u', List.mem_cons_of_mem _ hu', heq⟩

/-- A summary the rounds work with: it lists every parameter and has no rest effect. -/
structure Shaped (params : Params) (s : EscapeSummary) : Prop where
  length : s.paramEffects.length = params.names.length
  rest : s.restEffect = none

variable (Γ params body) in
theorem shaped_singlePass : Shaped params (inferSummarySinglePass Γ params body) :=
  ⟨by simp [inferSummarySinglePass], rfl⟩

theorem Shaped.join {s t : EscapeSummary} (hs : Shaped params s) (ht : Shaped params t) :
    Shaped params (summaryJoin s t) := by
  refine ⟨?_, ?_⟩
  · rw [length_paramEffects_join, maxParamCount, hs.length, ht.length, max_self]
  · rw [summaryJoin, hs.rest, ht.rest]
    rfl

theorem lookupSummary_assume {f op : Symbol} {s : EscapeSummary} :
    (Γ.assume f s).lookupSummary op =
      if callsSelf (some f) (some op) then some s else Γ.lookupSummary op := by
  by_cases hk : op.package = keywordPackage
  · simp [Env.lookupSummary, callsSelf, hk]
  · by_cases hf : op = f
    · subst hf
      simp [Env.lookupSummary, Env.assume, callsSelf, hk]
    · simp [Env.lookupSummary, Env.assume, Env.resolves, callsSelf, hk, hf, Ne.symm hf]

/-- A use has the effect of its source. -/
theorem effect_assume {cur : EscapeSummary} (hcur : Shaped params cur) (f : Symbol)
    (u : ParamUse) :
    u.effect (Γ.assume f cur) = (sourceOf Γ (some f) params.names.length u).value cur.listed := by
  cases u with
  | returned => rfl
  | captured => rfl
  | passed operator kw index =>
    cases operator with
    | none => simp [ParamUse.effect, sourceOf, callsSelf, Source.value]
    | some op =>
      rw [ParamUse.effect, sourceOf, Option.bind_some, lookupSummary_assume]
      cases hkw : kw && index == 0 with
      | true => simp [Source.value, ParamUse.effect, hkw]
      | false =>
        cases hself : callsSelf (some f) (some op) with
        | false => simp [Source.value, ParamUse.effect, hkw]
        | true =>
          have hlen := hcur.length
          by_cases hlt : index < params.names.length
          · simp [Source.value, hlt, effectForArg_of_lt (hlen ▸ hlt)]
          · have hle : cur.paramEffects.length ≤ index := by omega
            simp [Source.value, hlt, effectForArg_of_le hle, restOf, hcur.rest]

variable (Γ params) in
theorem effect_eq_source (v : Nat → Effect) (u : ParamUse) :
    u.effect Γ = (sourceOf Γ none params.names.length u).value v := by
  cases u with
  | returned => rfl
  | captured => rfl
  | passed operator kw index =>
    have hself : callsSelf none operator = false := by
      cases operator <;> simp [callsSelf]
    simp [sourceOf, hself, Source.value]

theorem usesAt_eq_nil {params : List (Option Symbol)} {seen : List Seen} {i : Nat}
    (h : params.length ≤ i) : usesAt params seen i = [] := by
  rw [usesAt, List.filterMap_eq_nil_iff]
  intro s _
  cases s with
  | called op => rfl
  | use name u =>
    refine if_neg fun hidx => ?_
    obtain ⟨hlt, -⟩ := List.findIdx?_eq_some_iff_getElem.mp hidx
    omega

theorem listed_singlePass (i : Nat) :
    (inferSummarySinglePass Γ params body).listed i =
      (usesAt params.names (inferWalkBody true body) i).foldl
        (fun e u => effectJoin e (u.effect Γ)) .none := by
  rcases Nat.lt_or_ge i params.names.length with h | h
  · simp [listed, inferSummarySinglePass, h]
  · have hlen := (shaped_singlePass Γ params body).length
    rw [usesAt_eq_nil h, listed_of_le (hlen ▸ h)]
    rfl

variable (body) in
/-- One pass gives every parameter the largest of its sources. -/
theorem singlePass_sources {Δ : Env} {self : Option Symbol} {v : Nat → Effect}
    (heff : ∀ u : ParamUse, u.effect Δ = (sourceOf Γ self params.names.length u).value v)
    (i : Nat) :
    (∀ s ∈ flowsOf Γ self params (inferWalkBody true body) i,
        s.value v ≤ (inferSummarySinglePass Δ params body).listed i) ∧
      ((inferSummarySinglePass Δ params body).listed i = ⊥ ∨
        ∃ s ∈ flowsOf Γ self params (inferWalkBody true body) i,
          (inferSummarySinglePass Δ params body).listed i = s.value v) := by
  obtain ⟨-, hall, hatt⟩ := foldl_effectJoin (ParamUse.effect Δ)
    (usesAt params.names (inferWalkBody true body) i) .none
  rw [← listed_singlePass] at hall hatt
  refine ⟨fun s hs => ?_, ?_⟩
  · obtain ⟨u, hu, rfl⟩ := List.mem_map.mp hs
    rw [← heff]
    exact hall u hu
  · rcases hatt with hnone | ⟨u, hu, heq⟩
    · exact .inl hnone
    · exact .inr ⟨_, List.mem_map_of_mem hu, heq.trans (heff u)⟩

/-- The summary lists the least solution of the flows. -/
structure Solves (Γ : Env) (self : Option Symbol) (params : Params) (body : List Ast)
    (s : EscapeSummary) : Prop where
  shaped : Shaped params s
  iff : ∀ e i, e ≤ s.listed i ↔
    e = ⊥ ∨ FlowsTo (flowsOf Γ self params (inferWalkBody true body)) e i

variable (Γ params body) in
theorem singlePass_solves : Solves Γ none params body (inferSummarySinglePass Γ params body) := by
  have hsources := singlePass_sources body
    (effect_eq_source Γ params (inferSummarySinglePass Γ params body).listed)
  refine ⟨shaped_singlePass Γ params body, fun e i => Grounded.le_iff ?_ fun j => (hsources j).1⟩
  have hbot := singlePass_sources body (effect_eq_source Γ params fun _ => ⊥)
  exact grounded_bot.round fun j => by
    rcases (hbot j).2 with hnone | ⟨s, hs, heq⟩
    · exact .inl hnone.le
    · exact .inr ⟨s, hs, heq.le⟩

theorem listed_le_of_summaryLe {s t : EscapeSummary} (hs : Shaped params s) (ht : Shaped params t)
    (h : summaryLe s t = true) (i : Nat) : s.listed i ≤ t.listed i := by
  rcases Nat.lt_or_ge i params.names.length with hi | hi
  · rw [summaryLe, Bool.and_eq_true, Bool.and_eq_true, Bool.and_eq_true, List.all_eq_true] at h
    have hle := h.1.1.1 i (List.mem_range.mpr (by rw [maxParamCount, hs.length]; omega))
    rw [decide_eq_true_eq, effectForArg_of_lt (hs.length ▸ hi), effectForArg_of_lt (ht.length ▸ hi)]
      at hle
    exact hle
  · rw [listed_of_le (hs.length ▸ hi)]
    exact Effect.none_le _

theorem inferRounds_solves {f : Symbol} {rounds : Nat} {cur F : EscapeSummary}
    (hcur : Shaped params cur)
    (hg : Grounded (flowsOf Γ (some f) params (inferWalkBody true body)) cur.listed)
    (h : inferRounds Γ f params body rounds cur = some F) : Solves Γ (some f) params body F := by
  induction rounds generalizing cur with
  | zero => cases h
  | succ rounds ih =>
    have hsources := singlePass_sources body (effect_assume (Γ := Γ) hcur f)
    have hjoined := hcur.join (shaped_singlePass (Γ.assume f cur) params body)
    have hlisted (i : Nat) : (summaryJoin cur (inferSummarySinglePass (Γ.assume f cur) params
        body)).listed i = max (cur.listed i)
          ((inferSummarySinglePass (Γ.assume f cur) params body).listed i) := listed_join
    rw [inferRounds] at h
    generalize inferSummarySinglePass (Γ.assume f cur) params body =
      next at h hsources hjoined hlisted
    cases hle : summaryLe (summaryJoin cur next) cur with
    | true =>
      -- the round changed nothing: the summary is a solution, and it is grounded
      rw [hle, if_pos rfl] at h
      cases h
      have heq (i : Nat) : (summaryJoin cur next).listed i = cur.listed i :=
        le_antisymm (listed_le_of_summaryLe hjoined hcur hle i)
        (by rw [hlisted]; exact le_max_left _ _)
      refine ⟨hjoined, fun e i => ?_⟩
      rw [heq]
      refine hg.le_iff fun j s hs => ?_
      calc s.value cur.listed ≤ next.listed j := (hsources j).1 s hs
        _ ≤ (summaryJoin cur next).listed j := by rw [hlisted]; exact le_max_right _ _
        _ = cur.listed j := heq j
    | false =>
      rw [hle, if_neg Bool.false_ne_true] at h
      refine ih hjoined (hg.round fun j => ?_) h
      rw [hlisted]
      rcases max_choice (cur.listed j) (next.listed j) with hmax | hmax
      · exact .inl hmax.le
      · rw [hmax]
        rcases (hsources j).2 with hnone | ⟨s, hs, heq⟩
        · exact .inl (hnone.le.trans bot_le)
        · exact .inr ⟨s, hs, heq.le⟩

theorem shaped_optimistic : Shaped params (optimisticSummary params body) :=
  ⟨List.length_replicate, rfl⟩

theorem listed_replicate {n : Nat} {e : Effect} {s : EscapeSummary}
    (h : s.paramEffects = List.replicate n e) {i : Nat} (hi : i < n) : s.listed i = e := by
  simp [listed, h, hi]

theorem listed_optimistic : (optimisticSummary params body).listed = fun _ => ⊥ := by
  funext i
  rcases Nat.lt_or_ge i params.names.length with hi | hi
  · exact listed_replicate rfl hi
  · exact listed_of_le (by rw [shaped_optimistic.length]; exact hi)

theorem grounded_optimistic {flows : Nat → List (Source Nat Effect)} :
    Grounded flows (optimisticSummary params body).listed := by
  rw [listed_optimistic]
  exact grounded_bot

theorem inferSummary_of_none {name : Option Symbol} (h : assumedName name params body = none) :
    inferSummary Γ name params body = inferSummarySinglePass Γ params body := by
  cases name with
  | none => rfl
  | some f =>
    rw [assumedName, Option.filter_eq_none_iff] at h
    have hrecur := h f rfl
    rw [Bool.not_eq_true', Bool.not_eq_false] at hrecur
    rw [inferSummary, if_pos hrecur]

theorem inferSummary_of_some {name : Option Symbol} {f : Symbol}
    (h : assumedName name params body = some f) :
    inferSummary Γ name params body =
      (inferRounds Γ f params body 5 (optimisticSummary params body)).getD
        (conservativeSummary params body) := by
  obtain ⟨rfl, hrecur⟩ := Option.filter_eq_some_iff.mp h
  rw [Bool.not_eq_true'] at hrecur
  rw [inferSummary, hrecur, if_neg Bool.false_ne_true]

end Rounds

end Fol.Escape
