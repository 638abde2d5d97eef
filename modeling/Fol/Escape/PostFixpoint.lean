/-
Fol.Escape.PostFixpoint — what `infer-summary` returns, held against one more pass of the
analysis.

The rounds stop at a summary that the next pass stays below, whatever the body. Where they
run out, the summary put in their place has every parameter retained and promises nothing
fresh, but its barrier flag is the default of the structure: the barrier the passes had found
is dropped. Rounds run out when an effect takes a chain of four self-call arguments to reach
a parameter. A function with `recur` gets no rounds: its self-calls are judged by the summary
that its name had before.
-/
import Fol.Escape.ReturnsFresh

namespace Fol.Escape

open Lib EscapeSummary

/-! ## §1 Tail -/

section Tail

/-- What is fresh in the first environment is fresh in the second. -/
def FreshEnv.Le (env env' : FreshEnv) : Prop :=
  ∀ x, ((env.lookup x).getD (false, [])).1 = true → ((env'.lookup x).getD (false, [])).1 = true

theorem FreshEnv.Le.cons {env env' : FreshEnv} (h : env.Le env') {x : Symbol}
    {f f' : Bool × List Symbol} (hf : f.1 = true → f'.1 = true) :
    FreshEnv.Le ((x, f) :: env) ((x, f') :: env') := by
  intro y hy
  rw [List.lookup_cons] at hy ⊢
  cases hxy : y == x with
  | true =>
    rw [hxy] at hy
    exact hf hy
  | false =>
    rw [hxy] at hy
    exact h y hy

variable {Δ Γ : Env} {params : List (Option Symbol)}

theorem freshTailValueP_call (hclass : Δ.persistentClass = Γ.persistentClass)
    (hcall : ∀ op, freshCall Δ op = true → freshCall Γ op = true) {env env' : FreshEnv} {op : Ast}
    {args : List Ast} (h : (freshTailValueP Δ params env (.call op args)).1 = true) :
    (freshTailValueP Γ params env' (.call op args)).1 = true := by
  have hfresh := hcall _ (freshCall_of_fresh h)
  have hsame :
    tier2ConstructorClass Γ (.call op args) = tier2ConstructorClass Δ (.call op args) := by
    cases op <;> simp only [tier2ConstructorClass, hclass]
  rw [freshTailValueP] at h ⊢
  rw [hsame]
  cases hc : tier2ConstructorClass Δ (.call op args) with
  | some c => simp [hc] at h
  | none =>
    rw [freshCall, ← initCallSummary] at hfresh
    cases hs : initCallSummary Γ (.call op args) with
    | none => simp [hs] at hfresh
    | some s => simpa [hs] using hfresh

mutual

/-- More calls judged fresh, and more locals: the tail stays fresh. -/
theorem freshTailValueP_mono (hclass : Δ.persistentClass = Γ.persistentClass)
    (hcall : ∀ op, freshCall Δ op = true → freshCall Γ op = true) :
    ∀ (n : Ast) {env env' : FreshEnv}, env.Le env' →
      (freshTailValueP Δ params env n).1 = true → (freshTailValueP Γ params env' n).1 = true
  | .call _ _, _, _, _, h => freshTailValueP_call hclass hcall h
  | .symbolRef x, _, _, henv, h => by
    rw [freshTailValueP] at h ⊢
    split at h
    · cases h
    · rename_i hmem
      rw [if_neg hmem]
      exact henv x h
  | .ifNode _ thn els, _, _, henv, h => by
    rw [freshTailValueP, Bool.and_eq_true] at h ⊢
    exact ⟨freshTailValueP_mono hclass hcall thn henv h.1, freshElse_mono hclass hcall els henv h.2⟩
  | .doNode body, _, _, henv, h => by
    rw [freshTailValueP] at h ⊢
    exact freshLast_mono hclass hcall body henv h
  | .bind bindings body, _, _, henv, h => by
    rw [freshTailValueP] at h ⊢
    exact freshLast_mono hclass hcall body (freshBindings_mono hclass hcall bindings henv) h
  | .vector _, _, _, _, _ | .dict _, _, _, _, _ | .set _, _, _, _, _ | .literal _, _, _, _, _
  | .quote _, _, _, _, _ => by rw [freshTailValueP]
  | .fn _ _, _, _, _, h | .letfn _ _, _, _, _, h | .loop _ _, _, _, _, h | .recur _, _, _, _, h
  | .case _ _, _, _, _, h | .cond _, _, _, _, h | .threadFirst _, _, _, _, h
  | .other _, _, _, _, h => by simp [freshTailValueP] at h

theorem freshElse_mono (hclass : Δ.persistentClass = Γ.persistentClass)
    (hcall : ∀ op, freshCall Δ op = true → freshCall Γ op = true) :
    ∀ (ns : List Ast) {env env' : FreshEnv}, env.Le env' →
      (freshElse Δ params env ns).1 = true → (freshElse Γ params env' ns).1 = true
  | [], _, _, _, _ => rfl
  | n :: ns, _, _, henv, h => by
    rw [freshElse, Bool.and_eq_true] at h ⊢
    exact ⟨freshTailValueP_mono hclass hcall n henv h.1, freshElse_mono hclass hcall ns henv h.2⟩

theorem freshLast_mono (hclass : Δ.persistentClass = Γ.persistentClass)
    (hcall : ∀ op, freshCall Δ op = true → freshCall Γ op = true) :
    ∀ (ns : List Ast) {env env' : FreshEnv}, env.Le env' →
      (freshLast Δ params env ns).1 = true → (freshLast Γ params env' ns).1 = true
  | [], _, _, _, _ => rfl
  | [n], _, _, henv, h => by
    rw [freshLast] at h ⊢
    exact freshTailValueP_mono hclass hcall n henv h
  | _ :: m :: ns, _, _, henv, h => by
    simp only [freshLast] at h ⊢
    exact freshLast_mono hclass hcall (m :: ns) henv h

theorem freshBindings_mono (hclass : Δ.persistentClass = Γ.persistentClass)
    (hcall : ∀ op, freshCall Δ op = true → freshCall Γ op = true) :
    ∀ (bs : List (Pattern × Ast)) {env env' : FreshEnv}, env.Le env' →
      (freshBindings Δ params env bs).Le (freshBindings Γ params env' bs)
  | [], _, _, henv => henv
  | (.symbol x, init) :: bs, _, _, henv => by
    rw [freshBindings, freshBindings]
    exact freshBindings_mono hclass hcall bs
      (henv.cons (freshTailValueP_mono hclass hcall init henv))
  | (.tree _ _, _) :: bs, _, _, henv => by
    rw [freshBindings, freshBindings]
    exact freshBindings_mono hclass hcall bs henv

end

end Tail

/-! ## §2 Conditions -/

/-- The walk meets a call of one of `+barrier-names+`. -/
def callsBarrier (body : List Ast) : Bool :=
  (inferWalkBody true body).any fun
    | .called op => barrierNames.contains op.name
    | .use _ _ => false

/-- An effect of at least `e` is that of a use of the parameter. -/
def UsedWith (Γ : Env) (params : Params) (body : List Ast) (e : Effect) (i : Nat) : Prop :=
  e = .none ∨ ∃ u ∈ usesAt params.names (inferWalkBody true body) i, e ≤ u.effect Γ

/-- What a self-call argument carries: every effect of a use of the parameter in whose place
it stands, is also that of a use of the parameter it is made from. -/
def Matched (Γ : Env) (f : Symbol) (params : Params) (body : List Ast) : Prop :=
  ∀ i, ∀ s ∈ flowsOf Γ (some f) params (inferWalkBody true body) i,
    match s with
    | .const e => UsedWith Γ params body e i
    | .of j => ∀ u ∈ usesAt params.names (inferWalkBody true body) j,
        UsedWith Γ params body (u.effect Γ) i

/-- Where the summary of a function stays above the next pass: with rounds, no barrier is
called or four rounds are enough for the effects; with `recur`, the self-calls carry nothing
that the uses do not have under the summary found for the name. -/
structure StableSummary (Γ : Env) (name : Option Symbol) (params : Params) (body : List Ast) :
    Prop where
  rounds : ∀ f, assumedName name params body = some f → callsBarrier body = true →
    SettledAfter (flowsOf Γ (some f) params (inferWalkBody true body)) 4
  recur : ∀ f, name = some f → assumedName name params body = none → Matched Γ f params body

/-! ## §3 One pass -/

section Pass

variable {Γ : Env} {params : Params} {body : List Ast} {s t : EscapeSummary}

theorem forall_effectForArg_le_iff (hs : Shaped params s) (ht : Shaped params t) :
    (∀ i, effectForArg s i ≤ effectForArg t i) ↔ ∀ i, s.listed i ≤ t.listed i := by
  have hlen := hs.length.trans ht.length.symm
  refine forall_congr' fun i => ?_
  rcases Nat.lt_or_ge i s.paramEffects.length with h | h
  · rw [effectForArg_of_lt h, effectForArg_of_lt (hlen ▸ h)]
  · rw [effectForArg_of_le h, effectForArg_of_le (hlen ▸ h), listed_of_le h,
      listed_of_le (hlen ▸ h), restOf, restOf, hs.rest, ht.rest]
    simp

variable (Γ params) in
theorem barrier_singlePass : (inferSummarySinglePass Γ params body).barrier = callsBarrier body :=
  rfl

/-- The pass under a summary put in for the function is below a bound exactly if the bound is
above the sources. -/
theorem listed_pass_le_iff (hs : Shaped params s) (f : Symbol) (bound : Nat → Effect) :
    (∀ i, (inferSummarySinglePass (Γ.assume f s) params body).listed i ≤ bound i) ↔
      ∀ i, ∀ src ∈ flowsOf Γ (some f) params (inferWalkBody true body) i,
        src.value s.listed ≤ bound i := by
  have hsources := singlePass_sources body (effect_assume (Γ := Γ) hs f)
  constructor
  · intro h i src hsrc
    exact ((hsources i).1 src hsrc).trans (h i)
  · intro h i
    rcases (hsources i).2 with hbot | ⟨src, hsrc, heq⟩
    · rw [hbot]
      exact bot_le
    · rw [heq]
      exact h i src hsrc

/-- A solution of the flows is above the pass under it. -/
theorem Solves.pass_le {f : Symbol} (h : Solves Γ (some f) params body s) (i : Nat) :
    (inferSummarySinglePass (Γ.assume f s) params body).listed i ≤ s.listed i := by
  obtain ⟨hshaped, hiff⟩ := h
  refine (listed_pass_le_iff hshaped f s.listed).mpr (fun j src hsrc => (hiff _ j).mpr ?_) i
  cases src with
  | const e => exact .inr (.const hsrc le_rfl)
  | of k => exact ((hiff _ k).mp le_rfl).imp_right (.of hsrc)

/-- What an effect of a plain pass is. -/
theorem le_listed_iff_usedWith {e : Effect} {i : Nat} :
    e ≤ (inferSummarySinglePass Γ params body).listed i ↔ UsedWith Γ params body e i := by
  obtain ⟨-, hall, hatt⟩ := foldl_effectJoin (ParamUse.effect Γ)
    (usesAt params.names (inferWalkBody true body) i) .none
  rw [← listed_singlePass] at hall hatt
  constructor
  · intro he
    rcases hatt with hnone | ⟨u, hu, heq⟩
    · exact .inl (le_antisymm (he.trans hnone.le) (Effect.none_le e))
    · exact .inr ⟨u, hu, he.trans heq.le⟩
  · rintro (rfl | ⟨u, hu, he⟩)
    · exact Effect.none_le _
    · exact he.trans (hall u hu)

theorem matched_iff {f : Symbol} : Matched Γ f params body ↔
    ∀ i, (inferSummarySinglePass (Γ.assume f (inferSummarySinglePass Γ params body)) params
      body).listed i ≤ (inferSummarySinglePass Γ params body).listed i := by
  rw [listed_pass_le_iff (shaped_singlePass Γ params body)]
  refine forall_congr' fun i => forall_congr' fun src => forall_congr' fun hsrc => ?_
  cases src with
  | const e => exact le_listed_iff_usedWith.symm
  | of j =>
    have hself : UsedWith Γ params body ((inferSummarySinglePass Γ params body).listed j) j :=
      le_listed_iff_usedWith.mp le_rfl
    constructor
    · intro h
      show (inferSummarySinglePass Γ params body).listed j ≤ _
      rcases hself with hnone | ⟨u, hu, hle⟩
      · rw [hnone]
        exact Effect.none_le _
      · exact hle.trans (le_listed_iff_usedWith.mpr (h u hu))
    · intro h u hu
      exact le_listed_iff_usedWith.mp ((le_listed_iff_usedWith.mpr (.inr ⟨u, hu, le_rfl⟩)).trans h)

end Pass

/-! ## §4 Rounds -/

section Rounds

variable {Γ : Env} {f : Symbol} {params : Params} {body : List Ast} {cur : EscapeSummary}

/-- What a round makes of the current summary. -/
def nextRound (Γ : Env) (f : Symbol) (params : Params) (body : List Ast) (cur : EscapeSummary) :
    EscapeSummary :=
  summaryJoin cur (inferSummarySinglePass (Γ.assume f cur) params body)

theorem inferRounds_succ (rounds : Nat) : inferRounds Γ f params body (rounds + 1) cur =
    if summaryLe (nextRound Γ f params body cur) cur then some (nextRound Γ f params body cur)
    else inferRounds Γ f params body rounds (nextRound Γ f params body cur) := rfl

theorem Shaped.nextRound (h : Shaped params cur) : Shaped params (nextRound Γ f params body cur) :=
  h.join (shaped_singlePass (Γ.assume f cur) params body)

theorem barrier_nextRound :
    (nextRound Γ f params body cur).barrier = (cur.barrier || callsBarrier body) := rfl

theorem afterRounds_nextRound {n : Nat} (hcur : Shaped params cur)
    (h : AfterRounds (flowsOf Γ (some f) params (inferWalkBody true body)) n cur.listed) :
    AfterRounds (flowsOf Γ (some f) params (inferWalkBody true body)) (n + 1)
      (nextRound Γ f params body cur).listed := by
  have hsources := singlePass_sources body (effect_assume (Γ := Γ) hcur f)
  refine h.round (fun i s hs => ?_) fun i => ?_
  · rw [nextRound, listed_join]
    exact ((hsources i).1 s hs).trans (le_max_right _ _)
  · rw [nextRound, listed_join]
    rcases max_choice (cur.listed i)
      ((inferSummarySinglePass (Γ.assume f cur) params body).listed i) with hmax | hmax
    · exact .inl hmax.le
    · rw [hmax]
      rcases (hsources i).2 with hbot | ⟨s, hs, heq⟩
      · exact .inl (hbot.le.trans bot_le)
      · exact .inr ⟨s, hs, heq.le⟩

/-- A round after one that left the result fresh leaves it fresh. -/
theorem returnsFresh_nextRound (h : (nextRound Γ f params body cur).returnsFresh = true) :
    (nextRound Γ f params body (nextRound Γ f params body cur)).returnsFresh = true := by
  have hpass : (freshLast (Γ.assume f cur) params.names [] body).1 = true := returnsFresh_of_join h
  have hcall (op : Option Symbol) (hop : freshCall (Γ.assume f cur) op = true) :
      freshCall (Γ.assume f (nextRound Γ f params body cur)) op = true :=
    freshCall_assume h (.inr rfl) op hop
  have hnext : (inferSummarySinglePass (Γ.assume f (nextRound Γ f params body cur)) params
      body).returnsFresh = true :=
    freshLast_mono (Δ := Γ.assume f cur) (Γ := Γ.assume f (nextRound Γ f params body cur)) rfl
      hcall body (fun _ hx => hx) hpass
  rw [nextRound, returnsFresh_join, h, hnext]
  rfl

/-- Once a barrier is known and the freshness decided, only the effects keep the rounds
going. -/
theorem summaryLe_nextRound_iff {n : Nat} (hcur : Shaped params cur)
    (hafter : AfterRounds (flowsOf Γ (some f) params (inferWalkBody true body)) n cur.listed)
    (hbarrier : callsBarrier body = true → cur.barrier = true)
    (hfresh : cur.returnsFresh = true → (nextRound Γ f params body cur).returnsFresh = true) :
    summaryLe (nextRound Γ f params body cur) cur = true ↔
      SettledAfter (flowsOf Γ (some f) params (inferWalkBody true body)) n := by
  rw [summaryLe_iff, forall_effectForArg_le_iff hcur.nextRound hcur,
    hafter.settled_iff (afterRounds_nextRound hcur hafter)]
  refine and_iff_left ⟨hfresh, fun hnext => ?_⟩
  rw [barrier_nextRound, Bool.or_eq_true] at hnext
  exact hnext.elim id hbarrier

theorem inferRounds_eq_none_iff {n rounds : Nat} (hcur : Shaped params cur)
    (hafter : AfterRounds (flowsOf Γ (some f) params (inferWalkBody true body)) n cur.listed)
    (hbarrier : callsBarrier body = true → cur.barrier = true)
    (hfresh : cur.returnsFresh = true → (nextRound Γ f params body cur).returnsFresh = true) :
    inferRounds Γ f params body (rounds + 1) cur = none ↔
      ¬SettledAfter (flowsOf Γ (some f) params (inferWalkBody true body)) (n + rounds) := by
  induction rounds generalizing n cur with
  | zero =>
    rw [inferRounds_succ, Nat.add_zero, ← summaryLe_nextRound_iff hcur hafter hbarrier hfresh]
    split <;> simp_all [inferRounds]
  | succ rounds ih =>
    rw [inferRounds_succ]
    have hle := summaryLe_nextRound_iff hcur hafter hbarrier hfresh
    by_cases hsettled : SettledAfter (flowsOf Γ (some f) params (inferWalkBody true body)) n
    · rw [if_pos (hle.mpr hsettled)]
      simp [hsettled.mono (Nat.le_add_right n (rounds + 1))]
    · have hcount : n + (rounds + 1) = n + 1 + rounds := by omega
      rw [if_neg (mt hle.mp hsettled), hcount]
      refine ih hcur.nextRound (afterRounds_nextRound hcur hafter) (fun hcalls =>
        ?_) returnsFresh_nextRound
      rw [barrier_nextRound, hcalls, Bool.or_true]

/-- The five rounds run out exactly if four of them are not enough for the effects: the first one
may be spent on a barrier or on the freshness. -/
theorem rounds_exhausted_iff :
    inferRounds Γ f params body 5 (optimisticSummary params body) = none ↔
      ¬SettledAfter (flowsOf Γ (some f) params (inferWalkBody true body)) 4 := by
  have hshaped : Shaped params (optimisticSummary params body) := shaped_optimistic
  have hafter : AfterRounds (flowsOf Γ (some f) params (inferWalkBody true body)) 0
      (optimisticSummary params body).listed := by
    rw [listed_optimistic]
    exact afterRounds_zero
  have hlater :
    inferRounds Γ f params body 4 (nextRound Γ f params body (optimisticSummary params body)) =
    none ↔
      ¬SettledAfter (flowsOf Γ (some f) params (inferWalkBody true body)) 4 :=
    inferRounds_eq_none_iff hshaped.nextRound (afterRounds_nextRound hshaped hafter)
      (fun hcalls => by rw [barrier_nextRound, hcalls, Bool.or_true]) returnsFresh_nextRound
  rw [inferRounds_succ]
  split
  case isTrue hfirst =>
    have hle := (forall_effectForArg_le_iff hshaped.nextRound hshaped).mp
      (summaryLe_iff.mp hfirst).1
    have hsettled := (hafter.settled_iff (afterRounds_nextRound hshaped hafter)).mp hle
    simp [hsettled.mono (Nat.zero_le 4)]
  case isFalse => exact hlater

theorem barrier_of_inferRounds {rounds : Nat} {F : EscapeSummary}
    (hcalls : callsBarrier body = true) (h : inferRounds Γ f params body rounds cur = some F) :
    F.barrier = true := by
  induction rounds generalizing cur with
  | zero => cases h
  | succ rounds ih =>
    rw [inferRounds_succ] at h
    split at h
    · cases h
      rw [barrier_nextRound, hcalls, Bool.or_true]
    · exact ih h

end Rounds

/-! ## §5 Result -/

section Result

variable (Γ : Env) (name : Option Symbol) (params : Params) (body : List Ast)

/-- One more pass, under the summary that was returned for the function. -/
def anotherPass : EscapeSummary :=
  inferSummarySinglePass (Γ.withSummary name (inferSummary Γ name params body)) params body

variable {Γ name params body}

/-- The freshness that was returned is found again. -/
theorem returnsFresh_anotherPass (h : (inferSummary Γ name params body).returnsFresh = true) :
    (anotherPass Γ name params body).returnsFresh = true := by
  obtain ⟨Δ, hjudged, hclass, hcall⟩ := inferSummary_fresh h
  have hclass' : Δ.persistentClass =
      (Γ.withSummary name (inferSummary Γ name params body)).persistentClass := by
    rw [hclass]
    cases name <;> rfl
  exact freshLast_mono hclass' hcall body (fun _ hx => hx) hjudged

theorem summaryLe_anotherPass_iff :
    summaryLe (anotherPass Γ name params body) (inferSummary Γ name params body) = true ↔
      (∀ i, effectForArg (anotherPass Γ name params body) i ≤
        effectForArg (inferSummary Γ name params body) i) ∧
      (callsBarrier body = true → (inferSummary Γ name params body).barrier = true) := by
  rw [summaryLe_iff]
  exact and_congr_right fun _ => and_iff_right returnsFresh_anotherPass

/-- Without rounds the pass is repeated, under a summary for the name if there is one. -/
theorem anotherPass_le_iff_of_single (hname : assumedName name params body = none) :
    summaryLe (anotherPass Γ name params body) (inferSummary Γ name params body) = true ↔
      ∀ f, name = some f → Matched Γ f params body := by
  have hsummary := inferSummary_of_none (Γ := Γ) hname
  rw [summaryLe_anotherPass_iff, anotherPass, hsummary, forall_effectForArg_le_iff
    (shaped_singlePass _ params body) (shaped_singlePass Γ params body), barrier_singlePass,
    and_iff_left id]
  cases name with
  | none => simp [Env.withSummary]
  | some f =>
    rw [Env.withSummary, ← matched_iff]
    simp

/-- With rounds that end, nothing is missing; where they do not, the barrier is. -/
theorem anotherPass_le_iff_of_rounds {f : Symbol} (hname : assumedName name params body = some f) :
    summaryLe (anotherPass Γ name params body) (inferSummary Γ name params body) = true ↔
      (callsBarrier body = true →
        inferRounds Γ f params body 5 (optimisticSummary params body) ≠ none) := by
  have hsummary := inferSummary_of_some (Γ := Γ) hname
  obtain ⟨rfl, -⟩ := Option.filter_eq_some_iff.mp hname
  rw [summaryLe_anotherPass_iff, anotherPass, Env.withSummary, hsummary]
  cases hrounds : inferRounds Γ f params body 5 (optimisticSummary params body) with
  | some F =>
    obtain ⟨hshaped, hiff⟩ := inferRounds_solves shaped_optimistic grounded_optimistic hrounds
    simp only [Option.getD_some, ne_eq, reduceCtorEq, not_false_eq_true, implies_true, iff_true]
    refine ⟨?_, fun hcalls => barrier_of_inferRounds hcalls hrounds⟩
    exact (forall_effectForArg_le_iff (shaped_singlePass _ params body) hshaped).mpr
      (Solves.pass_le ⟨hshaped, hiff⟩)
  | none =>
    simp only [Option.getD_none, ne_eq, not_true_eq_false, imp_false]
    have hshaped : Shaped params (conservativeSummary params body) := ⟨List.length_replicate, rfl⟩
    rw [forall_effectForArg_le_iff (shaped_singlePass _ params body) hshaped]
    refine ⟨fun h hcalls => Bool.false_ne_true (h.2 hcalls),
      fun h => ⟨fun i => ?_, fun hcalls => absurd hcalls h⟩⟩
    rcases Nat.lt_or_ge i params.names.length with hi | hi
    · rw [listed_replicate (s := conservativeSummary params body) rfl hi]
      exact Effect.le_retained _
    · rw [listed_of_le (by rw [(shaped_singlePass _ params body).length]; exact hi)]
      exact Effect.none_le _

variable (Γ name params body) in
/-- The summary of a function is above the pass under it exactly where it is stable: the
rounds do not run out on a function that calls a barrier, and a function with `recur` does
not lean on an older summary of its name. -/
theorem inferSummary_postFixpoint_iff :
    summaryLe (anotherPass Γ name params body) (inferSummary Γ name params body) = true ↔
      StableSummary Γ name params body := by
  cases hname : assumedName name params body with
  | none =>
    rw [anotherPass_le_iff_of_single hname]
    constructor
    · intro h
      exact ⟨fun f hf => by simp [hname] at hf, fun f hf _ => h f hf⟩
    · intro h f hf
      exact h.recur f hf hname
  | some f =>
    rw [anotherPass_le_iff_of_rounds hname]
    constructor
    · intro h
      refine ⟨fun g hg hcalls => ?_, fun g _ hg => by simp [hname] at hg⟩
      cases hname.symm.trans hg
      exact not_not.mp fun hsettled => h hcalls (rounds_exhausted_iff.mpr hsettled)
    · intro h hcalls hnone
      exact rounds_exhausted_iff.mp hnone (h.rounds f hname hcalls)

/-- `(defn f [a b c d e] (eval e) (f 0 a b c d))`: the effect of `e` needs five rounds to reach
`a`, and the summary that is returned has no barrier. -/
theorem inferSummary_drops_barrier :
    let sym (s : String) : Symbol := { name := s }
    let ref (s : String) : Ast := .symbolRef (sym s)
    let params : Params := ⟨["A", "B", "C", "D", "E"].map fun s => .symbol (sym s), false⟩
    let body : List Ast := [.call (ref "EVAL") [ref "E"],
      .call (ref "F") [.literal (.num 0), ref "A", ref "B", ref "C", ref "D"]]
    ¬summaryLe (anotherPass {} (some (sym "F")) params body)
      (inferSummary {} (some (sym "F")) params body) = true := by
  decide +kernel

end Result

end Fol.Escape
