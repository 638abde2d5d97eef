/-
Fol.Escape.Conversion — which accumulators `maybe-transient-loop` and
`maybe-transient-reduce` convert, and under which assumptions.

A parameter is converted when its initial value is a fresh root, its uses qualify and the
representation behind the initial value supports them. The names a region assumes are
those the classification recorded on its way and those its initial values depend on; the
names it consulted are those of the user functions whose summary or helper entry was
read. `*transient-loops*` is taken to be set, and the rewriting of the body is no part of
the decision.

  §1 Initial values — `transientEligibleInitP`, `initSupportsP`.
  §2 Decisions      — `maybeTransientLoop`, `maybeTransientReduce`.
  §3 Records        — the assumptions, read off the visits.
  §4 World guard    — when a redefinition of a consulted function is noticed.
-/
import Fol.Escape.Infer
import Fol.Escape.Visits
import Fol.World.Registry

namespace Fol.Escape

open Fol.Regions

/-! ## §1 Initial values -/

/-- What `init-supports-p` returns: must spine operations go through the generic
function, and the representation with the operations used on it. -/
structure Support where
  dispatchThrough : Bool := false
  kind : Kind
  usedOps : List String
deriving DecidableEq

section Init

variable (Γ : Env)

/-- `%persistent-object-make-class`. -/
def persistentObjectMakeClass (node : Ast) : Option Symbol :=
  match node with
  | .call (.symbolRef op) [arg] =>
    if op.name = "MAKE" then (quotedSymbolValue arg).filter Γ.persistentClass else none
  | _ => none

/-- `tier1-methods-trusted-p`. -/
def tier1MethodsTrustedP (kind : Kind) (usedOps : List String) : Bool :=
  usedOps.all fun op => !Γ.customized op kind

/-- The collection a literal is. -/
def literalKind : Ast → Option Collection
  | .dict _ => some .dict
  | .vector _ => some .vector
  | .set _ => some .set
  | _ => none

/-- `transient-eligible-init-p`. -/
def transientEligibleInitP (node : Ast) : Bool :=
  (literalKind node).isSome || (persistentObjectMakeClass Γ node).isSome ||
    (initCallSummary Γ node).any fun summary =>
      summary.returnsFresh ||
        (!summary.freshIfClassesTrusted.isEmpty &&
          summary.freshIfClassesTrusted.all fun cls =>
            tier1MethodsTrustedP Γ (.persistentObject cls) ["MAKE"])

/-- `%used-ops`. -/
def usedOps (chainOps : List String) (readsP : Bool) : List String :=
  if readsP then chainOps ∪ transientReadableOps else chainOps

/-- The spine operations the transient of a collection has. -/
def spineOps : Collection → List String
  | .dict => ["ASSOC", "DISSOC"]
  | .vector => ["CONJ"]
  | .set => ["CONJ", "DISJ"]

/-- The branches of `init-supports-p` for a built-in collection. -/
def collectionSupports (c : Collection) (chainOps : List String) (readsP : Bool) : Option Support :=
  let used := usedOps chainOps readsP
  if ¬(readsP && Γ.readsForbidden) ∧ chainOps ⊆ spineOps c ∧
      tier1MethodsTrustedP Γ (.collection c) used then
    some { kind := .collection c, usedOps := used }
  else none

/-- `%persistent-object-init-supports-p`. -/
def persistentObjectInitSupportsP (className : Symbol) (chainOps used : List String) :
    Option Support :=
  let kind := Kind.persistentObject className
  let all := used ∪ ["MAKE"]
  if chainOps ⊆ ["ASSOC"] ∧ (all.filter (· ≠ "ASSOC")).all fun op => !Γ.customized op kind then
    some { dispatchThrough := all.contains "ASSOC" && Γ.customized "ASSOC" kind, kind, usedOps :=
      all }
  else none

/-- `init-supports-p`. -/
def initSupportsP (init : Ast) (chainOps : List String) (readsP : Bool) : Option Support :=
  let used := usedOps chainOps readsP
  match literalKind init with
  | some c => collectionSupports Γ c chainOps readsP
  | none =>
    match persistentObjectMakeClass Γ init with
    | some className => persistentObjectInitSupportsP Γ className chainOps used
    | none =>
      let summary := initCallSummary Γ init
      match summary.bind (·.returnsKind), (summary.map (·.freshIfClassesTrusted)).getD [] with
      | some c, _ => collectionSupports Γ c chainOps readsP
      | none, [className] => persistentObjectInitSupportsP Γ className chainOps used
      | none, _ => none

/-- `%init-call-name`. -/
def initCallName (init : Ast) : Option String := init.operatorSymbol.map (·.name)

/-- `%init-fresh-dependency-names`. -/
def initFreshDependencyNames (init : Ast) : List String :=
  match initCallSummary Γ init with
  | some summary =>
    if !summary.returnsFresh && !summary.freshIfClassesTrusted.isEmpty then ["MAKE"] else []
  | none => []

/-- The user functions whose summary `transient-eligible-init-p` and `init-supports-p`
find. -/
def initLookups (init : Ast) : List Symbol :=
  if (literalKind init).isSome || (persistentObjectMakeClass Γ init).isSome then []
  else
    init.operatorSymbol.toList.filter fun op => op.package ≠ keywordPackage &&
    (Γ.inferred op).isSome

end Init

/-! ## §2 Decisions -/

/-- What goes to `*chain-ops*`, `*read-ops*` and `*inlined-helpers*`. -/
def chainOpsOf (events : List Event) : List String :=
  events.filterMap fun
    | .chainOp op => some op
    | _ => none

def readOpsOf (events : List Event) : List String :=
  events.filterMap fun
    | .readOp op => some op
    | _ => none

def inlinedHelpersOf (events : List Event) : List Symbol :=
  events.filterMap fun
    | .inlinedHelper name => some name
    | _ => none

/-- The user functions whose entries were read. -/
def lookupsOf (events : List Event) : List Symbol :=
  events.filterMap fun
    | .lookup _ name => some name
    | _ => none

/-- `%reads-present-p`. -/
def readsPresentP (events : List Event) : Bool :=
  (usesOf events).contains .readOk || !(readOpsOf events).isEmpty

/-- A converted accumulator, with the body it was classified in and what the
classification left. -/
structure Accumulator where
  name : Symbol
  pos : Nat
  body : List Ast
  init : Ast
  events : List Event
  support : Support

/-- What a conversion returns apart from the node: the names its region assumes, and the
threshold of the profitability check with the accumulator it counts. -/
structure Conversion where
  accumulators : List Accumulator
  assumptions : List String
  profitCheck : Option (Nat × Symbol × Ast) := none

section Decide

variable (Γ : Env)

def Accumulator.assumptions (a : Accumulator) : List String :=
  chainOpsOf a.events ∪ readOpsOf a.events ∪ (inlinedHelpersOf a.events).map (·.name) ∪
    ((initCallName a.init).toList ∪ initFreshDependencyNames Γ a.init)

/-- The user functions the decision about the accumulator consulted. -/
def Accumulator.consulted (a : Accumulator) : List Symbol :=
  lookupsOf a.events ++ initLookups Γ a.init

/-- The accumulator, if the representation of its initial value supports its uses. -/
def supportedAccumulator (name : Symbol) (pos : Nat) (body : List Ast) (init : Ast)
    (events : List Event) : Option Accumulator :=
  (initSupportsP Γ init (chainOpsOf events) (readsPresentP events)).map fun support =>
    { name, pos, body, init, events, support }

variable (fuel : Nat)

/-- The parameter at `pos` of a loop, if it is converted. -/
def loopAccumulator (body : List Ast) (pos : Nat) (p : Pattern) (init : Ast) :
    Option (Option Accumulator) :=
  match p with
  | .symbol name =>
    if transientEligibleInitP Γ init then do
      let events ← classifyLoopParam Γ fuel name pos body
      return if paramVerdict (usesOf events) = .qualified then
          supportedAccumulator Γ name pos body init events
        else none
    else some none
  | .tree _ _ => some none

/-- The converted parameters of a loop, from `pos` on. -/
def loopAccumulators (body : List Ast) : Nat → List (Pattern × Ast) → Option (List Accumulator)
  | _, [] => some []
  | pos, (p, init) :: bs => do
    let a ← loopAccumulator Γ fuel body pos p init
    let rest ← loopAccumulators body (pos + 1) bs
    return a.toList ++ rest

/-- The size the initial collection must exceed. -/
def profitThreshold : Ast → Option Nat
  | .dict (_ :: _) => some 16
  | .vector (_ :: _) => some 12
  | _ => none

/-- The check counts the accumulator found last. -/
def profitCheck (bindings : List (Pattern × Ast)) (accumulators : List Accumulator) :
    Option (Nat × Symbol × Ast) := do
  let a ← accumulators.getLast?
  let b ← bindings.find? fun b => b.1 = .symbol a.name
  let threshold ← profitThreshold b.2
  return (threshold, a.name, b.2)

/-- `maybe-transient-loop`. -/
def maybeTransientLoop (bindings : List (Pattern × Ast)) (body : List Ast) :
    Option (Option Conversion) := do
  let accumulators ← loopAccumulators Γ fuel body 0 bindings
  return if accumulators.isEmpty then none
    else some
      { accumulators
        assumptions := accumulators.foldl (fun known a => a.assumptions Γ ∪ known) []
        profitCheck := profitCheck bindings accumulators }

/-- The accumulator and the body of the function, when they pass the first conditions of
`maybe-transient-reduce`. -/
def reduceFn? (f : Ast) : Option (Symbol × List Ast) :=
  match f with
  | .fn _ [(params, body)] =>
    match params.names with
    | [some acc, some x] => if acc ≠ x ∧ containsRecur f = false then some (acc, body) else none
    | _ => none
  | _ => none

/-- `maybe-transient-reduce`. -/
def maybeTransientReduce (node : Ast) : Option (Option Conversion) :=
  match node with
  | .call _ [f, init, _] =>
    if reduceCallP Γ node then
      match reduceFn? f with
      | some (acc, body) =>
        if transientEligibleInitP Γ init then do
          let events ← classifyLoopParam Γ fuel acc 0 body
          let uses := usesOf events
          let ok := uses.contains .exitUpdate && uses.all [Use.exitUpdate, .exitBare,
            .readOk].contains
          return if ok then
              (supportedAccumulator Γ acc 0 body init events).map fun a =>
                { accumulators := [a], assumptions := a.assumptions Γ ∪ ["REDUCE"] }
            else none
        else some none
      | none => some none
    else some none
  | _ => some none

end Decide

/-- The nodes the two conversions take. -/
inductive Target where
  | loop (bindings : List (Pattern × Ast)) (body : List Ast)
  | reduce (node : Ast)

namespace Target

variable (Γ : Env)

def convert (fuel : Nat) : Target → Option (Option Conversion)
  | .loop bindings body => maybeTransientLoop Γ fuel bindings body
  | .reduce node => maybeTransientReduce Γ fuel node

/-- The names assumed whatever the accumulator. -/
def ownNames : Target → List String
  | .loop _ _ => []
  | .reduce _ => ["REDUCE"]

/-- The user functions consulted before any accumulator is. -/
def ownLookups : Target → List Symbol
  | .loop _ _ => []
  | .reduce node => lookupsOf (reduceCallEvents Γ node)

end Target

/-! ## §3 Records -/

/-- The name an event adds to the assumptions. -/
def Event.note? : Event → Option String
  | .chainOp op => some op
  | .readOp op => some op
  | .inlinedHelper name => some name.name
  | _ => none

section Records

variable (Γ : Env)

/-- The visits of the classification of an accumulator. -/
def Accumulator.Reaches (a : Accumulator) (w : Visit) : Prop :=
  ∃ v ∈ bodyVisits a.name a.pos .body a.body, Reach Γ v w

/-- Is the name recorded for the accumulator: as that of its initial value's function, or
on some visit? -/
def Accumulator.Records (a : Accumulator) (n : String) : Prop :=
  initCallName a.init = some n ∨ n ∈ initFreshDependencyNames Γ a.init ∨
    ∃ v, a.Reaches Γ v ∧ ∃ e ∈ v.own Γ, e.note? = some n

def Target.Records (target : Target) (c : Conversion) (n : String) : Prop :=
  n ∈ target.ownNames ∨ ∃ a ∈ c.accumulators, a.Records Γ n

/-- A visit that reads an entry and records nothing for it: `call-arg-read-p`,
`%reduce-call-p`, and `%tr-inline-attempt` when it refuses the arguments. -/
def Visit.Silent (v : Visit) (f : Symbol) : Prop :=
  .lookup .argRead f ∈ v.own Γ ∨ .lookup .reduce f ∈ v.own Γ ∨
    (.lookup .helper f ∈ v.own Γ ∧ .inlinedHelper f ∉ v.own Γ)

variable {Γ}

theorem note?_use {e : Event} {n : String} (h : e.note? = some n) : e.use? = none := by
  cases e with
  | use u => cases h
  | chainOp op => rfl
  | readOp op => rfl
  | inlinedHelper name => rfl
  | lookup site name => rfl

theorem mem_assumptions_iff {a : Accumulator} {n : String} :
    n ∈ a.assumptions Γ ↔ initCallName a.init = some n ∨ n ∈ initFreshDependencyNames Γ a.init ∨
      ∃ e ∈ a.events, e.note? = some n := by
  have hops : n ∈ chainOpsOf a.events ↔ .chainOp n ∈ a.events := by
    simp only [chainOpsOf, List.mem_filterMap]
    constructor
    · rintro ⟨e, he, hn⟩
      cases e <;> cases hn
      exact he
    · intro he
      exact ⟨_, he, rfl⟩
  have hreads : n ∈ readOpsOf a.events ↔ .readOp n ∈ a.events := by
    simp only [readOpsOf, List.mem_filterMap]
    constructor
    · rintro ⟨e, he, hn⟩
      cases e <;> cases hn
      exact he
    · intro he
      exact ⟨_, he, rfl⟩
  have hhelpers : n ∈ (inlinedHelpersOf a.events).map (·.name) ↔
      ∃ s : Symbol, .inlinedHelper s ∈ a.events ∧ s.name = n := by
    simp only [inlinedHelpersOf, List.mem_map, List.mem_filterMap]
    constructor
    · rintro ⟨s, ⟨e, he, hs⟩, hn⟩
      cases e <;> cases hs
      exact ⟨s, he, hn⟩
    · rintro ⟨s, hs, hn⟩
      exact ⟨s, ⟨_, hs, rfl⟩, hn⟩
  have hnotes : (∃ e ∈ a.events, e.note? = some n) ↔
      .chainOp n ∈ a.events ∨ .readOp n ∈ a.events ∨
        ∃ s : Symbol, .inlinedHelper s ∈ a.events ∧ s.name = n := by
    constructor
    · rintro ⟨e, he, hn⟩
      cases e with
      | use u => cases hn
      | lookup site name => cases hn
      | chainOp op =>
        cases hn
        exact Or.inl he
      | readOp op =>
        cases hn
        exact Or.inr (Or.inl he)
      | inlinedHelper s =>
        cases hn
        exact Or.inr (Or.inr ⟨s, he, rfl⟩)
    · rintro (he | he | ⟨s, he, hn⟩)
      · exact ⟨_, he, rfl⟩
      · exact ⟨_, he, rfl⟩
      · exact ⟨_, he, congrArg some hn⟩
  simp only [Accumulator.assumptions, List.mem_union_iff, Option.mem_toList, hops, hreads,
    hhelpers, hnotes]
  exact or_comm.trans (by simp only [or_assoc])

/-! Sources of the accumulators. -/

theorem loopAccumulators_classified {fuel : Nat} {body : List Ast} {pos : Nat}
    {bindings : List (Pattern × Ast)} {accs : List Accumulator}
    (h : loopAccumulators Γ fuel body pos bindings = some accs) :
    ∀ a ∈ accs, classifyLoopParam Γ fuel a.name a.pos a.body = some a.events := by
  induction bindings generalizing pos accs with
  | nil =>
    cases h
    simp
  | cons b bs ih =>
    obtain ⟨p, init⟩ := b
    simp only [loopAccumulators, Option.bind_eq_bind, Option.bind_eq_some_iff, Option.pure_def,
      Option.some.injEq] at h
    obtain ⟨found, hfound, rest, hrest, rfl⟩ := h
    intro a ha
    rcases List.mem_append.mp ha with ha | ha
    · have hsome : found = some a := Option.mem_toList.mp ha
      subst hsome
      cases p with
      | tree => cases hfound
      | symbol name =>
        simp only [loopAccumulator] at hfound
        split at hfound
        · simp only [Option.bind_eq_bind, Option.bind_eq_some_iff, Option.pure_def,
            Option.some.injEq] at hfound
          obtain ⟨events, hevents, hsup⟩ := hfound
          split at hsup
          · obtain ⟨support, -, rfl⟩ := Option.map_eq_some_iff.mp hsup
            exact hevents
          · cases hsup
        · cases hfound
    · exact ih hrest a ha

/-- What a converted loop is. -/
theorem maybeTransientLoop_cases {fuel : Nat} {bindings : List (Pattern × Ast)} {body : List Ast}
    {c : Conversion} (h : maybeTransientLoop Γ fuel bindings body = some (some c)) :
    loopAccumulators Γ fuel body 0 bindings = some c.accumulators ∧
      c.assumptions = c.accumulators.foldl (fun known a => a.assumptions Γ ∪ known) [] := by
  simp only [maybeTransientLoop, Option.bind_eq_bind, Option.bind_eq_some_iff, Option.pure_def,
    Option.some.injEq] at h
  obtain ⟨accs, haccs, h⟩ := h
  split at h
  · cases h
  · cases h
    exact ⟨haccs, rfl⟩

/-- What a converted reduce is. -/
theorem maybeTransientReduce_cases {fuel : Nat} {node : Ast} {c : Conversion}
    (h : maybeTransientReduce Γ fuel node = some (some c)) :
    reduceCallP Γ node = true ∧ ∃ a : Accumulator, c.accumulators = [a] ∧
      c.assumptions = a.assumptions Γ ∪ ["REDUCE"] ∧
      classifyLoopParam Γ fuel a.name a.pos a.body = some a.events := by
  unfold maybeTransientReduce at h
  split at h
  · rename_i op f init coll
    split at h
    · rename_i hcall
      refine ⟨hcall, ?_⟩
      cases hf : reduceFn? f with
      | none =>
        simp only [hf] at h
        cases h
      | some ab =>
        obtain ⟨acc, body⟩ := ab
        simp only [hf] at h
        split at h
        · simp only [Option.bind_eq_bind, Option.bind_eq_some_iff, Option.pure_def,
            Option.some.injEq] at h
          obtain ⟨events, hevents, h⟩ := h
          split at h
          · obtain ⟨a, ha, rfl⟩ := Option.map_eq_some_iff.mp h
            obtain ⟨support, -, rfl⟩ := Option.map_eq_some_iff.mp ha
            exact ⟨_, rfl, rfl, hevents⟩
          · cases h
        · cases h
    · cases h
  · cases h

theorem convert_classified {fuel : Nat} {target : Target} {c : Conversion}
    (h : target.convert Γ fuel = some (some c)) :
    ∀ a ∈ c.accumulators, classifyLoopParam Γ fuel a.name a.pos a.body = some a.events := by
  cases target with
  | loop bindings body => exact loopAccumulators_classified (maybeTransientLoop_cases h).1
  | reduce node =>
    obtain ⟨-, a, haccs, -, hevents⟩ := maybeTransientReduce_cases h
    rw [haccs]
    exact List.forall_mem_singleton.mpr hevents

theorem mem_foldl_assumptions {accs : List Accumulator} {known : List String} {n : String} :
    n ∈ accs.foldl (fun known a => a.assumptions Γ ∪ known) known ↔
      n ∈ known ∨ ∃ a ∈ accs, n ∈ a.assumptions Γ := by
  induction accs generalizing known with
  | nil => simp
  | cons a accs ih =>
    rw [List.foldl_cons, ih, List.mem_union_iff, List.exists_mem_cons_iff, or_assoc]
    exact or_left_comm

/-- The assumptions are the recorded names. -/
theorem mem_assumptions_iff_records {fuel : Nat} {target : Target} {c : Conversion}
    (h : target.convert Γ fuel = some (some c)) (n : String) :
    n ∈ c.assumptions ↔ target.Records Γ c n := by
  have hacc : ∀ a ∈ c.accumulators, n ∈ a.assumptions Γ ↔ a.Records Γ n := by
    intro a ha
    have hevents := convert_classified h a ha
    have hnotes : (∃ e ∈ a.events, e.note? = some n) ↔
        ∃ v, a.Reaches Γ v ∧ ∃ e ∈ v.own Γ, e.note? = some n := by
      constructor
      · rintro ⟨e, he, hn⟩
        obtain ⟨v, hv, w, hw, hown⟩ := (mem_classifyLoopParam_iff (note?_use hn) hevents).mp he
        exact ⟨w, ⟨v, hv, hw⟩, e, hown, hn⟩
      · rintro ⟨w, ⟨v, hv, hw⟩, e, hown, hn⟩
        exact ⟨e, (mem_classifyLoopParam_iff (note?_use hn) hevents).mpr ⟨v, hv, w, hw, hown⟩, hn⟩
    rw [mem_assumptions_iff, hnotes, Accumulator.Records]
  have hsome : (∃ a ∈ c.accumulators, n ∈ a.assumptions Γ) ↔ ∃ a ∈ c.accumulators, a.Records Γ n :=
    exists_congr fun a => and_congr_right fun ha => hacc a ha
  rw [Target.Records, ← hsome]
  cases target with
  | loop bindings body =>
    rw [(maybeTransientLoop_cases h).2, mem_foldl_assumptions]
    rfl
  | reduce node =>
    obtain ⟨-, a, haccs, hass, -⟩ := maybeTransientReduce_cases h
    rw [hass, haccs, List.mem_union_iff, or_comm]
    simp [Target.ownNames]

/-! Lookups. -/

theorem mem_lookupEvents {site site' : Site} {s f : Symbol} :
    .lookup site f ∈ lookupEvents Γ site' s ↔
      site = site' ∧ f = s ∧ s.package ≠ keywordPackage ∧ (Γ.inferred s).isSome = true := by
  unfold lookupEvents
  split
  · rename_i hs
    simp [hs.1, hs.2]
  · rename_i hs
    simp only [List.not_mem_nil, false_iff, not_and]
    intro _ _ hp hi
    exact hs ⟨hp, hi⟩

/-- An operator with an inferred summary has a summary. -/
theorem lookupSummary_isSome {s : Symbol} (hp : s.package ≠ keywordPackage)
    (hi : (Γ.inferred s).isSome = true) : (Γ.lookupSummary s).isSome = true := by
  obtain ⟨summary, hsummary⟩ := Option.isSome_iff_exists.mp hi
  simp [Env.lookupSummary, hp, hsummary]

theorem lookup_transientReadableEvents {node : Ast} {f : Symbol} {site : Site}
    (h : .lookup site f ∈ transientReadableEvents Γ node) :
    transientReadableCallP Γ node = true ∧ .readOp f.name ∈ noteReadOp node := by
  unfold transientReadableEvents at h
  split at h
  · cases h
  · rename_i hkw
    cases hop : node.operatorSymbol with
    | none =>
      rw [hop] at h
      cases h
    | some op =>
      simp only [hop, Option.elim_some] at h
      split at h
      · rename_i hread
        obtain ⟨-, rfl, hp, hi⟩ := mem_lookupEvents.mp h
        refine ⟨?_, ?_⟩
        · simpa [transientReadableCallP, hop, lookupSummary_isSome hp hi] using Or.inr hread
        · simp [noteReadOp, hkw, hop]
      · cases h

theorem site_callArgReadEvents {node : Ast} {f : Symbol} {site : Site}
    (h : .lookup site f ∈ callArgReadEvents Γ node) : site = .argRead := by
  unfold callArgReadEvents at h
  split at h
  · cases h
  · cases hop : node.operatorSymbol with
    | none =>
      rw [hop] at h
      cases h
    | some op =>
      rw [hop] at h
      exact (mem_lookupEvents.mp h).1

/-- A lookup at an argument is recorded there unless it is by `call-arg-read-p`. -/
theorem lookup_argUse {node : Ast} {c : Ctx} {i : Nat} {f : Symbol} {site : Site}
    (h : .lookup site f ∈ argUse Γ node c i) :
    site = .argRead ∨ .readOp f.name ∈ argUse Γ node c i := by
  unfold argUse at h ⊢
  split at h
  · simp at h
  · rename_i hfn
    rw [if_neg hfn]
    split at h
    · rename_i hi
      rw [if_pos hi]
      split at h
      · rename_i hread
        rw [if_pos hread]
        simp only [List.mem_append, List.mem_singleton] at h ⊢
        rcases h with (h | h) | h
        · exact Or.inr (Or.inl (Or.inr (lookup_transientReadableEvents h).2))
        · unfold noteReadOp at h
          split at h
          · simp at h
          · cases hop : node.operatorSymbol <;> simp [hop] at h
        · cases h
      · rename_i hread
        simp only [List.mem_append, List.mem_singleton] at h
        rcases h with (h | h) | h
        · exact absurd (lookup_transientReadableEvents h).1 hread
        · exact Or.inl (site_callArgReadEvents h)
        · cases h
    · simp only [List.mem_append, List.mem_singleton] at h
      rcases h with h | h
      · exact Or.inl (site_callArgReadEvents h)
      · cases h

theorem lookup_validateLocal {cur : Symbol} {bs : List (Symbol × Ast)} {f : Symbol} {site : Site}
    {K : Ast → Symbol → Option (ChainKind × List Ast)}
    (h : .lookup site f ∈ validateLocal Γ K cur bs) :
    site = .argRead := by
  induction bs generalizing cur with
  | nil => cases h
  | cons b bs ih =>
    obtain ⟨var, init⟩ := b
    simp only [validateLocal] at h
    split at h
    · exact ih h
    · split at h
      · exact ih h
      · rcases List.mem_append.mp h with h | h
        · unfold safeReadEvents at h
          split at h
          · exact site_callArgReadEvents h
          · cases h
        · split at h
          · exact ih h
          · cases h

theorem lookup_walkLocal {name : Symbol} {pos : Nat} {c : Ctx} {node : Ast} {f : Symbol}
    {site : Site} {K : Ast → Symbol → Option (ChainKind × List Ast)}
    (h : .lookup site f ∈ walkLocal Γ K name pos c node) :
    site = .argRead ∨ .readOp f.name ∈ walkLocal Γ K name pos c node := by
  cases node with
  | symbolRef s =>
    simp only [walkLocal] at h
    split at h <;> simp at h
  | recur args =>
    simp only [walkLocal] at h
    split at h
    · rcases List.mem_append.mp h with h | h
      · split at h <;> simp at h
      · obtain ⟨a, -, ha⟩ := List.mem_flatMap.mp h
        split at ha
        · unfold recurSlotLocal at ha
          split at ha <;> simp at ha
        · cases ha
    · cases h
  | bind bindings body =>
    simp only [walkLocal] at h
    split at h
    · cases h
    · rcases List.mem_append.mp h with h | h
      · exact Or.inl (lookup_validateLocal h)
      · split at h
        · simp at h
        · split at h <;> simp at h
  | loop bindings body =>
    simp only [walkLocal] at h
    obtain ⟨b, -, hb⟩ := List.mem_flatMap.mp h
    split at hb <;> simp at hb
  | threadFirst forms =>
    simp only [walkLocal] at h
    split at h <;> simp at h
  | vector elements =>
    obtain ⟨el, -, hel⟩ := List.mem_flatMap.mp h
    unfold elementLocal at hel
    split at hel <;> simp at hel
  | set elements =>
    obtain ⟨el, -, hel⟩ := List.mem_flatMap.mp h
    unfold elementLocal at hel
    split at hel <;> simp at hel
  | dict entries =>
    obtain ⟨e, -, he⟩ := List.mem_flatMap.mp h
    unfold elementLocal at he
    rcases List.mem_append.mp he with he | he <;> split at he <;> simp at he
  | call op args =>
    simp only [walkLocal] at h ⊢
    split at h
    · simp at h
    · obtain ⟨a, ha, hmem⟩ := List.mem_flatMap.mp h
      split at hmem
      · rename_i href
        rcases lookup_argUse hmem with hsite | hnote
        · exact Or.inl hsite
        · exact Or.inr (List.mem_flatMap.mpr ⟨a, ha, by simpa [href] using hnote⟩)
      · cases hmem
  | _ => cases h

theorem lookup_chainLocal {node : Ast} {name f : Symbol} {site : Site}
    {K : Ast → Symbol → Option (ChainKind × List Ast)}
    (h : .lookup site f ∈ chainLocal Γ K node name) :
    site = .reduce ∨ site = .helper := by
  cases node with
  | call op args =>
    simp only [chainLocal] at h
    split at h
    · split at h <;> simp at h
    · rcases List.mem_append.mp h with h | h
      · unfold reduceCallEvents at h
        cases hop : (Ast.call op args).operatorSymbol with
        | none =>
          rw [hop] at h
          cases h
        | some s =>
          simp only [hop, Option.elim_some] at h
          split at h
          · exact Or.inl (mem_lookupEvents.mp h).1
          · cases h
      · split at h
        · cases h
        · unfold inlineAttempt at h
          grind
  | threadFirst forms =>
    cases forms with
    | nil => cases h
    | cons form steps =>
      simp only [chainLocal] at h
      split at h <;> simp at h
  | _ => cases h

/-- A lookup is silent, or the visit that makes it records the name. -/
theorem silent_or_noted {v : Visit} {f : Symbol} {site : Site} (h : .lookup site f ∈ v.own Γ) :
    v.Silent Γ f ∨ ∃ e ∈ v.own Γ, e.note? = some f.name := by
  cases v with
  | walk name pos c node =>
    rcases lookup_walkLocal h with rfl | hnote
    · exact Or.inl (Or.inl h)
    · exact Or.inr ⟨_, hnote, rfl⟩
  | chain node name =>
    rcases lookup_chainLocal h with rfl | rfl
    · exact Or.inl (Or.inr (Or.inl h))
    · by_cases hin : .inlinedHelper f ∈ (Visit.chain node name).own Γ
      · exact Or.inr ⟨_, hin, rfl⟩
      · exact Or.inl (Or.inr (Or.inr ⟨h, hin⟩))

end Records

/-! ## §4 World guard -/

section Guard

variable (Γ : Env)

/-- The user functions the decision to convert consulted. -/
def Target.consulted (target : Target) (c : Conversion) : List Symbol :=
  target.ownLookups Γ ++ c.accumulators.flatMap (Accumulator.consulted Γ)

/-- Every consulted function is assumed, and once it is redefined the region registered
under the assumptions is invalid, whatever came before and comes after. -/
structure GuardComplete (upcase : String → String) (target : Target) (c : Conversion) : Prop where
  named : ∀ f ∈ target.consulted Γ c, f.name ∈ c.assumptions
  guarded : ∀ f ∈ target.consulted Γ c, ∀ pre post, .redefine f ∈ post →
    (worldAfter upcase pre c.assumptions post).validP (cellAfter upcase pre) = false

/-- Every function looked up silently is recorded elsewhere. -/
def SilentRecorded (target : Target) (c : Conversion) : Prop :=
  ∀ a ∈ c.accumulators, ∀ v, a.Reaches Γ v → ∀ f, v.Silent Γ f → target.Records Γ c f.name

variable {Γ}

theorem mem_lookupsOf {events : List Event} {f : Symbol} :
    f ∈ lookupsOf events ↔ ∃ site, .lookup site f ∈ events := by
  simp only [lookupsOf, List.mem_filterMap]
  constructor
  · rintro ⟨e, he, hf⟩
    cases e <;> cases hf
    exact ⟨_, he⟩
  · rintro ⟨site, he⟩
    exact ⟨_, he, rfl⟩

/-- A region that assumed the name of a redefined function is invalid. -/
theorem validP_of_redefined {upcase : String → String} {assumed : List String} {f : Symbol}
    (hf : f.name ∈ assumed) (pre post : List Op) (hpost : .redefine f ∈ post) :
    (worldAfter upcase pre assumed post).validP (cellAfter upcase pre) = false := by
  rw [← Bool.not_eq_true, validP_worldAfter]
  intro hv
  obtain ⟨-, hop⟩ := hv _ hpost ⟨f.name, hf, rfl⟩
  cases hop

theorem Visit.Silent.lookup {v : Visit} {f : Symbol} (h : v.Silent Γ f) :
    ∃ site, .lookup site f ∈ v.own Γ := by
  rcases h with h | h | ⟨h, -⟩
  · exact ⟨_, h⟩
  · exact ⟨_, h⟩
  · exact ⟨_, h⟩

/-- The functions consulted for a parameter: those of its initial value, and those looked
up on the visits of its classification. -/
theorem mem_consulted_iff {fuel : Nat} {a : Accumulator}
    (h : classifyLoopParam Γ fuel a.name a.pos a.body = some a.events) {f : Symbol} :
    f ∈ a.consulted Γ ↔ f ∈ initLookups Γ a.init ∨
      ∃ v, a.Reaches Γ v ∧ ∃ site, .lookup site f ∈ v.own Γ := by
  have hvisits : (∃ site, .lookup site f ∈ a.events) ↔
      ∃ v, a.Reaches Γ v ∧ ∃ site, .lookup site f ∈ v.own Γ := by
    constructor
    · rintro ⟨site, he⟩
      obtain ⟨v, hv, w, hw, hown⟩ := (mem_classifyLoopParam_iff rfl h).mp he
      exact ⟨w, ⟨v, hv, hw⟩, site, hown⟩
    · rintro ⟨w, ⟨v, hv, hw⟩, site, hown⟩
      exact ⟨site, (mem_classifyLoopParam_iff rfl h).mpr ⟨v, hv, w, hw, hown⟩⟩
  rw [Accumulator.consulted, List.mem_append, mem_lookupsOf, hvisits, or_comm]

theorem initLookups_named {init : Ast} {f : Symbol} (h : f ∈ initLookups Γ init) :
    initCallName init = some f.name := by
  unfold initLookups at h
  split at h
  · cases h
  · have hop := Option.mem_toList.mp (List.mem_of_mem_filter h)
    simp [initCallName, Option.mem_def.mp hop]

theorem ownLookups_named {target : Target} {f : Symbol} (h : f ∈ target.ownLookups Γ) :
    f.name ∈ target.ownNames := by
  cases target with
  | loop bindings body => cases h
  | reduce node =>
    obtain ⟨site, hsite⟩ := mem_lookupsOf.mp h
    unfold reduceCallEvents at hsite
    cases hop : node.operatorSymbol with
    | none =>
      rw [hop] at hsite
      cases hsite
    | some s =>
      simp only [hop, Option.elim_some] at hsite
      split at hsite
      · rename_i hname
        obtain ⟨-, rfl, -⟩ := mem_lookupEvents.mp hsite
        simp [Target.ownNames, hname]
      · cases hsite

/-- The guard of a converted loop or reduce covers every consulted user function exactly
when those looked up silently are recorded elsewhere. -/
theorem guard_complete_iff {fuel : Nat} {target : Target} {c : Conversion}
    (h : target.convert Γ fuel = some (some c)) (upcase : String → String) :
    GuardComplete Γ upcase target c ↔ SilentRecorded Γ target c := by
  have hconsulted : ∀ f, f ∈ target.consulted Γ c ↔ f ∈ target.ownLookups Γ ∨
      ∃ a ∈ c.accumulators, f ∈ a.consulted Γ := by
    intro f
    rw [Target.consulted, List.mem_append, List.mem_flatMap]
  constructor
  · intro hg a ha v hv f hf
    have hmem := (mem_consulted_iff (convert_classified h a ha)).mpr (Or.inr ⟨v, hv, hf.lookup⟩)
    have hnamed := hg.named f ((hconsulted f).mpr (Or.inr ⟨a, ha, hmem⟩))
    exact (mem_assumptions_iff_records h _).mp hnamed
  · intro hs
    have hnamed : ∀ f ∈ target.consulted Γ c, f.name ∈ c.assumptions := by
      intro f hf
      rw [mem_assumptions_iff_records h]
      rcases (hconsulted f).mp hf with hown | ⟨a, ha, hmem⟩
      · exact Or.inl (ownLookups_named hown)
      · rcases (mem_consulted_iff (convert_classified h a ha)).mp hmem with hinit |
          ⟨v, hv, site, hown⟩
        · exact Or.inr ⟨a, ha, Or.inl (initLookups_named hinit)⟩
        · rcases silent_or_noted hown with hsilent | hnote
          · exact hs a ha v hv f hsilent
          · exact Or.inr ⟨a, ha, Or.inr (Or.inr ⟨v, hv, hnote⟩)⟩
    exact ⟨hnamed, fun f hf pre post hpost => validP_of_redefined (hnamed f hf) pre post hpost⟩

/-- `cart-total` only reads its argument; `make-cart` returns a fresh dict. -/
def cartEnv : Env where
  inferred s :=
    if s = { name := "CART-TOTAL" } then some { paramEffects := [.none] }
    else if s = { name := "MAKE-CART" }
    then some { returnsFresh := true, returnsKind := some .dict }
    else none

def callNamed (op : String) (args : List Ast) : Ast := .call (.symbolRef { name := op }) args

def refNamed (s : String) : Ast := .symbolRef { name := s }

/-- A loop that starts from `(make-cart)` and counts the accumulator. -/
def makeCartLoop : Target :=
  .loop [(.symbol { name := "ACC" }, callNamed "MAKE-CART" [])]
    [.ifNode (callNamed "DONE?" []) (refNamed "ACC")
      [.recur [callNamed "ASSOC"
        [refNamed "ACC", .literal (.keyword "ITEM"), callNamed "COUNT" [refNamed "ACC"]]]]]

theorem guard_complete_iff_make_cart : ∃ c, makeCartLoop.convert cartEnv 12 = some (some c) ∧
    (GuardComplete cartEnv String.toUpper makeCartLoop c ↔
      SilentRecorded cartEnv makeCartLoop c) := by
  refine ⟨_, rfl, ?_⟩
  exact guard_complete_iff (show makeCartLoop.convert cartEnv 12 = _ from rfl) String.toUpper

/-- A loop whose `bind` reads the accumulator between two updates with `cart-total`. -/
def cartTotalLoop : Target :=
  .loop [(.symbol { name := "ACC" }, .dict [])]
    [.ifNode (callNamed "DONE?" []) (refNamed "ACC")
      [.bind
        [(.symbol { name := "C1" }, callNamed "ASSOC"
            [refNamed "ACC", .literal (.keyword "ITEM"), .literal (.num 1)]),
          (.symbol { name := "TOTAL" }, callNamed "CART-TOTAL" [refNamed "C1"]),
          (.symbol { name := "C2" }, callNamed "ASSOC"
            [refNamed "C1", .literal (.keyword "TOTAL"), refNamed "TOTAL"])]
        [.recur [refNamed "C2"]]]]

/-- The loop is converted because of the summary of `cart-total`, which its region does
not assume. -/
theorem cart_total_unguarded : ∃ c, cartTotalLoop.convert cartEnv 12 = some (some c) ∧
    ¬ GuardComplete cartEnv String.toUpper cartTotalLoop c := by
  refine ⟨_, rfl, ?_⟩
  intro hg
  have hnamed := hg.named { name := "CART-TOTAL" } (by decide +kernel)
  revert hnamed
  decide +kernel

end Guard

end Fol.Escape
