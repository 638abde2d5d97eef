/-
Fol.Escape.Coverage — which occurrences of a loop parameter the classifier sees.

A place is a part of the loop body in which occurrences of the parameter NAME are judged:
a form with its context, a chain with NAME at its root, a call that a threading form
completes. `Direct` says that the place itself holds an occurrence in a wrong position;
`walkedParts` and `passedParts` are the places below it, those the classifier goes on to
and those it passes over. An occurrence in a wrong position is at a place reached through
parts of both kinds.

A `bind` that `try-let-chain` folds and a call of an inlined helper stand for what they
are replaced with. Node types without a case of their own are looked at as written.

  §1 Places   — `Place`, its parts.
  §2 Strays   — `Stray`, `Slip`.
  §3 Chains   — what a recognised chain hands to the walk.
  §4 Walks    — what a clean walk covers.
  §5 Coverage — `qualified_covers_iff`.
-/
import Fol.Escape.Visits

namespace Fol.Escape

open Fol.Lib.Fuel

/-! ## §1 Places -/

inductive Place where
  /-- a node evaluated in a context -/
  | form (c : Ctx) (node : Ast)
  /-- a node `chain-kind` recognises -/
  | chain (c : Ctx) (node : Ast)
  /-- a call whose first or last argument is threaded in -/
  | step (c : Ctx) (operator : Ast) (args : List Ast)

/-- A form of a threading node. -/
def stepPlace (c : Ctx) : Ast → Place
  | .call op args => .step c op args
  | n => .form c n

def bodyParts (c : Ctx) (ns : List Ast) : List Place := (bodyPlaces c ns).map fun p => .form p.1 p.2

mutual

/-- The references `%tr-inline-subst` gets to. -/
def inlineRefs : Ast → List Symbol
  | .symbolRef s => [s]
  | .call _ args => inlineRefsList args
  | .threadFirst forms => inlineRefsList forms
  | .ifNode test thn els => inlineRefs test ++ inlineRefs thn ++ inlineRefsList els
  | _ => []

def inlineRefsList : List Ast → List Symbol
  | [] => []
  | n :: ns => inlineRefs n ++ inlineRefsList ns

end

/-- The arguments of a helper that are put nowhere. -/
def droppedArgs (h : Helper) (args : List Ast) : List Ast :=
  ((h.params.zip args).zipIdx.filter fun x =>
    !(inlineRefs h.body).contains x.1.1 || (h.params.take x.2).contains x.1.1).map (·.1.2)

section Parts

variable (Γ : Env) (K : Ast → Symbol → Option (ChainKind × List Ast)) (name : Symbol) (pos : Nat)

/-! Read-tolerant binds. -/

/-- Does the binding extend the chain of the alias? -/
def extendsChain (init : Ast) (cur : Symbol) : Bool :=
  (K init cur).isSome && symbolRefCount init cur = 1

/-- The initial value that extends the chain from NAME itself. -/
def tolerantRoot? : List (Symbol × Ast) → Option Ast
  | [] => none
  | (_, init) :: bs => if extendsChain K init name then some init else tolerantRoot? bs

/-- Is NAME the collection argument of a whitelisted read? -/
def whitelistedRead (init : Ast) : Bool :=
  (callArgs init).head?.any (Ast.isRef name) && transientReadableCallP Γ init

/-- Up to the first extension every binding that mentions NAME is a whitelisted read. -/
def tolerantReads : List (Symbol × Ast) → Bool
  | [] => true
  | (_, init) :: bs =>
    extendsChain K init name ||
      ((symbolRefCount init name = 0 || whitelistedRead Γ name init) && tolerantReads bs)

/-- No binding that does not extend the chain takes the name of the alias. -/
def aliasKept (cur : Symbol) : List (Symbol × Ast) → Bool
  | [] => true
  | (var, init) :: bs =>
    if extendsChain K init cur then aliasKept var bs else var ≠ cur && aliasKept cur bs

/-- In a read-tolerant bind: the chain ends in NAME's own recur slot. -/
def tolerantInPlace (c : Ctx) (bs : List (Symbol × Ast)) (p : Nat) : Bool :=
  c.recurp && !c.infn && p = pos && tolerantReads Γ K name bs && aliasKept K name bs

/-! Parts. -/

/-- The initial values of a `bind` in which NAME is not bound yet. -/
def initParts (c : Ctx) : List (Pattern × Ast) → List Place
  | [] => []
  | (p, init) :: bs => .form c init :: if p.binds.contains name then [] else initParts c bs

/-- The chain of a call or `->` in tail position. -/
def tailChain (c : Ctx) (node : Ast) : Option (ChainKind × List Ast) :=
  if c.tailp then K node name else none

def elementParts (c : Ctx) (el : Ast) : List Place :=
  if c.tailp ∧ el.isRef name = true then [] else [.form c.nontail el]

def recurSlotParts (c : Ctx) (arg : Ast) : List Place :=
  match K arg name with
  | some (.update, _) => [.chain c arg]
  | some (.passthrough, _) => []
  | none => [.form c.nontail arg]

def callParts (c : Ctx) (op : Ast) (args : List Ast) : List Place :=
  .form c.nontail op :: args.flatMap fun a => if a.isRef name then [] else [.form c.nontail a]

/-- The places below a form to which the walk goes on. -/
def formWalked (c : Ctx) (node : Ast) : List Place :=
  match node with
  | .literal _ => []
  | .quote _ => []
  | .symbolRef _ => []
  | .recur args =>
    if c.recurp then
      args.zipIdx.flatMap fun a =>
        if a.2 = pos then recurSlotParts K name c a.1 else [.form c.nontail a.1]
    else args.map (.form c.nontail ·)
  | .ifNode test thn els => .form c.nontail test :: .form c thn :: bodyParts c els
  | .doNode body => bodyParts c body
  | .bind bindings body =>
    match letChain? K name bindings body with
    | some recurNode => [.form c recurNode]
    | none =>
      match tolerantChain? Γ K name bindings body with
      | some (args, p) => (args.eraseIdx p).map (.form c.nontail ·)
      | none =>
        initParts name c.nontail bindings ++
          if bindings.any (·.1.mentions.contains name) || (bindingsBind bindings).contains name
          then []
          else bodyParts c body
  | .case expr clauses => .form c.nontail expr :: clauses.flatMap fun cl => bodyParts c cl.2
  | .cond clauses => clauses.flatMap fun cl => .form c.nontail cl.1 :: bodyParts c cl.2
  | .loop bindings body =>
    if bindings.any (·.1.mentions.contains name) || (bindingsBind bindings).contains name then []
    else bodyParts c.nested body
  | .fn self clauses =>
    if self = some name then []
    else
      clauses.flatMap fun cl =>
        if cl.1.mentions.contains name || cl.1.binds.contains name then []
        else bodyParts c.closure cl.2
  | .letfn bindings body =>
    if (bindings.map (·.1)).contains name then []
    else
      (bindings.flatMap fun b => b.2.flatMap fun cl =>
        if cl.1.binds.contains name then [] else cl.2.map (.form c.closure ·)) ++ bodyParts c body
  | .threadFirst forms =>
    match tailChain K name c node with
    | some (.update, _) => [.chain c node]
    | some (.passthrough, _) => []
    | none =>
      match forms with
      | [] => []
      | f :: steps => .form c.nontail f :: steps.map (stepPlace c.nontail)
  | .vector elements => elements.flatMap (elementParts name c)
  | .set elements => elements.flatMap (elementParts name c)
  | .dict entries => entries.flatMap fun e => elementParts name c e.1 ++ elementParts name c e.2
  | .call op args =>
    match tailChain K name c node with
    | some (.update, _) => [.chain c node]
    | _ => callParts name c op args
  | .other kids =>
    kids.flatMap fun k =>
      if k.2.1.contains name then []
      else [if k.1 then stepPlace c.complex k.2.2 else .form c.complex k.2.2]

/-- The places below a form that the walk passes over. -/
def formPassed (c : Ctx) (node : Ast) : List Place :=
  match node with
  | .recur args =>
    if c.recurp then
      args.zipIdx.flatMap fun a =>
        match K a.1 name with
        | some (.passthrough, _) => if a.2 = pos then [.chain c a.1] else []
        | _ => []
    else []
  | .bind bindings body =>
    if (letChain? K name bindings body).isSome then []
    else if (tolerantChain? Γ K name bindings body).isSome then
      ((tolerantRoot? K name (tolerantBindings name bindings body)).map (.chain c ·)).toList
    else if (bindingsBind bindings).contains name then []
    else if bindings.any (·.1.mentions.contains name) then bodyParts c body
    else []
  | .loop bindings body =>
    (bindings.map fun b => .form c.nested b.2) ++
      if (bindingsBind bindings).contains name then []
      else if bindings.any (·.1.mentions.contains name) then bodyParts c.nested body
      else []
  | .fn self clauses =>
    if self = some name then []
    else
      clauses.flatMap fun cl =>
        if cl.1.binds.contains name then []
        else if cl.1.mentions.contains name then bodyParts c.closure cl.2
        else []
  | .threadFirst _ =>
    match tailChain K name c node with
    | some (.passthrough, _) => [.chain c node]
    | _ => []
  | _ => []

/-- The places below a chain whose values and keys the walk goes on to. -/
def chainWalked (c : Ctx) (node : Ast) : List Place :=
  match node with
  | .call _ args =>
    match safeCall? Γ node with
    | some (_, a, rest) => .chain c a :: rest.map (.form c.nontail ·)
    | none =>
      if reduceCallP Γ node then
        match args with
        | [_, init, coll] => [.chain c init, .form c.nontail coll]
        | _ => []
      else (inlineAttempt Γ node).1.toList.map (.chain c ·)
  | .threadFirst (f :: steps) => .chain c f :: (steps.flatMap callArgs).map (.form c.nontail ·)
  | .ifNode test thn els =>
    .form c.nontail test :: .chain c thn ::
      (els.dropLast.map (.form c.nontail ·) ++ els.getLast?.toList.map (.chain c ·))
  | _ => []

/-- The places below a chain that the walk passes over: the function of a reduce, and the
arguments an inlined helper drops. -/
def chainPassed (c : Ctx) (node : Ast) : List Place :=
  match node with
  | .call op args =>
    match safeCall? Γ node with
    | some _ => []
    | none =>
      if reduceCallP Γ node then (args.take 1).map (.form c.nontail ·)
      else
        match (Ast.call op args).operatorSymbol.bind Γ.inlinableFns with
        | some h => (droppedArgs h args).map (.form c.nontail ·)
        | none => []
  | _ => []

def Place.walkedParts : Place → List Place
  | .form c node => formWalked Γ K name pos c node
  | .chain c node => chainWalked Γ c node
  | .step c op args => callParts name c op args

def Place.passedParts : Place → List Place
  | .form c node => formPassed Γ K name pos c node
  | .chain c node => chainPassed Γ c node
  | .step _ _ _ => []

/-! Occurrences in a wrong position. -/

/-- A read-tolerant bind whose chain does not end in NAME's own recur slot, or that reads
NAME in another way than the whitelisted one. -/
def strayTolerant (c : Ctx) (bindings : List (Pattern × Ast)) (body : List Ast) : Bool :=
  (letChain? K name bindings body).isNone &&
    (tolerantChain? Γ K name bindings body).any fun x =>
      !tolerantInPlace Γ K name pos c (tolerantBindings name bindings body) x.2

/-- Is NAME an argument of the call, other than the collection a whitelisted read outside
closures is given? -/
def strayArg (c : Ctx) (op : Ast) (args : List Ast) : Bool :=
  args.zipIdx.any fun a =>
    a.1.isRef name && !(a.2 = 0 && transientReadableCallP Γ (.call op args) && !c.infn)

def formDirect (c : Ctx) (node : Ast) : Bool :=
  match node with
  | .symbolRef s => s = name && !(c.tailp && !c.infn)
  | .bind bindings body => strayTolerant Γ K name pos c bindings body
  | .call op args =>
    match tailChain K name c node with
    | some (.update, _) => false
    | _ => strayArg Γ name c op args
  | _ => false

/-- Is NAME an operator on the spine of the chain? -/
def chainDirect (node : Ast) : Bool :=
  match node with
  | .call op _ => op.isRef name
  | .threadFirst forms => forms.tail.any fun f => f.operatorSymbol = some name
  | _ => false

/-- Does the place itself hold an occurrence in a wrong position? -/
def Place.direct : Place → Bool
  | .form c node => formDirect Γ K name pos c node
  | .chain _ node => chainDirect name node
  | .step _ _ args => args.any (Ast.isRef name)

/-- And is it one that the classifier does not see as such? -/
def Place.silent : Place → Bool
  | .form c (.bind bindings body) => strayTolerant Γ K name pos c bindings body
  | .form _ _ => false
  | .chain _ node => chainDirect name node
  | .step c op args =>
    args.head?.any (Ast.isRef name) && transientReadableCallP Γ (.call op args) && !c.infn

end Parts

/-! ## §2 Strays -/

section Strays

variable (Γ : Env) (name : Symbol) (pos : Nat)

/-- The place is below the first one, through parts of both kinds. -/
def Below : Place → Place → Prop := Relation.ReflTransGen fun p q =>
  q ∈ p.walkedParts Γ (chainOf Γ) name pos ∨ q ∈ p.passedParts Γ (chainOf Γ) name pos

/-- The place is below the first one, through parts the walk goes on to. -/
def Walked : Place → Place → Prop := Relation.ReflTransGen fun p q =>
  q ∈ p.walkedParts Γ (chainOf Γ) name pos

/-- An occurrence of NAME in a wrong position. -/
def Stray (p : Place) : Prop :=
  ∃ q, Below Γ name pos p q ∧ q.direct Γ (chainOf Γ) name pos = true

/-- A walked place that hides an occurrence in a wrong position: one the classifier takes
for a good one, or one in a part it passes over. -/
def Slip (p : Place) : Prop :=
  ∃ q, Walked Γ name pos p q ∧ (q.silent Γ (chainOf Γ) name pos = true ∨
    ∃ r ∈ q.passedParts Γ (chainOf Γ) name pos, Stray Γ name pos r)

variable {Γ} {name} {pos}

theorem direct_of_silent {K : Ast → Symbol → Option (ChainKind × List Ast)} {p : Place}
    (h : p.silent Γ K name pos = true) : p.direct Γ K name pos = true := by
  cases p with
  | form c node =>
    cases node with
    | bind bindings body => exact h
    | _ => cases h
  | chain c node => exact h
  | step c op args =>
    simp only [Place.silent, Bool.and_eq_true] at h
    cases args with
    | nil => exact absurd h.1.1 (by simp)
    | cons a rest =>
      have href : a.isRef name = true := by simpa using h.1.1
      simp [Place.direct, href]

theorem Below.of_walked {p q : Place} (h : Walked Γ name pos p q) : Below Γ name pos p q :=
  Relation.ReflTransGen.mono (fun _ _ => Or.inl) _ _ h

/-- Every slip hides a stray occurrence. -/
theorem Slip.stray {p : Place} (h : Slip Γ name pos p) : Stray Γ name pos p := by
  obtain ⟨q, hq, hsilent | ⟨r, hr, s, hs, hdirect⟩⟩ := h
  · exact ⟨q, .of_walked hq, direct_of_silent hsilent⟩
  · have hqr : Below Γ name pos q r := .single (Or.inr hr)
    exact ⟨s, ((Below.of_walked hq).trans hqr).trans hs, hdirect⟩

end Strays

/-! ## §3 Chains -/

section Cover

variable (Γ : Env) (name : Symbol) (pos : Nat)

/-- A walk that finds sanctioned uses only. -/
def Clean (c : Ctx) (node : Ast) : Prop :=
  ∃ fuel es, walk Γ fuel name pos c node = some es ∧ ∀ u ∈ usesOf es, u ∈ sanctionedUses

/-- The classifier has walked the place, and found nothing wrong. -/
def Covered : Place → Prop
  | .form c node => Clean Γ name pos c node
  | .chain c node => ∃ kind others, chainOf Γ node name = some (kind, others) ∧
      ∀ o ∈ others, Clean Γ name pos c.nontail o
  | .step c op args => Clean Γ name pos c.nontail (.call op args)

variable {Γ} {name} {pos}

theorem chainOf_step {node : Ast} {x : ChainKind × List Ast} (h : chainOf Γ node name = some x) :
    ∃ fuel r, chainKindStep Γ (chainKind Γ fuel) (walk Γ fuel) node name = some r ∧
      r.chain = some x := by
  obtain ⟨r, hr, hx⟩ := Option.bind_eq_some_iff.mp h
  obtain ⟨fuel, hfuel⟩ := exists_of_limit_eq_some hr
  cases fuel with
  | zero => cases hfuel
  | succ fuel => exact ⟨fuel, r, hfuel, hx⟩

/-- What a chain hands to the walk are the arguments off its spine. -/
theorem covered_chainWalked {c : Ctx} {node : Ast} (h : Covered Γ name pos (.chain c node)) :
    ∀ q ∈ chainWalked Γ c node, Covered Γ name pos q := by
  obtain ⟨kind, others, hchain, hothers⟩ := h
  obtain ⟨fuel, r, hstep, hr⟩ := chainOf_step hchain
  have hK : ∀ {n r}, chainKind Γ fuel n name = some r → chainOf Γ n name = r.chain :=
    chainOf_of_chainKind Γ
  cases node with
  | call op args =>
    simp only [chainKindStep] at hstep
    simp only [chainWalked]
    cases hsafe : safeCall? Γ (.call op args) with
    | some found =>
      obtain ⟨o, a, rest⟩ := found
      simp only [hsafe, Option.bind_eq_bind, Option.bind_eq_some_iff] at hstep
      obtain ⟨r', hr', hstep⟩ := hstep
      cases hk : r'.chain with
      | none =>
        simp only [hk] at hstep
        cases hstep
        cases hr
      | some x =>
        simp only [hk] at hstep
        cases hstep
        cases hr
        intro q hq
        rcases List.mem_cons.mp hq with rfl | hq
        · exact ⟨x.1, x.2, (hK hr').trans hk, fun o ho => hothers o (List.mem_append_right _ ho)⟩
        · obtain ⟨a', ha', rfl⟩ := List.mem_map.mp hq
          exact hothers a' (List.mem_append_left _ ha')
    | none =>
      simp only [hsafe] at hstep
      unfold chainKindCall at hstep
      cases hred : reduceCallP Γ (.call op args) with
      | true =>
        simp only [hred, if_true, Option.bind_eq_bind, Option.bind_eq_some_iff, Option.pure_def,
          Option.some.injEq] at hstep
        obtain ⟨r', hr', rfl⟩ := hstep
        simp only [if_true]
        split
        · rename_i f init coll
          simp only [reduceChainKind, Option.bind_eq_bind, Option.bind_eq_some_iff] at hr'
          obtain ⟨ri, hri, hr'⟩ := hr'
          cases hk : ri.chain with
          | none =>
            simp only [hk] at hr'
            cases hr'
            cases hr
          | some x =>
            simp only [hk, Option.bind_eq_some_iff, Option.pure_def, Option.some.injEq] at hr'
            obtain ⟨⟨linear, events⟩, -, rfl⟩ := hr'
            cases linear with
            | false => cases hr
            | true =>
              cases hr
              intro q hq
              rcases List.mem_cons.mp hq with rfl | hq
              · exact ⟨x.1, x.2, (hK hri).trans hk,
                  fun o ho => hothers o (List.mem_cons_of_mem _ ho)⟩
              · obtain rfl := List.mem_singleton.mp hq
                exact hothers coll List.mem_cons_self
        · simp
      | false =>
        simp only [hred, Bool.false_eq_true, if_false] at hstep ⊢
        cases hin : (inlineAttempt Γ (.call op args)).1 with
        | none => simp
        | some inlined =>
          have hpair : inlineAttempt Γ (.call op args) =
              (some inlined, (inlineAttempt Γ (.call op args)).2) := by rw [← hin]
          rw [hpair] at hstep
          simp only [Option.bind_eq_bind, Option.bind_eq_some_iff, Option.pure_def,
            Option.some.injEq] at hstep
          obtain ⟨r', hr', rfl⟩ := hstep
          intro q hq
          obtain rfl : q = .chain c inlined := by simpa using hq
          exact ⟨kind, others, (hK hr').trans hr, hothers⟩
  | threadFirst forms =>
    cases forms with
    | nil => simp [chainWalked]
    | cons f steps =>
      simp only [chainKindStep, Option.bind_eq_bind, Option.bind_eq_some_iff] at hstep
      obtain ⟨r', hr', hstep⟩ := hstep
      cases hk : r'.chain with
      | none =>
        simp only [hk] at hstep
        cases hstep
        cases hr
      | some x =>
        cases hsteps : safeSteps Γ steps with
        | none =>
          simp only [hk, hsteps] at hstep
          cases hstep
          cases hr
        | some ops =>
          simp only [hk, hsteps] at hstep
          cases hstep
          cases hr
          intro q hq
          rcases List.mem_cons.mp hq with rfl | hq
          · exact ⟨x.1, x.2, (hK hr').trans hk, fun o ho => hothers o (List.mem_append_right _ ho)⟩
          · obtain ⟨a, ha, rfl⟩ := List.mem_map.mp hq
            exact hothers a (List.mem_append_left _ ha)
  | ifNode test thn els =>
    simp only [chainKindStep] at hstep
    simp only [chainWalked]
    cases hlast : els.getLast? with
    | none =>
      simp only [hlast] at hstep
      cases hstep
      cases hr
    | some last =>
      simp only [hlast, Option.bind_eq_bind, Option.bind_eq_some_iff] at hstep
      obtain ⟨r₁, hr₁, hstep⟩ := hstep
      cases hk₁ : r₁.chain with
      | none =>
        simp only [hk₁] at hstep
        cases hstep
        cases hr
      | some x₁ =>
        simp only [hk₁, Option.bind_eq_some_iff] at hstep
        obtain ⟨r₂, hr₂, hstep⟩ := hstep
        cases hk₂ : r₂.chain with
        | none =>
          simp only [hk₂] at hstep
          cases hstep
          cases hr
        | some x₂ =>
          simp only [hk₂] at hstep
          cases hstep
          cases hr
          have hmem : ∀ o, o = test ∨ o ∈ els.dropLast ∨ o ∈ x₁.2 ∨ o ∈ x₂.2 →
              Clean Γ name pos c.nontail o := by
            intro o ho
            exact hothers o (by simpa using ho)
          intro q hq
          simp only [Option.toList_some, List.mem_cons, List.mem_append, List.mem_map,
            List.map_cons, List.map_nil, List.not_mem_nil, or_false] at hq
          rcases hq with rfl | rfl | ⟨o, ho, rfl⟩ | rfl
          · exact hmem test (Or.inl rfl)
          · exact ⟨x₁.1, x₁.2, (hK hr₁).trans hk₁, fun o ho => hmem o (Or.inr (Or.inr (Or.inl ho)))⟩
          · exact hmem o (Or.inr (Or.inl ho))
          · exact ⟨x₂.1, x₂.2, (hK hr₂).trans hk₂, fun o ho => hmem o (Or.inr (Or.inr (Or.inr ho)))⟩
  | _ => simp [chainWalked]

/-! ## §4 Walks -/

theorem mem_usesOf {events : List Event} {u : Use} : u ∈ usesOf events ↔ .use u ∈ events := by
  simp only [usesOf, List.mem_filterMap]
  constructor
  · rintro ⟨e, he, hu⟩
    cases e <;> cases hu
    exact he
  · intro he
    exact ⟨_, he, rfl⟩

/-- A clean walk leaves sanctioned uses only, and the walks it makes are clean. -/
theorem clean_step {c : Ctx} {node : Ast} (h : Clean Γ name pos c node) :
    (∀ u, .use u ∈ walkLocal Γ (chainOf Γ) name pos c node → u ∈ sanctionedUses) ∧
      ∀ c' n, .walk name pos c' n ∈ walkSubs Γ (chainOf Γ) name pos c node →
        Clean Γ name pos c' n := by
  obtain ⟨fuel, es, hwalk, huses⟩ := h
  cases fuel with
  | zero => cases hwalk
  | succ fuel =>
    have hcol : Collects (fun _ => True) (Visit.run (chainKind Γ fuel) (walk Γ fuel)) es
        (walkLocal Γ (chainOf Γ) name pos c node) (walkSubs Γ (chainOf Γ) name pos c node) :=
      walkStep_collects (fun _ _ _ => chainOf_of_chainKind Γ) hwalk
    constructor
    · intro u hu
      exact huses u (mem_usesOf.mpr ((hcol.mem _ trivial).mpr (Or.inl hu)))
    · intro c' n hv
      obtain ⟨es', hes'⟩ := Option.isSome_iff_exists.mp (hcol.returns _ hv)
      refine ⟨fuel, es', hes', ?_⟩
      intro u hu
      have hmem := (hcol.mem (.use u) trivial).mpr (Or.inr ⟨_, hv, es', hes', mem_usesOf.mp hu⟩)
      exact huses u (mem_usesOf.mpr hmem)

theorem covered_bodyParts {visits : List Visit}
    (hvisits : ∀ c n, .walk name pos c n ∈ visits → Clean Γ name pos c n) {c : Ctx}
    {ns : List Ast} (hsub : ∀ v ∈ bodyVisits name pos c ns, v ∈ visits) :
    ∀ q ∈ bodyParts c ns, Covered Γ name pos q := by
  intro q hq
  obtain ⟨p, hp, rfl⟩ := List.mem_map.mp hq
  exact hvisits p.1 p.2 (hsub _ (List.mem_map.mpr ⟨p, hp, rfl⟩))

theorem mem_initParts {c : Ctx} {bindings : List (Pattern × Ast)} {q : Place}
    (h : q ∈ initParts name c bindings) : ∃ b ∈ bindings, q = .form c b.2 := by
  induction bindings with
  | nil => cases h
  | cons b bs ih =>
    obtain ⟨p, init⟩ := b
    rcases List.mem_cons.mp h with rfl | h
    · exact ⟨_, List.mem_cons_self, rfl⟩
    · split at h
      · cases h
      · obtain ⟨b, hb, hq⟩ := ih h
        exact ⟨b, List.mem_cons_of_mem _ hb, hq⟩

theorem covered_stepPlace {c : Ctx} {n : Ast} (hc : c.nontail = c) (h : Clean Γ name pos c n) :
    Covered Γ name pos (stepPlace c n) := by
  cases n with
  | call op args =>
    rw [← hc] at h
    exact h
  | _ => exact h

theorem covered_callParts {c : Ctx} {op : Ast} {args : List Ast} {visits : List Visit}
    (hvisits : ∀ c n, .walk name pos c n ∈ visits → Clean Γ name pos c n)
    (hop : .walk name pos c.nontail op ∈ visits)
    (hargs : ∀ a ∈ args, a.isRef name = false → .walk name pos c.nontail a ∈ visits) :
    ∀ q ∈ callParts name c op args, Covered Γ name pos q := by
  intro q hq
  rcases List.mem_cons.mp hq with rfl | hq
  · exact hvisits _ _ hop
  · obtain ⟨a, ha, hq⟩ := List.mem_flatMap.mp hq
    split at hq
    · cases hq
    · rename_i href
      obtain rfl := List.mem_singleton.mp hq
      exact hvisits _ _ (hargs a ha (by simpa using href))

theorem covered_elementParts {c : Ctx} {el : Ast} {visits : List Visit}
    (hvisits : ∀ c n, .walk name pos c n ∈ visits → Clean Γ name pos c n)
    (hsub : ∀ v ∈ elementVisit name pos c el, v ∈ visits) :
    ∀ q ∈ elementParts name c el, Covered Γ name pos q := by
  intro q hq
  unfold elementParts at hq
  unfold elementVisit at hsub
  split at hq
  · cases hq
  · rename_i hel
    obtain rfl := List.mem_singleton.mp hq
    rw [if_neg hel] at hsub
    exact hvisits _ _ (hsub _ List.mem_cons_self)

theorem covered_recurSlotParts {c : Ctx} {arg : Ast} {visits : List Visit}
    (hvisits : ∀ c n, .walk name pos c n ∈ visits → Clean Γ name pos c n)
    (hsub : ∀ v ∈ recurSlotSubs (chainOf Γ) name pos c arg, v ∈ visits) :
    ∀ q ∈ recurSlotParts (chainOf Γ) name c arg, Covered Γ name pos q := by
  unfold recurSlotParts
  unfold recurSlotSubs at hsub
  cases hk : chainOf Γ arg name with
  | none =>
    simp only [hk, List.mem_singleton, forall_eq] at hsub ⊢
    exact hvisits _ _ (hsub _ (by simp))
  | some found =>
    obtain ⟨_ | _, others⟩ := found
    · simp
    · simp only [hk, List.mem_singleton, forall_eq] at hsub ⊢
      refine ⟨_, others, hk, ?_⟩
      intro o ho
      exact hvisits _ _ (hsub _ (by simp [ho]))

theorem covered_threadFirst {c : Ctx} {forms : List Ast}
    (h : Clean Γ name pos c (.threadFirst forms)) :
    ∀ q ∈ formWalked Γ (chainOf Γ) name pos c (.threadFirst forms), Covered Γ name pos q := by
  have hvisits := (clean_step h).2
  have hsteps : (∀ f ∈ forms, Clean Γ name pos c.nontail f) →
      ∀ f steps, forms = f :: steps →
        ∀ q ∈ .form c.nontail f :: steps.map (stepPlace c.nontail), Covered Γ name pos q := by
    rintro hforms f steps rfl q hq
    rcases List.mem_cons.mp hq with rfl | hq
    · exact hforms f List.mem_cons_self
    · obtain ⟨s, hs, rfl⟩ := List.mem_map.mp hq
      exact covered_stepPlace rfl (hforms s (List.mem_cons_of_mem _ hs))
  simp only [formWalked, tailChain]
  simp only [walkSubs] at hvisits
  cases ht : c.tailp with
  | false =>
    simp only [ht, Bool.false_eq_true, if_false] at hvisits ⊢
    have hforms : ∀ f ∈ forms, Clean Γ name pos c.nontail f := fun f hf =>
      hvisits _ _ (by simpa using hf)
    cases forms with
    | nil => simp
    | cons f steps => exact hsteps hforms f steps rfl
  | true =>
    cases hk : chainOf Γ (.threadFirst forms) name with
    | none =>
      simp only [ht, hk, if_true] at hvisits ⊢
      have hforms : ∀ f ∈ forms, Clean Γ name pos c.nontail f := fun f hf =>
        hvisits _ _ (by simpa using hf)
      cases forms with
      | nil => simp
      | cons f steps => exact hsteps hforms f steps rfl
    | some found =>
      obtain ⟨_ | _, others⟩ := found
      · simp
      · simp only [ht, hk, if_true, List.mem_singleton, forall_eq] at hvisits ⊢
        refine ⟨_, others, hk, ?_⟩
        intro o ho
        exact hvisits _ _ (by simpa using ho)

theorem covered_call {c : Ctx} {op : Ast} {args : List Ast}
    (h : Clean Γ name pos c (.call op args)) :
    ∀ q ∈ formWalked Γ (chainOf Γ) name pos c (.call op args), Covered Γ name pos q := by
  have hvisits := (clean_step h).2
  simp only [formWalked, tailChain]
  simp only [walkSubs] at hvisits
  have hargs : ∀ a ∈ args, a.isRef name = false →
      Visit.walk name pos c.nontail a ∈ Visit.walk name pos c.nontail op ::
        args.flatMap fun a => if a.isRef name then [] else [.walk name pos c.nontail a] := by
    intro a ha href
    exact List.mem_cons_of_mem _ (List.mem_flatMap.mpr ⟨a, ha, by simp [href]⟩)
  cases ht : c.tailp with
  | false =>
    simp only [ht, Bool.false_eq_true, if_false] at hvisits ⊢
    refine covered_callParts hvisits (by simp) ?_
    intro a ha href
    exact List.mem_cons_of_mem _ (hargs a ha href)
  | true =>
    cases hk : chainOf Γ (.call op args) name with
    | none =>
      simp only [ht, hk, if_true] at hvisits ⊢
      refine covered_callParts hvisits (by simp) ?_
      intro a ha href
      exact List.mem_cons_of_mem _ (hargs a ha href)
    | some found =>
      obtain ⟨_ | _, others⟩ := found
      · simp only [ht, hk, if_true] at hvisits ⊢
        refine covered_callParts hvisits (by simp) ?_
        intro a ha href
        exact List.mem_cons_of_mem _ (hargs a ha href)
      · simp only [ht, hk, if_true, List.mem_singleton, forall_eq] at hvisits ⊢
        refine ⟨_, others, hk, ?_⟩
        intro o ho
        exact hvisits _ _ (by simpa using ho)

/-- The walk of a form covers the places it goes on to. -/
theorem covered_formWalked {c : Ctx} {node : Ast} (h : Clean Γ name pos c node) :
    ∀ q ∈ formWalked Γ (chainOf Γ) name pos c node, Covered Γ name pos q := by
  have hvisits := (clean_step h).2
  intro q hq
  cases node with
  | literal v => cases hq
  | quote s => cases hq
  | symbolRef s => cases hq
  | threadFirst forms => exact covered_threadFirst h q hq
  | call op args => exact covered_call h q hq
  | recur args =>
    simp only [formWalked] at hq
    simp only [walkSubs] at hvisits
    split at hq
    · rename_i hc
      rw [if_pos hc] at hvisits
      obtain ⟨a, ha, hq⟩ := List.mem_flatMap.mp hq
      split at hq
      · rename_i hpos
        refine covered_recurSlotParts hvisits ?_ q hq
        intro v hv
        exact List.mem_flatMap.mpr ⟨a, ha, by simpa [hpos] using hv⟩
      · rename_i hpos
        obtain rfl := List.mem_singleton.mp hq
        exact hvisits _ _ (List.mem_flatMap.mpr ⟨a, ha, by simp [hpos]⟩)
    · rename_i hc
      rw [if_neg hc] at hvisits
      obtain ⟨a, ha, rfl⟩ := List.mem_map.mp hq
      exact hvisits _ _ (List.mem_map.mpr ⟨a, ha, rfl⟩)
  | ifNode test thn els =>
    rcases List.mem_cons.mp hq with rfl | hq
    · exact hvisits _ _ List.mem_cons_self
    · rcases List.mem_cons.mp hq with rfl | hq
      · exact hvisits _ _ (List.mem_cons_of_mem _ List.mem_cons_self)
      · refine covered_bodyParts hvisits ?_ q hq
        intro v hv
        exact List.mem_cons_of_mem _ (List.mem_cons_of_mem _ hv)
  | doNode body => exact covered_bodyParts hvisits (fun _ => id) q hq
  | bind bindings body =>
    simp only [formWalked] at hq
    simp only [walkSubs] at hvisits
    cases hlet : letChain? (chainOf Γ) name bindings body with
    | some recurNode =>
      simp only [hlet] at hq hvisits
      obtain rfl := List.mem_singleton.mp hq
      exact hvisits _ _ (List.mem_append_right _ List.mem_cons_self)
    | none =>
      simp only [hlet] at hq hvisits
      cases htol : tolerantChain? Γ (chainOf Γ) name bindings body with
      | some x =>
        obtain ⟨args, p⟩ := x
        simp only [htol] at hq hvisits
        obtain ⟨a, ha, rfl⟩ := List.mem_map.mp hq
        refine hvisits _ _ (List.mem_append_right _ (List.mem_append_right _ ?_))
        exact List.mem_map.mpr ⟨a, ha, rfl⟩
      | none =>
        simp only [htol] at hq hvisits
        rcases List.mem_append.mp hq with hq | hq
        · obtain ⟨b, hb, rfl⟩ := mem_initParts hq
          refine hvisits _ _ (List.mem_append_right _ (List.mem_append_right _ ?_))
          exact List.mem_append_left _ (List.mem_map.mpr ⟨b, hb, rfl⟩)
        · split at hq
          · cases hq
          · rename_i hscope
            refine covered_bodyParts hvisits ?_ q hq
            intro v hv
            refine List.mem_append_right _ (List.mem_append_right _ (List.mem_append_right _ ?_))
            rw [if_neg (fun hm => hscope (by rw [hm, Bool.true_or]))]
            exact hv
  | case expr clauses =>
    rcases List.mem_cons.mp hq with rfl | hq
    · exact hvisits _ _ List.mem_cons_self
    · obtain ⟨cl, hcl, hq⟩ := List.mem_flatMap.mp hq
      refine covered_bodyParts hvisits ?_ q hq
      intro v hv
      exact List.mem_cons_of_mem _ (List.mem_flatMap.mpr ⟨cl, hcl, hv⟩)
  | cond clauses =>
    obtain ⟨cl, hcl, hq⟩ := List.mem_flatMap.mp hq
    rcases List.mem_cons.mp hq with rfl | hq
    · exact hvisits _ _ (List.mem_flatMap.mpr ⟨cl, hcl, List.mem_cons_self⟩)
    · refine covered_bodyParts hvisits ?_ q hq
      intro v hv
      exact List.mem_flatMap.mpr ⟨cl, hcl, List.mem_cons_of_mem _ hv⟩
  | loop bindings body =>
    simp only [formWalked] at hq
    simp only [walkSubs] at hvisits
    split at hq
    · cases hq
    · rename_i hscope
      rw [if_neg (fun hm => hscope (by rw [hm, Bool.true_or]))] at hvisits
      exact covered_bodyParts hvisits (fun _ => id) q hq
  | fn self clauses =>
    simp only [formWalked] at hq
    split at hq
    · cases hq
    · obtain ⟨cl, hcl, hq⟩ := List.mem_flatMap.mp hq
      split at hq
      · cases hq
      · rename_i hscope
        refine covered_bodyParts hvisits ?_ q hq
        intro v hv
        refine List.mem_flatMap.mpr ⟨cl, hcl, ?_⟩
        rw [if_neg (fun hm => hscope (by rw [hm, Bool.true_or]))]
        exact hv
  | letfn bindings body =>
    simp only [formWalked] at hq
    split at hq
    · cases hq
    · rcases List.mem_append.mp hq with hq | hq
      · obtain ⟨b, hb, hq⟩ := List.mem_flatMap.mp hq
        obtain ⟨cl, hcl, hq⟩ := List.mem_flatMap.mp hq
        split at hq
        · cases hq
        · obtain ⟨n, hn, rfl⟩ := List.mem_map.mp hq
          refine hvisits _ _ (List.mem_append_left _ (List.mem_flatMap.mpr ⟨b, hb, ?_⟩))
          exact List.mem_flatMap.mpr ⟨cl, hcl, List.mem_map.mpr ⟨n, hn, rfl⟩⟩
      · exact covered_bodyParts hvisits (fun v hv => List.mem_append_right _ hv) q hq
  | vector elements =>
    obtain ⟨el, hel, hq⟩ := List.mem_flatMap.mp hq
    refine covered_elementParts hvisits ?_ q hq
    intro v hv
    exact List.mem_flatMap.mpr ⟨el, hel, hv⟩
  | set elements =>
    obtain ⟨el, hel, hq⟩ := List.mem_flatMap.mp hq
    refine covered_elementParts hvisits ?_ q hq
    intro v hv
    exact List.mem_flatMap.mpr ⟨el, hel, hv⟩
  | dict entries =>
    obtain ⟨e, he, hq⟩ := List.mem_flatMap.mp hq
    rcases List.mem_append.mp hq with hq | hq
    · refine covered_elementParts hvisits ?_ q hq
      intro v hv
      exact List.mem_flatMap.mpr ⟨e, he, List.mem_append_left _ hv⟩
    · refine covered_elementParts hvisits ?_ q hq
      intro v hv
      exact List.mem_flatMap.mpr ⟨e, he, List.mem_append_right _ hv⟩
  | other kids =>
    obtain ⟨k, hk, hq⟩ := List.mem_flatMap.mp hq
    have hclean : Clean Γ name pos c.complex k.2.2 :=
      hvisits _ _ (List.mem_map.mpr ⟨k, hk, rfl⟩)
    split at hq
    · cases hq
    · obtain rfl := List.mem_singleton.mp hq
      split
      · exact covered_stepPlace rfl hclean
      · exact hclean

/-! ## §5 Coverage -/

/-- An argument whose use is sanctioned is the collection of a whitelisted read. -/
theorem argUse_sanctioned {node : Ast} {c : Ctx} {i : Nat}
    (h : ∀ u, .use u ∈ argUse Γ node c i → u ∈ sanctionedUses) :
    i = 0 ∧ transientReadableCallP Γ node = true ∧ c.infn = false := by
  have hno : ∀ u, u ∉ sanctionedUses → .use u ∉ argUse Γ node c i := fun u hu hmem => hu (h u hmem)
  have hescape : .use (if callArgReadP Γ node i then .read else .escapeCall) ∉ argUse Γ node c i :=
    hno _ (by split <;> decide)
  unfold argUse at hescape hno
  split at hno
  · exact absurd List.mem_cons_self (hno .captured (by decide))
  · rename_i hfn
    rw [if_neg hfn] at hescape
    split at hescape
    · rename_i hi
      split at hescape
      · rename_i hread
        exact ⟨hi, hread, by simpa using hfn⟩
      · simp at hescape
    · simp at hescape

/-- In a clean call NAME is nothing but the collection of a whitelisted read. -/
theorem clean_callArgs {c : Ctx} {op : Ast} {args : List Ast}
    (h : Clean Γ name pos c (.call op args))
    (hchain : ∀ others, tailChain (chainOf Γ) name c (.call op args) ≠ some (.update, others)) :
    ∀ a ∈ args.zipIdx, a.1.isRef name = true →
      a.2 = 0 ∧ transientReadableCallP Γ (.call op args) = true ∧ c.infn = false := by
  intro a ha href
  refine argUse_sanctioned ?_
  intro u hu
  refine (clean_step h).1 u ?_
  have hmem : .use u ∈ args.zipIdx.flatMap fun a =>
      if a.1.isRef name then argUse Γ (.call op args) c a.2 else [] :=
    List.mem_flatMap.mpr ⟨a, ha, by simpa [href] using hu⟩
  simp only [walkLocal]
  simp only [tailChain] at hchain
  cases ht : c.tailp with
  | false => simpa using hmem
  | true =>
    cases hk : chainOf Γ (.call op args) name with
    | none => exact hmem
    | some found =>
      obtain ⟨_ | _, others⟩ := found
      · exact hmem
      · exact absurd (by rw [ht, hk]; rfl) (hchain others)

/-- In a covered place only a silent occurrence is in a wrong position. -/
theorem Covered.silent {p : Place} (h : Covered Γ name pos p)
    (hdirect : p.direct Γ (chainOf Γ) name pos = true) :
    p.silent Γ (chainOf Γ) name pos = true := by
  cases p with
  | chain c node => exact hdirect
  | step c op args =>
    obtain ⟨a, ha, href⟩ := List.any_eq_true.mp hdirect
    obtain ⟨i, hi⟩ := List.getElem?_of_mem ha
    have hclean := clean_callArgs h (by simp [tailChain, Ctx.nontail]) (a, i)
      (by simpa [List.mem_zipIdx_iff_getElem?] using hi) href
    obtain ⟨rfl, hread, hfn⟩ := hclean
    have hhead : args.head? = some a := by rw [List.head?_eq_getElem?, hi]
    have hfn' : c.infn = false := hfn
    simp [Place.silent, hhead, href, hread, hfn']
  | form c node =>
    cases node with
    | bind bindings body => exact hdirect
    | symbolRef s =>
      simp only [Place.direct, formDirect, Bool.and_eq_true, decide_eq_true_eq] at hdirect
      obtain ⟨rfl, hctx⟩ := hdirect
      have huse := (clean_step h).1
      simp only [walkLocal, if_true, List.mem_singleton, Event.use.injEq, forall_eq] at huse
      cases hfn : c.infn with
      | true =>
        rw [hfn, if_pos rfl] at huse
        exact absurd huse (by decide)
      | false =>
        cases ht : c.tailp with
        | true => simp [hfn, ht] at hctx
        | false =>
          rw [hfn, ht] at huse
          exact absurd huse (by decide)
    | call op args =>
      simp only [Place.direct, formDirect] at hdirect
      split at hdirect
      · cases hdirect
      · rename_i hchain
        obtain ⟨a, ha, hstray⟩ := List.any_eq_true.mp hdirect
        simp only [Bool.and_eq_true] at hstray
        obtain ⟨hi, hread, hfn⟩ := clean_callArgs h hchain a ha hstray.1
        simp [hi, hread, hfn] at hstray
    | _ => cases hdirect

theorem Covered.walked {p : Place} (h : Covered Γ name pos p) :
    ∀ q ∈ p.walkedParts Γ (chainOf Γ) name pos, Covered Γ name pos q := by
  cases p with
  | form c node => exact covered_formWalked h
  | chain c node => exact covered_chainWalked h
  | step c op args =>
    have hcall := covered_call h
    simp only [formWalked, tailChain, Ctx.nontail, Bool.false_eq_true, if_false] at hcall
    exact hcall

/-- In a covered place the stray occurrences are those of its slips. -/
theorem Covered.stray_iff_slip {p : Place} (h : Covered Γ name pos p) :
    Stray Γ name pos p ↔ Slip Γ name pos p := by
  constructor
  · rintro ⟨q, hq, hdirect⟩
    induction hq using Relation.ReflTransGen.head_induction_on with
    | refl => exact ⟨q, .refl, Or.inl (h.silent hdirect)⟩
    | head hstep hrest ih =>
      rcases hstep with hwalked | hpassed
      · obtain ⟨r, hr, hslip⟩ := ih (h.walked _ hwalked)
        exact ⟨r, .head hwalked hr, hslip⟩
      · exact ⟨_, .refl, Or.inr ⟨_, hpassed, q, hrest, hdirect⟩⟩
  · exact Slip.stray

end Cover

/-- No free occurrence of NAME in the loop body is in a wrong position. -/
def StrayFree (Γ : Env) (name : Symbol) (pos : Nat) (body : List Ast) : Prop :=
  ∀ p ∈ bodyParts .body body, ¬ Stray Γ name pos p

/-- None is where the walk passes over it or takes it for a good one. -/
def SlipFree (Γ : Env) (name : Symbol) (pos : Nat) (body : List Ast) : Prop :=
  ∀ p ∈ bodyParts .body body, ¬ Slip Γ name pos p

/-- A parameter that qualifies occurs in good positions only, exactly when none of its
occurrences is in a place the classifier passes over. -/
theorem qualified_covers_iff {Γ : Env} {fuel : Nat} {name : Symbol} {pos : Nat} {body : List Ast}
    {events : List Event} (h : classifyLoopParam Γ fuel name pos body = some events)
    (hq : paramVerdict (usesOf events) = .qualified) :
    StrayFree Γ name pos body ↔ SlipFree Γ name pos body := by
  have huses : ∀ u ∈ usesOf events, u ∈ sanctionedUses := by
    unfold paramVerdict at hq
    split at hq
    · cases hq
    · split at hq
      · rename_i hall
        intro u hu
        simpa using List.all_eq_true.mp hall u hu
      · cases hq
  have hcol : Collects (fun _ => True) (Visit.run (chainKind Γ fuel) (walk Γ fuel)) events []
      (bodyVisits name pos .body body) := walkLastTail_collects h
  have hvisits : ∀ c n, .walk name pos c n ∈ bodyVisits name pos .body body →
      Clean Γ name pos c n := by
    intro c n hv
    obtain ⟨es, hes⟩ := Option.isSome_iff_exists.mp (hcol.returns _ hv)
    refine ⟨fuel, es, hes, ?_⟩
    intro u hu
    have hmem := (hcol.mem (.use u) trivial).mpr (Or.inr ⟨_, hv, es, hes, mem_usesOf.mp hu⟩)
    exact huses u (mem_usesOf.mpr hmem)
  have hcovered : ∀ p ∈ bodyParts .body body, Covered Γ name pos p :=
    covered_bodyParts hvisits fun _ => id
  exact forall₂_congr fun p hp => not_congr (hcovered p hp).stray_iff_slip

/-- `(if (done? i) acc (recur (assoc acc i (count acc)) (inc i)))` -/
def countBody : List Ast :=
  [.ifNode (.call (.symbolRef ⟨"DONE?", "USER"⟩) [.symbolRef ⟨"I", "USER"⟩])
    (.symbolRef ⟨"ACC", "USER"⟩)
    [.recur
      [.call (.symbolRef ⟨"ASSOC", "USER"⟩)
          [.symbolRef ⟨"ACC", "USER"⟩, .symbolRef ⟨"I", "USER"⟩,
            .call (.symbolRef ⟨"COUNT", "USER"⟩) [.symbolRef ⟨"ACC", "USER"⟩]],
        .call (.symbolRef ⟨"INC", "USER"⟩) [.symbolRef ⟨"I", "USER"⟩]]]]

theorem qualified_covers_iff_count :
    StrayFree {} ⟨"ACC", "USER"⟩ 0 countBody ↔ SlipFree {} ⟨"ACC", "USER"⟩ 0 countBody :=
  qualified_covers_iff (show classifyLoopParam {} 12 ⟨"ACC", "USER"⟩ 0 countBody = some _
    from rfl) rfl

/-- `(stash! acc)` -/
def stashCall : Ast := .call (.symbolRef ⟨"STASH!", "USER"⟩) [.symbolRef ⟨"ACC", "USER"⟩]

/-- `(if (done? i) acc (do (loop [x (stash! acc)] x) (recur (assoc acc i 1) (inc i))))` -/
def stashBody : List Ast :=
  [.ifNode (.call (.symbolRef ⟨"DONE?", "USER"⟩) [.symbolRef ⟨"I", "USER"⟩])
    (.symbolRef ⟨"ACC", "USER"⟩)
    [.doNode
      [.loop [(.symbol ⟨"X", "USER"⟩, stashCall)] [.symbolRef ⟨"X", "USER"⟩],
        .recur
          [.call (.symbolRef ⟨"ASSOC", "USER"⟩)
              [.symbolRef ⟨"ACC", "USER"⟩, .symbolRef ⟨"I", "USER"⟩, .literal (.num 1)],
            .call (.symbolRef ⟨"INC", "USER"⟩) [.symbolRef ⟨"I", "USER"⟩]]]]]

/-- The initial value of the inner loop is not looked into: `acc` qualifies although an
unknown function is given it. -/
theorem stashed_unrecorded : ∃ events,
    classifyLoopParam {} 12 ⟨"ACC", "USER"⟩ 0 stashBody = some events ∧
      paramVerdict (usesOf events) = .qualified ∧
      ¬ StrayFree {} ⟨"ACC", "USER"⟩ 0 stashBody := by
  refine ⟨_, rfl, rfl, ?_⟩
  intro hfree
  refine hfree _ List.mem_cons_self ⟨.form Ctx.body.nontail.nested stashCall, ?_, ?_⟩
  · refine .head (Or.inl (List.mem_cons_of_mem _ (List.mem_cons_of_mem _ List.mem_cons_self))) ?_
    refine .head (Or.inl List.mem_cons_self) ?_
    exact .single (Or.inr List.mem_cons_self)
  · rfl

end Fol.Escape
