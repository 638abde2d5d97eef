/-
Fol.Escape.Classify — the chain recogniser and the accumulator classifier of
`escape-analysis.lisp`.

`chain-kind`, `reduce-chain-kind` and `classify-loop-param` call one another, also on
trees that are no part of their argument (an inlined helper body, a folded binding
chain). Every function below is written over the two recursive calls `chain` and
`walk`; `classifier` ties the knot with a fuel. `none` is an exhausted fuel.

What the source pushes on lists is returned as a list of events: the uses of the
parameter, and what goes to `*chain-ops*`, `*read-ops*` and `*inlined-helpers*`. The
event `lookup` is added: it says that an entry of `*inferred-summaries*` or
`*tr-inlinable-fns*` was read.
-/
import Fol.Escape.Summaries

namespace Fol.Escape

/-! ## §1 Events -/

/-- The use classifications of `classify-loop-param`. -/
inductive Use where
  | recurUpdate
  | recurPassthrough
  | exitBare
  | exitUpdate
  | exitInLiteral
  | readOk
  | read
  | escapeCall
  | captured
  | otherFlow
  | nestedLoopInit
  | shadowedBind
  | recurReset
  | recurInComplexContext
deriving DecidableEq

/-- Where a table entry of a user function is read. -/
inductive Site where
  /-- `transient-readable-call-p` -/
  | readable
  /-- `call-arg-read-p` -/
  | argRead
  /-- `%reduce-call-p` -/
  | reduce
  /-- `%tr-inline-attempt` -/
  | helper
deriving DecidableEq

inductive Event where
  | use (u : Use)
  | chainOp (op : String)
  | readOp (op : String)
  | inlinedHelper (name : Symbol)
  | lookup (site : Site) (name : Symbol)
deriving DecidableEq

/-- `uses`. -/
def Event.use? : Event → Option Use
  | .use u => some u
  | _ => none

def usesOf (events : List Event) : List Use := events.filterMap Event.use?

/-- What a nested classification leaves: its uses are its own. -/
def notesOf (events : List Event) : List Event := events.filter fun e => e.use?.isNone

/-- The values of `chain-kind`. -/
inductive ChainKind where
  | passthrough
  | update
deriving DecidableEq

/-- What `chain-kind` returns, `none` being its NIL, and what it pushes. -/
structure ChainResult where
  chain : Option (ChainKind × List Ast)
  events : List Event := []

/-! ## §2 Inlining -/

section Inlining

mutual

/-- `%tr-inline-subst`. -/
@[grind =] def inlineSubst (subst : List (Symbol × Ast)) : Ast → Ast
  | .symbolRef s =>
    match subst.find? (·.1 = s) with
    | some sub => sub.2
    | none => .symbolRef s
  | .call op args => .call op (inlineSubstList subst args)
  | .threadFirst forms => .threadFirst (inlineSubstList subst forms)
  | .ifNode test thn els =>
    .ifNode (inlineSubst subst test) (inlineSubst subst thn) (inlineSubstList subst els)
  | n => n

def inlineSubstList (subst : List (Symbol × Ast)) : List Ast → List Ast
  | [] => []
  | n :: ns => inlineSubst subst n :: inlineSubstList subst ns

end

variable (Γ : Env)

/-- May argument `i` be put in place of its formal? -/
def substitutableP (h : Helper) (i : Nat) (arg : Ast) : Bool :=
  (i = h.accPos && h.accRefCount = 1) || arg.isRefOrLiteral

/-- `%tr-inline-attempt`. -/
def inlineAttempt (node : Ast) : Option Ast × List Event :=
  match node with
  | .call (.symbolRef op) args =>
    match Γ.inlinableFns op with
    | none => (none, [])
    | some h =>
      if h.params.length = args.length ∧
          (args.zipIdx.all fun a => substitutableP h a.2 a.1) = true then
        (some (inlineSubst (h.params.zip args) h.body), [.lookup .helper op, .inlinedHelper op])
      else (none, [.lookup .helper op])
  | _ => (none, [])

end Inlining

/-! ## Reads -/

section Reads

variable (Γ : Env)

/-- The event of `lookup-summary` finding an inferred summary. -/
def lookupEvents (site : Site) (s : Symbol) : List Event :=
  if s.package ≠ keywordPackage ∧ (Γ.inferred s).isSome then [.lookup site s] else []

/-- `call-arg-read-p`. -/
def callArgReadP (node : Ast) (index : Nat) : Bool :=
  node.keywordOperatorP ||
    (node.operatorSymbol.bind Γ.lookupSummary).any fun summary =>
      effectForArg summary index = .none || effectForArg summary index = .invoked

def callArgReadEvents (node : Ast) : List Event :=
  if node.keywordOperatorP then [] else node.operatorSymbol.elim [] (lookupEvents Γ .argRead)

/-- `+transient-readable-ops+`. -/
def transientReadableOps : List String := ["GET", "NTH", "COUNT", "SIZE", "EMPTY?"]

/-- `transient-readable-call-p`. -/
def transientReadableCallP (node : Ast) : Bool :=
  node.keywordOperatorP ||
    node.operatorSymbol.any fun op =>
      transientReadableOps.contains op.name && (Γ.lookupSummary op).isSome

def transientReadableEvents (node : Ast) : List Event :=
  if node.keywordOperatorP then []
  else node.operatorSymbol.elim [] fun op =>
    if transientReadableOps.contains op.name then lookupEvents Γ .readable op else []

/-- `%note-read-op`. -/
def noteReadOp (node : Ast) : List Event :=
  if node.keywordOperatorP then [.readOp "GET"]
  else node.operatorSymbol.elim [] fun op => [.readOp op.name]

/-- `%reduce-call-p`. -/
def reduceCallP (node : Ast) : Bool :=
  match node with
  | .call (.symbolRef op) args =>
    op.name = "REDUCE" && (Γ.lookupSummary op).isSome && args.length = 3
  | _ => false

def reduceCallEvents (node : Ast) : List Event :=
  node.operatorSymbol.elim [] fun op =>
    if op.name = "REDUCE" then lookupEvents Γ .reduce op else []

end Reads

/-! ## Sequences -/

/-- The events of a list of nodes, one after the other. -/
def gather {α : Type} (f : α → Option (List Event)) : List α → Option (List Event)
  | [] => some []
  | x :: xs => do
    let e ← f x
    let es ← gather f xs
    return e ++ es

/-- The context of a walk: tail position, inside a closure, `recur` is the loop's own,
below a node the rewriter does not enter. -/
structure Ctx where
  tailp : Bool := false
  infn : Bool := false
  recurp : Bool := false
  complexp : Bool := false
deriving DecidableEq

def Ctx.nontail (c : Ctx) : Ctx := { c with tailp := false }

/-- `walk-last-tail`. -/
def walkLastTail (walk : Ctx → Ast → Option (List Event)) (c : Ctx) : List Ast → Option (List Event)
  | [] => some []
  | [n] => walk c n
  | n :: ns => do
    let e ← walk c.nontail n
    let es ← walkLastTail walk c ns
    return e ++ es

/-! ## §3 Chains -/

/-- The conditions of `%linear-reduce-lambda` on the shape of the function: the
accumulator and the body of a clause over two symbols. -/
def reduceLambda? (f : Ast) (name : Symbol) : Option (Symbol × List Ast) :=
  match f with
  | .fn _ [(params, body)] =>
    match params.names with
    | [some acc, some x] =>
      if acc ≠ x ∧ containsRecur f = false ∧ (name = acc ∨ name = x ∨ treeRefsName f name = false)
      then some (acc, body)
      else none
    | _ => none
  | _ => none

section Open

variable (Γ : Env) (chain : Ast → Symbol → Option ChainResult)
  (walk : Symbol → Nat → Ctx → Ast → Option (List Event))

/-- The walk of a loop body. -/
def classifyBody (name : Symbol) (pos : Nat) (body : List Ast) : Option (List Event) :=
  walkLastTail (walk name pos) { tailp := true, recurp := true } body

/-- `reduce-acc-qualified-p`. -/
def reduceAccQualifiedP (name : Symbol) (body : List Ast) : Option (Bool × List Event) := do
  let events ← classifyBody walk name 0 body
  let uses := usesOf events
  return (uses.contains .exitUpdate &&
    uses.all [Use.exitUpdate, .exitBare, .readOk].contains, notesOf events)

/-- `%linear-reduce-lambda`. -/
def linearReduceLambda (f : Ast) (name : Symbol) : Option (Bool × List Event) :=
  match reduceLambda? f name with
  | some (acc, body) => reduceAccQualifiedP walk acc body
  | none => some (false, [])

/-- `reduce-chain-kind`. -/
def reduceChainKind (args : List Ast) (name : Symbol) : Option ChainResult :=
  match args with
  | [f, init, coll] => do
    let r ← chain init name
    match r.chain with
    | none => return ⟨none, r.events⟩
    | some (_, others) =>
      let (linear, events) ← linearReduceLambda walk f name
      return ⟨if linear then some (.update, coll :: others) else none, r.events ++ events⟩
  | _ => some ⟨none, []⟩

/-- The two else-branches of the call case of `chain-kind`. -/
def chainKindCall (node : Ast) (args : List Ast) (name : Symbol) : Option ChainResult :=
  if reduceCallP Γ node then do
    let r ← reduceChainKind chain walk args name
    return ⟨r.chain, reduceCallEvents Γ node ++ r.events⟩
  else
    match inlineAttempt Γ node with
    | (some inlined, events) => do
      let r ← chain inlined name
      return ⟨r.chain, reduceCallEvents Γ node ++ events ++ r.events⟩
    | (none, events) => some ⟨none, reduceCallEvents Γ node ++ events⟩

/-- The step forms of a thread-first chain: their operators, when all are
transient-safe calls. -/
def safeSteps : List Ast → Option (List Symbol)
  | [] => some []
  | .call (.symbolRef s) _ :: fs =>
    if Γ.transientSafeOpP s then (safeSteps fs).map (s :: ·) else none
  | _ => none

/-- A call of a transient-safe operator with arguments: the operator, the first argument
and the others. -/
def safeCall? (node : Ast) : Option (Symbol × Ast × List Ast) :=
  match node with
  | .call (.symbolRef op) (a :: rest) =>
    if Γ.transientSafeOpP op then some (op, a, rest) else none
  | _ => none

/-- `call-node-args`. -/
def callArgs : Ast → List Ast
  | .call _ args => args
  | _ => []

/-- `chain-kind`. -/
def chainKindStep (node : Ast) (name : Symbol) : Option ChainResult :=
  match node with
  | .symbolRef s => some ⟨if s = name then some (.passthrough, []) else none, []⟩
  | .call _ args =>
    match safeCall? Γ node with
    | some (op, a, rest) => do
      let r ← chain a name
      match r.chain with
      | some (_, others) => return ⟨some (.update, rest ++ others), .chainOp op.name :: r.events⟩
      | none => return ⟨none, r.events⟩
    | none => chainKindCall Γ chain walk node args name
  | .threadFirst (f :: steps) => do
    let r ← chain f name
    match r.chain, safeSteps Γ steps with
    | some (kind, others), some ops =>
      return ⟨some (if steps.isEmpty then kind else .update, steps.flatMap callArgs ++ others),
        ops.map (fun op => .chainOp op.name) ++ r.events⟩
    | _, _ => return ⟨none, r.events⟩
  | .ifNode test thn els =>
    match els.getLast? with
    | none => some ⟨none, []⟩
    | some last => do
      let r₁ ← chain thn name
      match r₁.chain with
      | none => return ⟨none, r₁.events⟩
      | some (k₁, o₁) =>
        let r₂ ← chain last name
        match r₂.chain with
        | none => return ⟨none, r₁.events ++ r₂.events⟩
        | some (k₂, o₂) =>
          return ⟨some (if k₁ = .update ∨ k₂ = .update then .update else .passthrough,
            test :: els.dropLast ++ o₁ ++ o₂), r₁.events ++ r₂.events⟩
  | _ => some ⟨none, []⟩

/-! ## §4 Bind chains -/

/-- The bindings of a `bind` whose patterns are symbols other than `name`. -/
def symbolBindings (name : Symbol) (bindings : List (Pattern × Ast)) :
    Option (List (Symbol × Ast)) :=
  match bindings with
  | [] => some []
  | (.symbol s, init) :: bs =>
    if s = name then none else (symbolBindings name bs).map ((s, init) :: ·)
  | (.tree _ _, _) :: _ => none

/-- The first loop of `%fold-let-chain`: the final alias. -/
def foldLetAlias (cur : Symbol) : List (Symbol × Ast) → Option (Option Symbol × List Event)
  | [] => some (some cur, [])
  | (var, init) :: bs => do
    let r ← chain init cur
    if r.chain.isSome ∧ symbolRefCount init cur = 1 then
      let (final, events) ← foldLetAlias var bs
      return (final, r.events ++ events)
    else return (none, r.events)

/-- The second loop of `%fold-let-chain`: every binding put into the next. -/
def foldLetExpand (prev : Symbol) (expanded : Ast) : List (Symbol × Ast) → Ast
  | [] => expanded
  | (var, init) :: bs => foldLetExpand var (inlineSubst [(prev, expanded)] init) bs

def foldLetExpr : List (Symbol × Ast) → Option Ast
  | [] => none
  | (var, init) :: bs => some (foldLetExpand var init bs)

/-- `%fold-let-chain`. -/
def foldLetChain (bindings : List (Symbol × Ast)) (root : Symbol) :
    Option (Option (Symbol × Ast) × List Event) := do
  let (final, events) ← foldLetAlias chain root bindings
  return (final.bind fun f => (foldLetExpr bindings).map (f, ·), events)

/-- `%safe-read-of-p`. -/
def safeReadOfP (init : Ast) (cur : Symbol) : Bool :=
  match init with
  | .call _ args =>
    symbolRefCount init cur = 1 &&
      args.zipIdx.any fun a => a.1.isRef cur && callArgReadP Γ init a.2
  | _ => false

def safeReadEvents (init : Ast) (cur : Symbol) : List Event :=
  if symbolRefCount init cur = 1 ∧ (callArgs init).any (Ast.isRef cur) then callArgReadEvents Γ init
  else []

/-- `%validate-read-tolerant-chain`. -/
def validateReadTolerantChain (cur : Symbol) :
    List (Symbol × Ast) → Option (Option (Symbol × List Bool) × List Event)
  | [] => some (some (cur, []), [])
  | (var, init) :: bs => do
    let r ← chain init cur
    if r.chain.isSome ∧ symbolRefCount init cur = 1 then
      let (result, events) ← validateReadTolerantChain var bs
      return (result.map fun x => (x.1, true :: x.2), r.events ++ events)
    else if symbolRefCount init cur = 0 then
      let (result, events) ← validateReadTolerantChain cur bs
      return (result.map fun x => (x.1, false :: x.2), r.events ++ events)
    else if safeReadOfP Γ init cur then
      let (result, events) ← validateReadTolerantChain cur bs
      return (result.map fun x => (x.1, false :: x.2),
        r.events ++ safeReadEvents Γ init cur ++ events)
    else return (none, r.events ++ safeReadEvents Γ init cur)

/-- The recur position that holds exactly the final alias, when it occurs nowhere
else in the recur. -/
def aliasPosition (args : List Ast) (final : Symbol) : Option Nat :=
  if symbolRefCount (.recur args) final = 1 then args.findIdx? (Ast.isRef final) else none

/-- The bindings and the recur arguments of the shape both bind chains have. -/
def bindChainShape (name : Symbol) (bindings : List (Pattern × Ast)) (body : List Ast) :
    Option (List (Symbol × Ast) × List Ast) :=
  match bindings, body with
  | b :: bs, [.recur args] => (symbolBindings name (b :: bs)).map (·, args)
  | _, _ => none

/-- `try-let-chain`: the synthesized recur. -/
def tryLetChain (name : Symbol) (bindings : List (Pattern × Ast)) (body : List Ast) :
    Option (Option Ast × List Event) :=
  match bindChainShape name bindings body with
  | none => some (none, [])
  | some (bs, args) => do
    let (folded, events) ← foldLetChain chain bs name
    return (folded.bind fun f => (aliasPosition args f.1).map fun p => .recur (args.set p f.2),
      events)

def totalRefCount (bs : List (Symbol × Ast)) (name : Symbol) : Nat :=
  bs.foldl (fun total b => total + symbolRefCount b.2 name) 0

/-- `try-read-tolerant-chain`, up to the walk of the other recur arguments: the recur
position of the final alias. -/
def tryReadTolerantChain (name : Symbol) (bindings : List (Pattern × Ast)) (body : List Ast) :
    Option (Option (List Ast × Nat) × List Event) :=
  match bindChainShape name bindings body with
  | none => some (none, [])
  | some (bs, args) =>
    if totalRefCount bs name = 1 then do
      let (result, events) ← validateReadTolerantChain Γ chain name bs
      return (result.bind fun x => (aliasPosition args x.1).map (args, ·), events)
    else some (none, [])

/-! ## §5 Uses -/

/-- The walk of a literal's element: a direct reference in tail position is an exit. -/
def walkElement (walk : Ctx → Ast → Option (List Event)) (name : Symbol) (c : Ctx) (el : Ast) :
    Option (List Event) :=
  if c.tailp ∧ el.isRef name = true then some [.use .exitInLiteral] else walk c.nontail el

/-- The use of NAME as argument `i` of a call. -/
def argUse (node : Ast) (c : Ctx) (i : Nat) : List Event :=
  if c.infn then [.use .captured]
  else if i = 0 then
    if transientReadableCallP Γ node then
      transientReadableEvents Γ node ++ noteReadOp node ++ [.use .readOk]
    else
      transientReadableEvents Γ node ++ callArgReadEvents Γ node ++
        [.use (if callArgReadP Γ node i then .read else .escapeCall)]
  else callArgReadEvents Γ node ++ [.use (if callArgReadP Γ node i then .read else .escapeCall)]

/-- The recur argument in NAME's own slot. -/
def walkRecurSlot (name : Symbol) (pos : Nat) (c : Ctx) (arg : Ast) : Option (List Event) := do
  let r ← chain arg name
  match r.chain with
  | some (.passthrough, _) => return r.events ++ [.use .recurPassthrough]
  | some (.update, others) =>
    let es ← gather (walk name pos c.nontail) others
    return r.events ++ .use .recurUpdate :: es
  | none =>
    let es ← walk name pos c.nontail arg
    return r.events ++ .use .recurReset :: es

/-- The recur arguments from position `i` on, of a recur that is the loop's own. -/
def walkRecurArgs (name : Symbol) (pos : Nat) (c : Ctx) : Nat → List Ast → Option (List Event)
  | _, [] => some []
  | i, arg :: args => do
    let es ← (if i = pos then walkRecurSlot chain walk name pos c arg
      else walk name pos c.nontail arg)
    let rest ← walkRecurArgs name pos c (i + 1) args
    return es ++ rest

/-- Argument `i` of a call. -/
def walkCallArg (node : Ast) (name : Symbol) (pos : Nat) (c : Ctx) (i : Nat) (arg : Ast) :
    Option (List Event) :=
  if arg.isRef name then some (argUse Γ node c i) else walk name pos c.nontail arg

/-- The arguments of a call from position `i` on. -/
def walkCallArgs (node : Ast) (name : Symbol) (pos : Nat) (c : Ctx) :
    Nat → List Ast → Option (List Event)
  | _, [] => some []
  | i, arg :: args => do
    let es ← walkCallArg Γ walk node name pos c i arg
    let rest ← walkCallArgs node name pos c (i + 1) args
    return es ++ rest

/-- The general treatment of a `bind`. -/
def walkBind (name : Symbol) (pos : Nat) (c : Ctx) (bindings : List (Pattern × Ast))
    (body : List Ast) : Option (List Event) := do
  let es ← gather (fun b => walk name pos c.nontail b.2) bindings
  if bindings.any (·.1.mentions.contains name) then return es ++ [.use .shadowedBind]
  else
    let rest ← walkLastTail (walk name pos) c body
    return es ++ rest

/-- The body of `walk` in `classify-loop-param`. -/
def walkStep (name : Symbol) (pos : Nat) (c : Ctx) (node : Ast) : Option (List Event) :=
  match node with
  | .literal _ => some []
  | .quote _ => some []
  | .symbolRef s =>
    if s = name then
      some [.use (if c.infn then .captured else if c.tailp then .exitBare else .otherFlow)]
    else some []
  | .recur args =>
    if c.recurp then do
      let es ← walkRecurArgs chain walk name pos c 0 args
      return (if c.complexp then [.use .recurInComplexContext] else []) ++ es
    else gather (walk name pos c.nontail) args
  | .ifNode test thn els => do
    let e₁ ← walk name pos c.nontail test
    let e₂ ← walk name pos c thn
    let e₃ ← walkLastTail (walk name pos) c els
    return e₁ ++ e₂ ++ e₃
  | .doNode body => walkLastTail (walk name pos) c body
  | .bind bindings body => do
    let (synth, e₁) ← tryLetChain chain name bindings body
    match synth with
    | some recurNode =>
      let es ← walk name pos c recurNode
      return e₁ ++ es
    | none =>
      let (tolerant, e₂) ← tryReadTolerantChain Γ chain name bindings body
      match tolerant with
      | some (args, p) =>
        let es ← gather (walk name pos c.nontail) (args.eraseIdx p)
        return e₁ ++ e₂ ++ .use .recurUpdate :: es
      | none =>
        let es ← walkBind walk name pos c bindings body
        return e₁ ++ e₂ ++ es
  | .case expr clauses => do
    let e₁ ← walk name pos c.nontail expr
    let e₂ ← gather (fun cl => walkLastTail (walk name pos) c cl.2) clauses
    return e₁ ++ e₂
  | .cond clauses =>
    gather (fun cl => do
      let e₁ ← walk name pos c.nontail cl.1
      let e₂ ← walkLastTail (walk name pos) c cl.2
      return e₁ ++ e₂) clauses
  | .loop bindings body => do
    let inits := bindings.flatMap fun b => if b.2.isRef name then [.use .nestedLoopInit] else []
    if bindings.any (·.1.mentions.contains name) then return inits
    else
      let es ← walkLastTail (walk name pos) { c with tailp := false, recurp := false } body
      return inits ++ es
  | .fn _ clauses =>
    gather (fun cl =>
      if cl.1.mentions.contains name then some []
      else walkLastTail (walk name pos) { c with tailp := false, infn := true, recurp := false }
        cl.2)
      clauses
  | .letfn bindings body => do
    let e₁ ← gather (fun b => gather (fun cl => gather
      (walk name pos { c with tailp := false, infn := true, recurp := false }) cl.2) b.2) bindings
    let e₂ ← walkLastTail (walk name pos) c body
    return e₁ ++ e₂
  | .threadFirst forms => do
    let r ← chain node name
    match c.tailp, r.chain with
    | true, some (.update, others) =>
      let es ← gather (walk name pos c.nontail) others
      return r.events ++ .use .exitUpdate :: es
    | true, some (.passthrough, _) => return r.events ++ [.use .exitBare]
    | _, _ =>
      let es ← gather (walk name pos c.nontail) forms
      return r.events ++ es
  | .vector elements => gather (walkElement (walk name pos) name c) elements
  | .set elements => gather (walkElement (walk name pos) name c) elements
  | .dict entries =>
    gather (fun e => do
      let e₁ ← walkElement (walk name pos) name c e.1
      let e₂ ← walkElement (walk name pos) name c e.2
      return e₁ ++ e₂) entries
  | .call op args => do
    let r ← chain node name
    match c.tailp, r.chain with
    | true, some (.update, others) =>
      let es ← gather (walk name pos c.nontail) others
      return r.events ++ .use .exitUpdate :: es
    | _, _ =>
      let e₁ ← walk name pos c.nontail op
      let e₂ ← walkCallArgs Γ walk node name pos c 0 args
      return r.events ++ e₁ ++ e₂
  | .other kids =>
      gather (fun k => walk name pos { c with tailp := false, complexp := true } k.2.2) kids

end Open

section Closed

variable (Γ : Env)

mutual

/-- `chain-kind`, with a fuel. -/
def chainKind : Nat → Ast → Symbol → Option ChainResult
  | 0 => fun _ _ => none
  | fuel + 1 => chainKindStep Γ (chainKind fuel) (walk fuel)

/-- `walk`, with a fuel. -/
def walk : Nat → Symbol → Nat → Ctx → Ast → Option (List Event)
  | 0 => fun _ _ _ _ => none
  | fuel + 1 => walkStep Γ (chainKind fuel) (walk fuel)

end

/-- `classify-loop-param`. -/
def classifyLoopParam (fuel : Nat) (name : Symbol) (pos : Nat) (body : List Ast) :
    Option (List Event) := classifyBody (walk Γ fuel) name pos body

end Closed

inductive Verdict where
  | qualified
  | notAccumulator
  | disqualified
deriving DecidableEq

/-- `+sanctioned-uses+`. -/
def sanctionedUses : List Use :=
  [.recurUpdate, .recurPassthrough, .exitBare, .exitUpdate, .exitInLiteral, .readOk]

/-- `param-verdict`. -/
def paramVerdict (uses : List Use) : Verdict :=
  if ¬ uses.contains .recurUpdate then .notAccumulator
  else if uses.all sanctionedUses.contains then .qualified
  else .disqualified

/-! ## §6 Helpers -/

section Helpers

variable (Γ : Env)

/-- `%tr-strip-docstring`. -/
def stripDocstring : List Ast → List Ast
  | .literal (.str _) :: n :: ns => n :: ns
  | body => body

/-- The environment after `remhash` or `(setf gethash)` on `*tr-inlinable-fns*`. -/
def Env.setInlinable (name : Symbol) (h : Option Helper) : Env :=
  { Γ with inlinableFns := fun s => if s = name then h else Γ.inlinableFns s }

/-- The positions of the parameters that qualify as an accumulator. -/
def candidates (fuel : Nat) (body : List Ast) : Nat → List Symbol → Option (List Nat)
  | _, [] => some []
  | i, p :: ps => do
    let (ok, _) ← reduceAccQualifiedP (walk Γ fuel) p body
    let rest ← candidates fuel body (i + 1) ps
    return if ok then i :: rest else rest

/-- The entry `maybe-register-inlinable-helper` makes, if any; the old one is gone. -/
def helperEntry (fuel : Nat) (clauses : List (Params × List Ast)) : Option (Option Helper) :=
  match clauses with
  | [(params, body)] =>
    match params.names.mapM id, stripDocstring body with
    | some (p :: ps), [expr] => do
      let found ← candidates Γ fuel [expr] 0 (p :: ps)
      match found with
      | [accPos] =>
        return some
          { params := p :: ps, body := expr, accPos := accPos
            accRefCount := symbolRefCount expr ((p :: ps).getD accPos p) }
      | _ => return none
    | _, _ => some none
  | _ => some none

/-- `maybe-register-inlinable-helper`. -/
def maybeRegisterInlinableHelper (fuel : Nat) (name : Symbol) (clauses : List (Params × List Ast)) :
    Option Env :=
  (helperEntry (Γ.setInlinable name none) fuel clauses).map (Γ.setInlinable name)

end Helpers

end Fol.Escape
