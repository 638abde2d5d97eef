/-
Fol.Escape.Infer — Tier-2 inference of `escape-analysis.lisp`: the summary of a
single-clause function from its body.

One pass walks the body and joins, for every parameter, the effects of its direct uses: a
reference in tail position, an argument of a call, a capture by a closure. Freshness is
judged on the tail expression alone. A named function without `recur` is walked again
under the summary found so far until it no longer changes, five times at most.
-/
import Fol.Escape.SummaryJoin

namespace Fol.Escape

/-! ## §1 Walk -/

/-- A direct use of a variable: in tail position, as an argument (of a call with this
operator symbol, and whether a keyword is the operator), in a closure. -/
inductive ParamUse where
  | returned
  | passed (operator : Option Symbol) (kw : Bool) (index : Nat)
  | captured
deriving DecidableEq

/-- What the walk meets: a use of a variable, or a call of a named operator. -/
inductive Seen where
  | use (name : Symbol) (u : ParamUse)
  | called (operator : Symbol)
deriving DecidableEq

mutual

/-- The `walk` of `%infer-summary-single-pass`. -/
def inferWalk (tailp : Bool) : Ast → List Seen
  | .symbolRef name => if tailp then [.use name .returned] else []
  | .call op args =>
    let node := Ast.call op args
    (node.operatorSymbol.map Seen.called).toList ++ inferWalk false op ++
      inferWalkArgs node.operatorSymbol node.keywordOperatorP 0 args
  | .ifNode test thn els => inferWalk false test ++ inferWalk tailp thn ++ inferWalkAll tailp els
  | .doNode body => inferWalkBody tailp body
  | .bind bindings body => inferWalkInits bindings ++ inferWalkBody tailp body
  | .fn name clauses => (symbolRefs (.fn name clauses)).map fun s => .use s .captured
  -- the default: every child, not in tail position
  | .literal _ => []
  | .letfn bindings body => inferWalkFns bindings ++ inferWalkAll false body
  | .loop bindings body => inferWalkInits bindings ++ inferWalkAll false body
  | .recur args => inferWalkAll false args
  | .case expr clauses => inferWalk false expr ++ inferWalkCases clauses
  | .cond clauses => inferWalkConds clauses
  | .threadFirst forms => inferWalkAll false forms
  | .vector elements => inferWalkAll false elements
  | .set elements => inferWalkAll false elements
  | .dict entries => inferWalkEntries entries
  | .quote _ => []
  | .other kids => inferWalkKids kids

def inferWalkAll (tailp : Bool) : List Ast → List Seen
  | [] => []
  | n :: ns => inferWalk tailp n ++ inferWalkAll tailp ns

/-- The forms of a body: the last is in tail position if the body is. -/
def inferWalkBody (tailp : Bool) : List Ast → List Seen
  | [] => []
  | n :: ns => inferWalk (tailp && ns.isEmpty) n ++ inferWalkBody tailp ns

/-- The arguments from number `i`; a bare variable is a use, anything else is walked. -/
def inferWalkArgs (operator : Option Symbol) (kw : Bool) (i : Nat) : List Ast → List Seen
  | [] => []
  | .symbolRef name :: args =>
    .use name (.passed operator kw i) :: inferWalkArgs operator kw (i + 1) args
  | arg :: args => inferWalk false arg ++ inferWalkArgs operator kw (i + 1) args

def inferWalkInits : List (Pattern × Ast) → List Seen
  | [] => []
  | (_, init) :: bs => inferWalk false init ++ inferWalkInits bs

def inferWalkClauses : List (Params × List Ast) → List Seen
  | [] => []
  | (_, body) :: cs => inferWalkAll false body ++ inferWalkClauses cs

def inferWalkFns : List (Symbol × List (Params × List Ast)) → List Seen
  | [] => []
  | (_, clauses) :: fs => inferWalkClauses clauses ++ inferWalkFns fs

def inferWalkCases : List (List Literal × List Ast) → List Seen
  | [] => []
  | (_, body) :: cs => inferWalkAll false body ++ inferWalkCases cs

def inferWalkConds : List (Ast × List Ast) → List Seen
  | [] => []
  | (test, body) :: cs => inferWalk false test ++ inferWalkAll false body ++ inferWalkConds cs

def inferWalkEntries : List (Ast × Ast) → List Seen
  | [] => []
  | (k, v) :: es => inferWalk false k ++ inferWalk false v ++ inferWalkEntries es

def inferWalkKids : List (Bool × List Symbol × Ast) → List Seen
  | [] => []
  | (_, _, n) :: ks => inferWalk false n ++ inferWalkKids ks

end

/-- `+barrier-names+`. -/
def barrierNames : List String := ["EVAL", "COMPILE-FORM", "COMPILE-STRING", "RUN-FOL-STRING"]

/-- The effect the walk gives a parameter for a use. -/
def ParamUse.effect (Γ : Env) : ParamUse → Effect
  | .returned => .sharedWithResult
  | .passed operator kw index =>
    if kw && index == 0 then .none
    else
      match operator.bind Γ.lookupSummary with
      | some summary => effectForArg summary index
      | none => .retained
  | .captured => .retained

/-! ## §2 Freshness -/

/-- `%quoted-symbol-value`; of the literals only keywords name anything here. -/
def quotedSymbolValue : Ast → Option Symbol
  | .quote name => name
  | .literal (.keyword k) => some { name := k, package := keywordPackage }
  | _ => none

/-- `%tier2-constructor-class`. -/
def tier2ConstructorClass (Γ : Env) (node : Ast) : Option Symbol :=
  match node with
  | .call (.symbolRef op) args =>
    let class? :=
      if (op.name.take 5).toString.toUpper = "MAKE-" then
        some { name := (op.name.drop 5).toString, package := op.package }
      else if op.name.toUpper = "MAKE" ∧ args.length = 1 then args.head?.bind quotedSymbolValue
      else none
    class?.filter Γ.persistentClass
  | _ => none

/-- `%init-call-summary`. -/
def initCallSummary (Γ : Env) (node : Ast) : Option EscapeSummary :=
  node.operatorSymbol.bind Γ.lookupSummary

/-- `local-fresh-env`: for a local its freshness and the classes that depends on. -/
abbrev FreshEnv := List (Symbol × (Bool × List Symbol))

mutual

/-- `%fresh-tail-value-p`. -/
@[grind =] def freshTailValueP (Γ : Env) (params : List (Option Symbol)) (env : FreshEnv) :
    Ast → Bool × List Symbol
  | .vector _ => (true, [])
  | .dict _ => (true, [])
  | .set _ => (true, [])
  | .literal _ => (true, [])
  | .quote _ => (true, [])
  | .symbolRef name =>
    if params.contains (some name) then (false, []) else (env.lookup name).getD (false, [])
  | .call op args =>
    match tier2ConstructorClass Γ (.call op args) with
    | some c => (false, [c])
    | none =>
      match initCallSummary Γ (.call op args) with
      | some summary => (summary.returnsFresh, summary.freshIfClassesTrusted)
      | none => (false, [])
  | .ifNode _ thn els =>
    let t := freshTailValueP Γ params env thn
    let e := freshElse Γ params env els
    (t.1 && e.1, t.2 ∪ e.2)
  | .doNode body => freshLast Γ params env body
  | .bind bindings body => freshLast Γ params (freshBindings Γ params env bindings) body
  | _ => (false, [])

/-- The `else` forms of an `if`, every one of them. -/
def freshElse (Γ : Env) (params : List (Option Symbol)) (env : FreshEnv) :
    List Ast → Bool × List Symbol
  | [] => (true, [])
  | n :: ns =>
    let f := freshTailValueP Γ params env n
    let rest := freshElse Γ params env ns
    (f.1 && rest.1, f.2 ∪ rest.2)

/-- The last form of a body. -/
def freshLast (Γ : Env) (params : List (Option Symbol)) (env : FreshEnv) :
    List Ast → Bool × List Symbol
  | [] => (true, [])
  | [n] => freshTailValueP Γ params env n
  | _ :: ns => freshLast Γ params env ns

/-- The environment after the bindings of a `bind`; only a binding of a symbol enters it. -/
def freshBindings (Γ : Env) (params : List (Option Symbol)) (env : FreshEnv) :
    List (Pattern × Ast) → FreshEnv
  | [] => env
  | (.symbol x, init) :: bs =>
    freshBindings Γ params ((x, freshTailValueP Γ params env init) :: env) bs
  | (.tree _ _, _) :: bs => freshBindings Γ params env bs

end

/-- `%infer-returns-kind`. -/
def inferReturnsKind (body : List Ast) : Option Collection :=
  match body.getLast? with
  | some (.dict _) => some .dict
  | some (.vector _) => some .vector
  | some (.set _) => some .set
  | some (.call op args) =>
    (Ast.call op args).operatorSymbol.bind fun s =>
      if s.name = "DICT" then some .dict
      else if s.name = "VECTOR" then some .vector
      else if s.name = "SET" then some .set
      else none
  | _ => none

/-! ## §3 Inference -/

/-- `param-index`. -/
def paramIndex (params : List (Option Symbol)) (name : Symbol) : Option Nat :=
  params.findIdx? (· == some name)

/-- The uses of the parameter with this index. -/
def usesAt (params : List (Option Symbol)) (seen : List Seen) (index : Nat) : List ParamUse :=
  seen.filterMap fun
    | .use name u => if paramIndex params name = some index then some u else none
    | .called _ => none

/-- `%infer-summary-single-pass` on a function of one clause. -/
def inferSummarySinglePass (Γ : Env) (params : Params) (body : List Ast) : EscapeSummary :=
  let seen := inferWalkBody true body
  let fresh := freshLast Γ params.names [] body
  { paramEffects := (List.range params.names.length).map fun i =>
      (usesAt params.names seen i).foldl (fun e u => effectJoin e (u.effect Γ)) .none
    restEffect := none
    returnsFresh := fresh.1
    freshIfClassesTrusted := fresh.2
    returnsKind := inferReturnsKind body
    barrier := seen.any fun
      | .called op => barrierNames.contains op.name
      | .use _ _ => false }

/-- `*inferred-summaries*` with a summary put in for a function. -/
def Env.assume (Γ : Env) (name : Symbol) (summary : EscapeSummary) : Env :=
  { Γ with inferred := fun s => if s = name then some summary else Γ.inferred s }

/-- The rounds of `infer-summary`, `none` if they run out. -/
def inferRounds (Γ : Env) (name : Symbol) (params : Params) (body : List Ast) :
    Nat → EscapeSummary → Option EscapeSummary
  | 0, _ => none
  | rounds + 1, current =>
    let next := inferSummarySinglePass (Γ.assume name current) params body
    let joined := EscapeSummary.summaryJoin current next
    if EscapeSummary.summaryLe joined current then some joined
    else inferRounds Γ name params body rounds joined

/-- The summary the rounds start from: nothing escapes, the result is fresh. -/
def optimisticSummary (params : Params) (body : List Ast) : EscapeSummary :=
  { paramEffects := List.replicate params.names.length .none, returnsFresh := true
    returnsKind := inferReturnsKind body }

/-- The summary of a function whose rounds run out. -/
def conservativeSummary (params : Params) (body : List Ast) : EscapeSummary :=
  { paramEffects := List.replicate params.names.length .retained
    returnsKind := inferReturnsKind body }

/-- `infer-summary` on a function of one clause. -/
def inferSummary (Γ : Env) (name : Option Symbol) (params : Params) (body : List Ast) :
    EscapeSummary :=
  match name with
  | none => inferSummarySinglePass Γ params body
  | some f =>
    if containsRecur (.fn name [(params, body)]) then inferSummarySinglePass Γ params body
    else
      (inferRounds Γ f params body 5 (optimisticSummary params body)).getD
        (conservativeSummary params body)

end Fol.Escape
