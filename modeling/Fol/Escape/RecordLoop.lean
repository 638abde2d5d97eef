/-
Fol.Escape.RecordLoop — scalar replacement of record accumulators in loops
(`maybe-scalar-replace-loop` of `compiler.lisp`).

A loop variable initialised with a record constructor becomes one variable a field. Where
the accumulator is rebuilt for `recur`, calls of the functions in `*sr-inlinable-fns*` are
expanded by their registered bodies. `throw` is the abort of an attempt; expanding a
recursive function does not end, so the rewriter runs on fuel. Beside its result it keeps
the names of the functions it has inlined and the accumulators it has unboxed.
-/
import Fol.Escape.IntraBind

namespace Fol.Escape

/-! ## §1 Accumulators -/

/-- `*sr-inlinable-fns*`: parameters and body expression. -/
abbrev InlinableFns := Symbol → Option (List Symbol × Ast)

/-- What `%sr-rewrite-body` is told about the accumulator. -/
structure RecordAcc where
  pname : Symbol
  pos : Nat
  fields : List (String × Symbol)
  ctorOp : Ast

namespace RecordAcc

variable (acc : RecordAcc)

/-- `fvar-for`. -/
def fvarFor (f : String × Symbol) : Symbol := scalarVar acc.pname f.2.name

/-- Is the symbol one of the scalar variables (`rassoc`)? -/
def isFvar (s : Symbol) : Bool := acc.fields.any fun f => acc.fvarFor f = s

/-- Is it a call of the accumulator's constructor, by name? -/
def isCtor (n : Ast) : Bool :=
  match n, acc.ctorOp with
  | .call (.symbolRef op) _, .symbolRef ctor => op.name = ctor.name
  | _, _ => false

end RecordAcc

/-- The fields of an inlined callee's record parameter that is not passed through. -/
abbrev Overrides := List (Symbol × Fields)

/-- The rewriter: it keeps what it has inlined, and may stop. -/
abbrev Expander := StateT (List Symbol) (Except Stop)

def failed {α : Type} : Expander α := throw Stop.thrown

/-- `aliasp`. -/
def srAliasP (aliases : List Symbol) : Ast → Bool
  | .symbolRef s => aliases.contains s
  | _ => false

/-- Keywords and values of `assoc`, if every key is a keyword that names a field. -/
def srUpdates (fields : List (String × Symbol)) : List Ast → Option Fields
  | [] => some []
  | .literal (.keyword k) :: v :: rest =>
    if (fields.lookup (srCanonKey k)).isSome then
      (srUpdates fields rest).map ((srCanonKey k, v) :: ·)
    else none
  | _ => none

/-- The arguments of a call of an operator with this name. -/
def namedArgs (name : String) : Ast → Option (List Ast)
  | .call (.symbolRef op) args => if op.name = name then some args else none
  | _ => none

/-- `assoc-alias-p`. -/
def srAssocAliasP (fields : List (String × Symbol)) (aliases : List Symbol) (a : Ast) : Bool :=
  match namedArgs "ASSOC" a with
  | some (x :: kvs) => srAliasP aliases x && (srUpdates fields kvs).isSome
  | _ => false

/-- `get-of-alias`: the alias and the key of a field read. -/
def srGetOfAlias (aliases : List Symbol) (a : Ast) : Option (Symbol × String) :=
  match namedArgs "GET" a with
  | some [.symbolRef s, .literal (.keyword k)] =>
    if aliases.contains s then some (s, srCanonKey k) else none
  | _ => none

/-! ## §2 Rewriting -/

section Rewriting

variable (acc : RecordAcc)

/-- `field-node`. -/
def fieldNode (overrides : Overrides) (aliased : Symbol) (f : String × Symbol) : Ast :=
  match overrides.lookup aliased with
  | some ov => (ov.lookup f.1).getD (.literal .nil)
  | none => .symbolRef (acc.fvarFor f)

/-- `rebox`. -/
def srRebox : Ast :=
  .call acc.ctorOp (acc.fields.flatMap fun f =>
    [.literal (.keyword f.1), .symbolRef (acc.fvarFor f)])

/-- `wrap-layers`; the outermost layer comes first. -/
def wrapLayers (inner : Ast) : List (List (Pattern × Ast)) → Ast
  | [] => inner
  | layer :: layers => .bind layer [wrapLayers inner layers]

/-- `rw-list`: the last form is in tail position if the list is. -/
def rwList (rw : Bool → Ast → Expander Ast) (tailp : Bool) : List Ast → Expander (List Ast)
  | [] => return []
  | n :: ns => return (← rw (tailp && ns.isEmpty) n) :: (← rwList rw tailp ns)

/-- The arguments of `recur` from number `i` on, and the wrappers of the accumulator. -/
def rwRecurArgs (expand : Ast → Expander (List Ast × List (List (Pattern × Ast))))
    (rw : Ast → Expander Ast) (pos : Nat) :
    Nat → List Ast → Expander (List Ast × List (List (Pattern × Ast)))
  | _, [] => return ([], [])
  | i, arg :: args =>
    if i = pos then do
      let (nodes, wrappers) ← expand arg
      let rest ← rwRecurArgs expand rw pos (i + 1) args
      return (nodes ++ rest.1, wrappers)
    else do
      let arg ← rw arg
      let rest ← rwRecurArgs expand rw pos (i + 1) args
      return (arg :: rest.1, rest.2)

/-- The parameters but the record's, bound to the rewritten arguments. -/
def paramLayer (rw : Ast → Expander Ast) (accIdx : Nat) :
    Nat → List (Symbol × Ast) → Expander (List (Pattern × Ast))
  | _, [] => return []
  | i, (p, a) :: rest =>
    if i = accIdx then paramLayer rw accIdx (i + 1) rest
    else return (.symbol p, ← rw a) :: (← paramLayer rw accIdx (i + 1) rest)

/-- The fields of a record argument, any but a variable or a literal pinned to a fresh
variable. -/
def pinFields (recordParam : Symbol) :
    List ((String × Symbol) × Ast) → Fields × List (Pattern × Ast)
  | [] => ([], [])
  | (f, v) :: rest =>
    let (now, fresh) := pinFields recordParam rest
    if v.isRefOrLiteral then ((f.1, v) :: now, fresh)
    else
      let s := scalarVar recordParam f.2.name
      ((f.1, .symbolRef s) :: now, (.symbol s, v) :: fresh)

/-- May the call stand for the accumulator when the function is inlined? The position of the
accumulator's argument, and whether it is passed through. -/
def inlineAccIdx (aliases params : List Symbol) (args : List Ast) : Option (Nat × Bool) :=
  let bare := args.countP (srAliasP aliases)
  let rebuilt := args.countP (srAssocAliasP acc.fields aliases)
  if params.length = args.length ∧ bare + rebuilt = 1 ∧
      args.all (fun a => a.isRefOrLiteral || srAssocAliasP acc.fields aliases a) then
    match args.findIdx? (srAliasP aliases) with
    | some i => some (i, true)
    | none => (args.findIdx? (srAssocAliasP acc.fields aliases)).map (·, false)
  else none

/-- The values of a branch: one a field, and no wrappers. -/
def unwrapped (values : List Ast × List (List (Pattern × Ast))) : Expander (List Ast) :=
  if values.2.isEmpty then return values.1 else failed

mutual

/-- `expand-acc`: one expression a field, and the binding layers around them. -/
def srExpandAcc (fns : InlinableFns) : Nat → List Symbol → List (List (Pattern × Ast)) →
    Overrides → Ast → Expander (List Ast × List (List (Pattern × Ast)))
  | 0, _, _, _, _ => throw Stop.outOfFuel
  | fuel + 1, aliases, wrappers, overrides, n =>
    let rw := srRewrite fns fuel aliases overrides false false
    match n with
    | .symbolRef s =>
      -- passed through
      if aliases.contains s then return (acc.fields.map (fieldNode acc overrides s), wrappers)
      else failed
    | .call _ args =>
      match n.operatorSymbol.bind fun f => (fns f).map (f, ·) with
      | some (f, params, fbody) => do
        -- a function that returns the record
        match inlineAccIdx acc aliases params args, params with
        | some (accIdx, bare), p₀ :: _ =>
          modify (f :: ·)
          let recordParam := params.getD accIdx p₀
          let layer ← paramLayer rw accIdx 0 (params.zip args)
          if acc.isFvar recordParam then failed
          else
            let (wrappers, overrides) ←
              if bare then pure (wrappers, overrides)
              else do
                let (inner, wrappers) ←
                  srExpandAcc fns fuel aliases wrappers overrides (args.getD accIdx n)
                let (now, fresh) := pinFields recordParam (acc.fields.zip inner)
                pure (if fresh.isEmpty then wrappers else wrappers ++ [fresh],
                  (recordParam, now) :: overrides)
            srExpandAcc fns fuel (recordParam :: aliases)
              (if layer.isEmpty then wrappers else wrappers ++ [layer]) overrides fbody
        | _, _ => failed
      | none =>
        if acc.isCtor n then do
          -- the constructor
          match srCtorFields args with
          | some cf =>
            if cf ≠ [] ∧ srFieldsMatch acc.fields cf then
              return (← acc.fields.mapM fun f => rw ((cf.lookup f.1).getD (.literal .nil)),
                wrappers)
            else failed
          | none => failed
        else
          match namedArgs "ASSOC" n with
          | some (.symbolRef base :: kvs) =>
            if aliases.contains base then
              match srUpdates acc.fields kvs with
              | some updates => do
                let nodes ← acc.fields.mapM fun f =>
                  match updates.lookup f.1 with
                  | some v => rw v
                  | none => return fieldNode acc overrides base f
                return (nodes, wrappers)
              | none => failed
            else failed
          | _ => failed
    | .bind bindings [body] => do
      let layer ← bindings.mapM fun b =>
        match b.1 with
        | .symbol s =>
          if acc.isFvar s || aliases.contains s then failed
          else do return (b.1, ← rw b.2)
        | .tree _ _ => failed
      srExpandAcc fns fuel aliases (wrappers ++ [layer]) overrides body
    | .doNode [body] => srExpandAcc fns fuel aliases wrappers overrides body
    | .ifNode test thn els => do
      let test ← rw test
      let thn ← unwrapped (← srExpandAcc fns fuel aliases wrappers overrides thn)
      let els ← unwrapped
        (← srExpandAcc fns fuel aliases wrappers overrides (els.headD (.symbolRef acc.pname)))
      return ((thn.zip els).map fun v => .ifNode test v.1 [v.2], wrappers)
    | .cond clauses => do
      let values ← clauses.mapM fun c => do
        unwrapped (← srExpandAcc fns fuel aliases wrappers overrides (c.2.headD (.literal .nil)))
      let nodes ← (List.range acc.fields.length).mapM fun i => do
        return .cond (← (values.zip clauses).mapM fun c =>
          return (← rw c.2.1, [c.1.getD i (.literal .nil)]))
      return (nodes, wrappers)
    | .case expr clauses => do
      let values ← clauses.mapM fun c => do
        unwrapped (← srExpandAcc fns fuel aliases wrappers overrides (c.2.headD (.literal .nil)))
      let nodes ← (List.range acc.fields.length).mapM fun i => do
        return .case (← rw expr)
          ((values.zip clauses).map fun c => (c.2.1, [c.1.getD i (.literal .nil)]))
      return (nodes, wrappers)
    | _ => failed

/-- `rw`. -/
def srRewrite (fns : InlinableFns) : Nat → List Symbol → Overrides → Bool → Bool → Ast →
    Expander Ast
  | 0, _, _, _, _, _ => throw Stop.outOfFuel
  | fuel + 1, aliases, overrides, nested, tailp, n =>
    let rw := srRewrite fns fuel aliases overrides nested
    let rebinds (bindings : List (Pattern × Ast)) : Bool :=
      bindings.any fun b => b.1.symbol?.any aliases.contains
    match n with
    | .symbolRef s =>
      if aliases.contains s then
        if tailp && !nested then return srRebox acc else failed
      else return n
    | .literal _ => return n
    | .quote _ => return n
    | .recur args =>
      if nested then return .recur (← args.mapM (rw false))
      else do
        let (args, wrappers) ←
          rwRecurArgs (srExpandAcc fns fuel aliases [] overrides) (rw false) acc.pos 0 args
        return wrapLayers (.recur args) wrappers
    | .loop bindings body =>
      if rebinds bindings then failed
      else do
        let bindings ← bindings.mapM fun b => return (b.1, ← rw false b.2)
        return .loop bindings (← rwList (srRewrite fns fuel aliases overrides true) true body)
    | .call op args =>
      match srGetOfAlias aliases n with
      | some (s, k) =>
        match acc.fields.find? (·.1 = k) with
        | some f => return fieldNode acc overrides s f
        | none => failed
      | none => return .call (← rw false op) (← args.mapM (rw false))
    | .ifNode test thn els =>
      return .ifNode (← rw false test) (← rw tailp thn) (← rwList rw tailp els)
    | .doNode body => return .doNode (← rwList rw tailp body)
    | .bind bindings body =>
      if rebinds bindings then failed
      else do
        let bindings ← bindings.mapM fun b => return (b.1, ← rw false b.2)
        return .bind bindings (← rwList rw tailp body)
    | .cond clauses =>
      return .cond (← clauses.mapM fun c => return (← rw false c.1, ← rwList rw tailp c.2))
    | .case expr clauses =>
      return .case (← rw false expr) (← clauses.mapM fun c => return (c.1, ← rwList rw tailp c.2))
    | n => if srRefsAliasP n aliases then failed else return n

end

end Rewriting

/-! ## §3 Loops -/

/-- An accumulator that has been unboxed, with its class and the body it was rewritten in. -/
structure Unboxing where
  type : Symbol
  acc : RecordAcc
  body : List Ast

/-- A loop after unboxing: the class names it assumes, and what has been inlined into it. -/
structure Unboxed where
  loop : List (Pattern × Ast) × List Ast
  assumptions : List String := []
  inlined : List Symbol := []
  unboxings : List Unboxing := []

section Loops

variable (info : TypeInfo) (fns : InlinableFns) (fuel : Nat)

/-- `%sr-try-accumulator`; `none` if the accumulator does not qualify. -/
def srTryAccumulator (bindings : List (Pattern × Ast)) (body : List Ast) (pname : Symbol)
    (pos : Nat) (init : Ast) : Except Stop (Option Unboxed) :=
  match recordInit info init with
  | none => return none
  | some (type, fields, ctorFields, op) =>
    let acc : RecordAcc := { pname, pos, fields, ctorOp := op }
    match (rwList (srRewrite acc fns fuel [pname] [] false) true body).run [] with
    | .error .thrown => return none
    | .error .outOfFuel => throw .outOfFuel
    | .ok (newBody, inlined) => return some {
        loop := (bindings.take pos ++ scalarBindings pname fields ctorFields ++
          bindings.drop (pos + 1), newBody)
        assumptions := [type.name]
        inlined
        unboxings := [{ type, acc, body }] }

/-- The bindings from number `i` on, tried in order. -/
def srReplaceFrom (bindings : List (Pattern × Ast)) (body : List Ast) :
    Nat → List (Pattern × Ast) → Except Stop (Option Unboxed)
  | _, [] => return none
  | i, (.symbol pname, init) :: rest => do
    match ← srTryAccumulator info fns fuel bindings body pname i init with
    | some out => return some out
    | none => srReplaceFrom bindings body (i + 1) rest
  | i, (.tree _ _, _) :: rest => srReplaceFrom bindings body (i + 1) rest

/-- `%sr-replace-one`. -/
def srReplaceOne (bindings : List (Pattern × Ast)) (body : List Ast) :
    Except Stop (Option Unboxed) :=
  srReplaceFrom info fns fuel bindings body 0 bindings

/-- The rounds of `maybe-scalar-replace-loop`. -/
def srRounds : Nat → Unboxed → Except Stop Unboxed
  | 0, current => return current
  | budget + 1, current => do
    match ← srReplaceOne info fns fuel current.loop.1 current.loop.2 with
    | none => return current
    | some next =>
      srRounds budget {
        loop := next.loop
        assumptions := current.assumptions ∪ next.assumptions
        inlined := next.inlined ++ current.inlined
        unboxings := next.unboxings ++ current.unboxings }

/-- `maybe-scalar-replace-loop`; `none` if nothing was unboxed. -/
def maybeScalarReplaceLoop (flags : Flags) (bindings : List (Pattern × Ast)) (body : List Ast) :
    Except Stop (Option Unboxed) := do
  if flags.scalarReplacement then
    let out ← srRounds info fns fuel 128 { loop := (bindings, body) }
    return if out.assumptions.isEmpty then none else some out
  else return none

end Loops

end Fol.Escape
