/-
Fol.Escape.IntraBind — intra-bind scalar replacement of `compiler.lisp`.

A `bind` whose variable is initialised with a record constructor, or with `{}`, is
rewritten so that the object is never built: the chain of `assoc` bindings that starts
there is kept as a table from aliases to field expressions. `throw` is the abort of the
whole attempt. What `rw` puts in place of `(get alias :key)` is rewritten again, so the
recursion is on fuel.
-/
import Fol.Escape.Infer

namespace Fol.Escape

/-! ## §1 Children -/

namespace Ast

/-- `node-children` of `escape-analysis.lisp`. -/
def children : Ast → List Ast
  | .literal _ => []
  | .symbolRef _ => []
  | .call op args => op :: args
  | .ifNode test thn els => test :: thn :: els
  | .doNode body => body
  | .bind bindings body => bindings.map (·.2) ++ body
  | .letfn bindings body => bindings.flatMap (fun f => f.2.flatMap (·.2)) ++ body
  | .fn _ clauses => clauses.flatMap (·.2)
  | .loop bindings body => bindings.map (·.2) ++ body
  | .recur args => args
  | .case expr clauses => expr :: clauses.flatMap (·.2)
  | .cond clauses => clauses.flatMap fun c => c.1 :: c.2
  | .threadFirst forms => forms
  | .vector elements => elements
  | .set elements => elements
  | .dict entries => entries.flatMap fun e => [e.1, e.2]
  | .quote _ => []
  | .other kids => kids.map (·.2.2)

/-- The bindings with new inits. -/
def rebind (bindings : List (Pattern × Ast)) (inits : List Ast) : List (Pattern × Ast) :=
  bindings.zipWith (fun b init => (b.1, init)) inits

/-- The clauses with their bodies taken off a list, clause by clause. -/
def reclause : List (Params × List Ast) → List Ast → List (Params × List Ast)
  | [], _ => []
  | (ps, body) :: cs, kids => (ps, kids.take body.length) :: reclause cs (kids.drop body.length)

/-- `remake-node-with-children`; the types without a method of their own are returned
as they are. -/
def remakeWithChildren (node : Ast) (kids : List Ast) : Ast :=
  match node, kids with
  | .call _ _, op :: args => .call op args
  | .ifNode _ _ _, test :: thn :: els => .ifNode test thn els
  | .doNode _, body => .doNode body
  | .bind bindings _, kids =>
    .bind (rebind bindings (kids.take bindings.length)) (kids.drop bindings.length)
  | .fn name clauses, kids => .fn name (reclause clauses kids)
  | .loop bindings _, kids =>
    .loop (rebind bindings (kids.take bindings.length)) (kids.drop bindings.length)
  | .recur _, args => .recur args
  | node, _ => node

/-- The types `rw` descends into. -/
def remakeable : Ast → Bool
  | .call _ _ | .ifNode _ _ _ | .doNode _ | .bind _ _ | .fn _ _ | .loop _ _ | .recur _ => true
  | _ => false

end Ast

/-! ## §2 Constructors -/

/-- `infer-type-from-constructor`. -/
def inferTypeFromConstructor : Ast → Option Symbol
  | .call (.symbolRef op) args =>
    if (op.name.take 5).toString.toUpper = "MAKE-" then
      some { name := (op.name.drop 5).toString, package := op.package }
    else if op.name.toUpper = "MAKE" then
      match args with
      | .quote name :: _ => name
      | _ => none
    else none
  | _ => none

/-- `*global-type-info*`: the slots of a class, by their keywords. -/
abbrev TypeInfo := Symbol → Option (List (String × Symbol))

/-- Fields and the expressions of their values; the first entry counts. -/
abbrev Fields := List (String × Ast)

/-- `%sr-canon-key`. -/
def srCanonKey (k : String) : String := k.toUpper

/-- `%sr-ctor-fields` on the arguments; `none` if they are not keywords and values. -/
def srCtorFields : List Ast → Option Fields
  | [] => some []
  | .literal (.keyword k) :: v :: rest => (srCtorFields rest).map ((srCanonKey k, v) :: ·)
  | _ => none

/-- `%sr-fields-match`. -/
def srFieldsMatch (fields : List (String × Symbol)) (ctorFields : Fields) : Bool :=
  fields.length = ctorFields.length && fields.all fun f => (ctorFields.lookup f.1).isSome

/-! ## §3 Chains -/

inductive Stop where
  /-- `(throw 'sr-intra-bind-fail nil)` -/
  | thrown
  | outOfFuel
deriving DecidableEq

/-- The rewriter: it notes the operators it has used, and may stop. -/
abbrev Rewriter := StateT (List String) (Except Stop)

/-- `aliases`: what is known of every alias, the newest first. -/
abbrev Aliases := List (Symbol × Fields)

/-- `note-op`. -/
def noteOp (op : String) : Rewriter Unit :=
  modify fun ops => if ops.contains op then ops else op :: ops

/-- `(get alias :key)` of a tracked alias. -/
def getTarget (aliases : Aliases) : Ast → Option (Symbol × String)
  | .call (.symbolRef op) [.symbolRef aliased, .literal (.keyword k)] =>
    if op.name = "GET" ∧ (aliases.lookup aliased).isSome then some (aliased, srCanonKey k) else none
  | _ => none

/-- `%sr-refs-alias-p`. -/
def srRefsAliasP (node : Ast) (names : List Symbol) : Bool := (symbolRefs node).any names.contains

/-- `rw`. -/
def srRw (aliases : Aliases) : Nat → Ast → Rewriter Ast
  | 0, _ => throw .outOfFuel
  | fuel + 1, n =>
    match getTarget aliases n with
    | some (aliased, key) =>
      match ((aliases.lookup aliased).getD []).lookup key with
      | some hit => do
        noteOp "GET"
        srRw aliases fuel hit
      | none => throw .thrown
    | none =>
      if n.remakeable then do
        return n.remakeWithChildren (← n.children.mapM (srRw aliases fuel))
      else if srRefsAliasP n (aliases.map (·.1)) then throw .thrown
      else return n

section

variable {aliases : Aliases} {fuel : Nat}

/-- A read of a field is replaced by the rewritten field expression. -/
theorem srRw_get {n hit : Ast} {aliased : Symbol} {key : String}
    (h : getTarget aliases n = some (aliased, key))
    (hhit : ((aliases.lookup aliased).getD []).lookup key = some hit) :
    srRw aliases (fuel + 1) n = noteOp "GET" >>= fun _ => srRw aliases fuel hit := by
  rw [srRw, h]
  simp only [hhit]

theorem srRw_symbolRef {s : Symbol} (h : s ∉ aliases.map (·.1)) :
    srRw aliases (fuel + 1) (.symbolRef s) = return .symbolRef s := by
  have hrefs : srRefsAliasP (.symbolRef s) (aliases.map (·.1)) = false := by
    simpa [srRefsAliasP, symbolRefs] using h
  simp [srRw, getTarget, Ast.remakeable, hrefs]

end

/-- `chain-assoc-target`: the alias, the key and the value. -/
def chainAssocTarget (fields : List (String × Symbol)) (dictP : Bool) (aliases : Aliases) :
    Ast → Option (Symbol × String × Ast)
  | .call (.symbolRef op) [.symbolRef aliased, .literal (.keyword k), val] =>
    if op.name = "ASSOC" ∧ (aliases.lookup aliased).isSome ∧
        (dictP ∨ (fields.lookup (srCanonKey k)).isSome) then
      some (aliased, srCanonKey k, val)
    else none
  | _ => none

/-- The fields of an alias after `assoc`. -/
def assocField (aliases : Aliases) (aliased : Symbol) (key : String) (val : Ast) : Fields :=
  (key, val) :: ((aliases.lookup aliased).getD []).filter (·.1 ≠ key)

/-- The scalar variable of a key. -/
def scalarVar (pname : Symbol) (key : String) : Symbol :=
  { name := pname.name ++ "_" ++ key, package := pname.package }

/-- `process-bindings`: the bindings that are kept, and the aliases after them. -/
def processBindings (pname : Symbol) (fields : List (String × Symbol)) (dictP : Bool) (fuel : Nat) :
    Aliases → List (Pattern × Ast) → Rewriter (List (Pattern × Ast) × Aliases)
  | aliases, [] => return ([], aliases)
  | aliases, (.symbol bname, init) :: bs =>
    match chainAssocTarget fields dictP aliases init with
    | some (aliased, key, val) => do
      noteOp "ASSOC"
      let newVal ← srRw aliases fuel val
      if dictP then
        let scalar := scalarVar pname key
        let fieldsNow := assocField aliases aliased key (.symbolRef scalar)
        let (rest, out) ← processBindings pname fields dictP fuel ((bname, fieldsNow) :: aliases) bs
        return ((.symbol scalar, newVal) :: rest, out)
      else
        let fieldsNow := assocField aliases aliased key newVal
        processBindings pname fields dictP fuel ((bname, fieldsNow) :: aliases) bs
    | none => do
      let init ← srRw aliases fuel init
      let (rest, out) ← processBindings pname fields dictP fuel aliases bs
      return ((.symbol bname, init) :: rest, out)
  | aliases, (.tree mentions binds, init) :: bs => do
    if srRefsAliasP init (aliases.map (·.1)) then throw .thrown
    let init ← srRw aliases fuel init
    let (rest, out) ← processBindings pname fields dictP fuel aliases bs
    return ((.tree mentions binds, init) :: rest, out)

/-- `rebox`: the object an alias stands for, built again. -/
def rebox (fields : List (String × Symbol)) (ctorOp : Ast) (dictP : Bool) (now : Fields) : Ast :=
  if dictP then .dict (now.map fun f => (.literal (.keyword f.1), f.2))
  else
    .call ctorOp (fields.flatMap fun f =>
      [.literal (.keyword f.1), (now.lookup f.1).getD (.literal .nil)])

/-- The fields of the alias a form is a bare reference to. -/
def bareAlias (aliases : Aliases) : Ast → Option Fields
  | .symbolRef s => aliases.lookup s
  | _ => none

/-- The body forms; a bare alias in the last place is built again. -/
def rewriteBody (fields : List (String × Symbol)) (ctorOp : Ast) (dictP : Bool) (fuel : Nat)
    (aliases : Aliases) : List Ast → Rewriter (List Ast)
  | [] => return []
  | [form] =>
    match bareAlias aliases form with
    | some now => return [rebox fields ctorOp dictP now]
    | none => return [← srRw aliases fuel form]
  | form :: forms => do
    let form ← srRw aliases fuel form
    return form :: (← rewriteBody fields ctorOp dictP fuel aliases forms)

structure Chain where
  bindings : List (Pattern × Ast)
  body : List Ast
  usedOps : List String

/-- What `catch` makes of a rewriter: `none` if it has thrown. -/
def caught {α : Type} (m : Rewriter α) : Except Stop (Option (α × List String)) :=
  match m.run [] with
  | .ok out => .ok (some out)
  | .error .thrown => .ok none
  | .error .outOfFuel => .error .outOfFuel

/-- `%sr-intra-bind-chain`; `none` if the attempt was aborted. -/
def srIntraBindChain (fuel : Nat) (pname : Symbol) (fields : List (String × Symbol))
    (ctorFields : Fields) (ctorOp : Ast) (dictP : Bool) (restBindings : List (Pattern × Ast))
    (body : List Ast) : Except Stop (Option Chain) := do
  let result ← caught do
    let (bindings, aliases) ←
      processBindings pname fields dictP fuel [(pname, ctorFields)] restBindings
    return (bindings, ← rewriteBody fields ctorOp dictP fuel aliases body)
  return result.map fun ((bindings, body), usedOps) => { bindings, body, usedOps }

/-! ## §4 Pass -/

/-- The flags of `escape-analysis.lisp`, and `*sealed-world*`. -/
structure Flags where
  transientLoops : Bool := false
  scalarReplacement : Bool := false
  dictScalarReplacement : Bool := false
  sealedWorld : Bool := false
deriving DecidableEq

/-- `(kind . used-ops)`. -/
abbrev TrustCheck := Kind × List String

/-- What the pass returns for a node (or a list of them). -/
structure Rewritten (α : Type) where
  node : α
  assumptions : List String := []
  trustChecks : List TrustCheck := []

/-- The bindings and the body after `scan-bindings`. -/
abbrev Scanned := Rewritten (List (Pattern × Ast) × List Ast)

/-- Keep a binding in front. -/
def Rewritten.keep (b : Pattern × Ast) (s : Scanned) : Scanned :=
  { s with node := (b :: s.node.1, s.node.2) }

/-- The class and the fields of a record constructor that can be replaced. -/
def recordInit (info : TypeInfo) (init : Ast) :
    Option (Symbol × List (String × Symbol) × Fields × Ast) :=
  match init with
  | .call op args => do
    let type ← inferTypeFromConstructor init
    let fields ← info type
    let ctorFields ← srCtorFields args
    if fields ≠ [] ∧ ctorFields ≠ [] ∧ srFieldsMatch fields ctorFields then
      some (type, fields, ctorFields, op)
    else none
  | _ => none

/-- The scalar bindings of a record, in the order of the class's slots. The variable is
named after the slot. -/
def scalarBindings (pname : Symbol) (fields : List (String × Symbol)) (ctorFields : Fields) :
    List (Pattern × Ast) :=
  fields.map fun f =>
    (.symbol (scalarVar pname f.2.name), (ctorFields.lookup f.1).getD (.literal .nil))

/-- `scan-bindings`. -/
def scanBindings (flags : Flags) (info : TypeInfo) (fuel : Nat) (body : List Ast) :
    List (Pattern × Ast) → Except Stop Scanned
  | [] => return { node := ([], body) }
  | (pattern, init) :: bs => do
    let failed := do
      let rest ← scanBindings flags info fuel body bs
      return rest.keep (pattern, init)
    match pattern with
    | .tree _ _ => failed
    | .symbol pname =>
      match if flags.scalarReplacement then recordInit info init else none with
      | some (type, fields, ctorFields, op) =>
        match ← srIntraBindChain fuel pname fields ctorFields op false bs body with
        | some ⟨bindings, form :: forms, _⟩ =>
          return {
            node := (scalarBindings pname fields ctorFields ++ bindings, form :: forms)
            assumptions := [type.name] }
        | _ => failed
      | none =>
        match init, flags.dictScalarReplacement with
        | .dict [], true =>
          match ← srIntraBindChain fuel pname [] [] (.literal .nil) true bs body with
          | some ⟨bindings, form :: forms, op :: ops⟩ =>
            return {
              node := (bindings, form :: forms)
              assumptions := op :: ops
              trustChecks := [(.collection .dict, op :: ops)] }
          | _ => failed
        | _, _ => failed

/-- What `visit-list` collects: what a later node assumes comes first. -/
def Rewritten.gather {α : Type} (out : List (Rewritten α)) : Rewritten (List α) where
  node := out.map (·.node)
  assumptions := (out.reverse.map (·.assumptions)).flatten
  trustChecks := (out.reverse.map (·.trustChecks)).flatten

/-- `visit-list`. -/
def srVisitList (visit : Ast → Except Stop (Rewritten Ast)) (ns : List Ast) :
    Except Stop (Rewritten (List Ast)) := return .gather (← ns.mapM visit)

/-- `visit` of `sr-intra-bind-pass`. -/
def srIntraBindVisit (flags : Flags) (info : TypeInfo) : Nat → Ast → Except Stop (Rewritten Ast)
  | 0, _ => throw .outOfFuel
  | fuel + 1, n => do
    let viaChildren := do
      let kids ← srVisitList (srIntraBindVisit flags info fuel) n.children
      return { kids with node := n.remakeWithChildren kids.node }
    match n with
    | .bind bindings body =>
      let scanned ← scanBindings flags info fuel body bindings
      if scanned.assumptions.isEmpty then viaChildren
      else
        let inner ← srVisitList (srIntraBindVisit flags info fuel) scanned.node.2
        return {
          node := .bind scanned.node.1 inner.node
          assumptions := scanned.assumptions ++ inner.assumptions
          trustChecks := scanned.trustChecks ++ inner.trustChecks }
    | _ => viaChildren

end Fol.Escape
