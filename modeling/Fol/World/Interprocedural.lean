/-
Fol.World.Interprocedural — the class facts of `interprocedural-types.lisp`: what every
call of a function passes for a parameter, and what a function returns.

The rounds join evidence into two tables until a round changes nothing, eight rounds at
most. Evidence is `pending` while the function it comes from has none itself; joining
pending evidence leaves the table as it is.
-/
import Fol.World.CompileForm

namespace Fol.Interprocedural

open Fol.Escape Fol.CompileForm

/-! ## §1 Units -/

/-- `%ip-fn-info`. -/
structure FnInfo where
  name : Symbol
  params : List Symbol
  /-- The single expression of the body, if it is one. -/
  tailNode : Option Ast

abbrev FnTable := List FnInfo

/-- `(gethash name fn-table)`. -/
def FnTable.find (table : FnTable) (name : Symbol) : Option FnInfo :=
  List.find? (fun info => info.name = name) table

/-- `(setf (gethash name fn-table) info)`; a new name comes last. -/
def FnTable.put (info : FnInfo) : FnTable → FnTable
  | [] => [info]
  | old :: rest => if old.name = info.name then info :: rest else old :: FnTable.put info rest

/-- The parameters of a clause if they are all symbols. -/
def flatParams (params : Params) : Option (List Symbol) := params.names.mapM id

/-- The entry `%ip-register` makes, if any. -/
def fnInfo? (name : Symbol) : Clauses → Option FnInfo
  | [(params, body)] =>
    (flatParams params).map fun params =>
      { name, params
        tailNode := match stripDocstring body with
          | [n] => some n
          | _ => none }
  | _ => none

mutual

/-- The `visit` of `%ip-collect`. -/
def ipCollect (table : FnTable) : TopLevel → FnTable
  | .function _ name clauses =>
    match fnInfo? name clauses with
    | some info => table.put info
    | none => table
  | .doNode body => ipCollectAll table body
  | _ => table

/-- `%ip-collect`. -/
def ipCollectAll (table : FnTable) : List TopLevel → FnTable
  | [] => table
  | n :: ns => ipCollectAll (ipCollect table n) ns

end

/-! ## §2 Scans -/

/-- The context of an expression: the name of the function it is in, and its parameters. -/
structure IpContext where
  owner : Option Symbol
  params : List Symbol

/-- What the scan meets: an exact-arity call of a tracked function, or another reference to
one. -/
inductive ScanEvent where
  | call (callee : FnInfo) (args : List Ast) (ctx : Option IpContext)
  | ref (name : Symbol)

section Scan

variable (table : FnTable)

/-- What a call of an operator counts for. -/
def callEvent (op : Symbol) (args : List Ast) (ctx : Option IpContext) : List ScanEvent :=
  match table.find op with
  | some callee => if args.length = callee.params.length then [.call callee args ctx] else []
  | none => []

mutual

/-- `%ip-scan-node`. -/
def ipScanNode (ctx : Option IpContext) : Ast → List ScanEvent
  | .call (.symbolRef op) args => callEvent table op args ctx ++ ipScanAll ctx args
  | .call op args => ipScanNode ctx op ++ ipScanAll ctx args
  | .symbolRef s => if (table.find s).isSome then [.ref s] else []
  | .doNode body => ipScanAll ctx body
  | .literal _ => []
  | .ifNode test thn els => ipScanNode ctx test ++ ipScanNode ctx thn ++ ipScanAll ctx els
  | .bind bindings body => ipScanBindings ctx bindings ++ ipScanAll ctx body
  | .letfn bindings body => ipScanFns ctx bindings ++ ipScanAll ctx body
  | .fn _ clauses => ipScanClauses ctx clauses
  | .loop bindings body => ipScanBindings ctx bindings ++ ipScanAll ctx body
  | .recur args => ipScanAll ctx args
  | .case expr clauses => ipScanNode ctx expr ++ ipScanCases ctx clauses
  | .cond clauses => ipScanConds ctx clauses
  | .threadFirst forms => ipScanAll ctx forms
  | .vector elements => ipScanAll ctx elements
  | .set elements => ipScanAll ctx elements
  | .dict entries => ipScanEntries ctx entries
  | .quote _ => []
  | .other kids => ipScanKids ctx kids

def ipScanAll (ctx : Option IpContext) : List Ast → List ScanEvent
  | [] => []
  | n :: ns => ipScanNode ctx n ++ ipScanAll ctx ns

def ipScanBindings (ctx : Option IpContext) : List (Pattern × Ast) → List ScanEvent
  | [] => []
  | (_, init) :: bs => ipScanNode ctx init ++ ipScanBindings ctx bs

def ipScanClauses (ctx : Option IpContext) : List (Params × List Ast) → List ScanEvent
  | [] => []
  | (_, body) :: cs => ipScanAll ctx body ++ ipScanClauses ctx cs

def ipScanFns (ctx : Option IpContext) : List (Symbol × List (Params × List Ast)) → List ScanEvent
  | [] => []
  | (_, clauses) :: fs => ipScanClauses ctx clauses ++ ipScanFns ctx fs

def ipScanCases (ctx : Option IpContext) : List (List Literal × List Ast) → List ScanEvent
  | [] => []
  | (_, body) :: cs => ipScanAll ctx body ++ ipScanCases ctx cs

def ipScanConds (ctx : Option IpContext) : List (Ast × List Ast) → List ScanEvent
  | [] => []
  | (test, body) :: cs => ipScanNode ctx test ++ ipScanAll ctx body ++ ipScanConds ctx cs

def ipScanEntries (ctx : Option IpContext) : List (Ast × Ast) → List ScanEvent
  | [] => []
  | (k, v) :: es => ipScanNode ctx k ++ ipScanNode ctx v ++ ipScanEntries ctx es

def ipScanKids (ctx : Option IpContext) : List (Bool × List Symbol × Ast) → List ScanEvent
  | [] => []
  | (_, _, n) :: ks => ipScanNode ctx n ++ ipScanKids ctx ks

end

/-- `%ip-scan-defn`. The context names no owner. -/
def ipScanDefn (clauses : Clauses) : List ScanEvent :=
  clauses.flatMap fun c =>
    ipScanAll table ((flatParams c.1).map fun params => { owner := none, params })
      (stripDocstring c.2)

mutual

/-- `%ip-scan-node` on a top-level form. -/
def ipScanForm : TopLevel → List ScanEvent
  | .function _ _ clauses => ipScanDefn table clauses
  | .defmethod _ clauses => clauses.flatMap fun c => ipScanAll table none c.2
  | .defgeneric _ _ => []
  | .defVar _ value => ipScanAll table none value.toList
  | .doNode body => ipScanForms body
  | .expression node => ipScanNode table none node

def ipScanForms : List TopLevel → List ScanEvent
  | [] => []
  | n :: ns => ipScanForm n ++ ipScanForms ns

end

end Scan

/-! ## §3 Evidence -/

/-- A table value. -/
inductive Fact where
  | bottom
  | cls (c : Symbol)
  | conflict
deriving DecidableEq

inductive Evidence where
  | pending
  | cls (c : Symbol)
  | conflict
deriving DecidableEq

/-- `%ip-join-evidence`. -/
def ipJoinEvidence (current : Fact) (evidence : Evidence) : Fact :=
  match evidence, current with
  | .pending, current => current
  | _, .conflict => .conflict
  | .conflict, _ => .conflict
  | .cls c, .bottom => .cls c
  | .cls c, .cls d => if d = c then .cls d else .conflict

/-- What a table value is as evidence. -/
def Fact.evidence : Fact → Evidence
  | .bottom => .pending
  | .cls c => .cls c
  | .conflict => .conflict

/-- `*inferred-param-types*` and `*inferred-returns-class*`. -/
structure Tables where
  params : Symbol → List Fact := fun _ => []
  returns : Symbol → Fact := fun _ => .bottom

namespace Tables

variable (tables : Tables)

def setParam (f : Symbol) (i : Nat) (fact : Fact) : Tables :=
  { tables with params := fun s => if s = f then (tables.params f).set i fact else tables.params s }

def setReturns (f : Symbol) (fact : Fact) : Tables :=
  { tables with returns := fun s => if s = f then fact else tables.returns s }

end Tables

/-- `%ip-arg-expr-type`. -/
def ipArgExprType (table : FnTable) (tables : Tables) (ctx : Option IpContext) (node : Ast) :
    Evidence :=
  match inferTypeFromConstructor node with
  | some c => .cls c
  | none =>
    match node with
    | .call (.symbolRef f) _ =>
      if (table.find f).isSome then (tables.returns f).evidence else .conflict
    | .symbolRef s =>
      match ctx with
      | some { owner := some f, params } =>
        match params.findIdx? (· = s) with
        | some i => ((tables.params f)[i]?.map Fact.evidence).getD .conflict
        | none => .conflict
      | _ => .conflict
    | _ => .conflict

/-! ## §4 Rounds -/

section Rounds

variable (table : FnTable)

/-- One argument joined into the parameter table. -/
def joinArg (callee : Symbol) (ctx : Option IpContext) (tables : Tables) (i : Nat) (arg : Ast) :
    Tables :=
  match (tables.params callee)[i]? with
  | some old => tables.setParam callee i (ipJoinEvidence old (ipArgExprType table tables ctx arg))
  | none => tables

/-- The arguments of a call from number `i` on. -/
def joinArgs (callee : Symbol) (ctx : Option IpContext) (tables : Tables) : Nat → List Ast → Tables
  | _, [] => tables
  | i, arg :: args => joinArgs callee ctx (joinArg table callee ctx tables i arg) (i + 1) args

/-- What a round does for a scan event (`on-call`). -/
def joinEvent (tables : Tables) : ScanEvent → Tables
  | .call callee args ctx => joinArgs table callee.name ctx tables 0 args
  | .ref _ => tables

/-- The tail expression of a function joined into the table of results. -/
def joinTail (tables : Tables) (info : FnInfo) : Tables :=
  match info.tailNode with
  | none => tables
  | some tail =>
    let ctx := some { owner := some info.name, params := info.params }
    tables.setReturns info.name
      (ipJoinEvidence (tables.returns info.name) (ipArgExprType table tables ctx tail))

/-- A function that is referenced other than by a call: nothing is known of it. -/
def guardIndirect (events : List ScanEvent) (tables : Tables) (info : FnInfo) : Tables :=
  if events.any fun | .ref s => s = info.name | .call .. => false then
    { params := fun s =>
        if s = info.name then (tables.params s).map fun _ => .conflict else tables.params s
      returns := fun s => if s = info.name then .conflict else tables.returns s }
  else tables

/-- One round. -/
def ipRound (events : List ScanEvent) (tables : Tables) : Tables :=
  let tables := events.foldl (joinEvent table) tables
  let tables := List.foldl (joinTail table) tables table
  List.foldl (guardIndirect events) tables table

/-- Does the round change nothing? -/
def settled (before after : Tables) : Bool :=
  List.all table fun info =>
    before.params info.name = after.params info.name && before.returns info.name =
      after.returns info.name

/-- The rounds; the last one has changed nothing, or was the last allowed. -/
def ipRounds (events : List ScanEvent) : Nat → Tables → Tables
  | 0, tables => tables
  | rounds + 1, tables =>
    let next := ipRound table events tables
    if settled table tables next then next else ipRounds events rounds next

/-- The tables before the first round. -/
def ipStart : Tables where
  params s := match table.find s with
    | some info => info.params.map fun _ => .bottom
    | none => []

end Rounds

/-- A fact as the consumers see it. -/
def Fact.class? : Fact → Option Symbol
  | .cls c => some c
  | _ => none

/-- `*ip-max-iterations*`. -/
def ipMaxIterations : Nat := 8

/-- What the consumers look up. -/
structure ClassFacts where
  params : Symbol → List (Option Symbol) := fun _ => []
  returns : Symbol → Option Symbol := fun _ => none

/-- `infer-interprocedural-types`. -/
def inferInterproceduralTypes (asts : List TopLevel) : ClassFacts :=
  let table := ipCollectAll [] asts
  let tables := ipRounds table (ipScanForms table asts) ipMaxIterations (ipStart table)
  { params := fun f => (tables.params f).map Fact.class?
    returns := fun f => (tables.returns f).class? }

/-- `*current-defn-name*` and the parameters of `*current-defn-param-index*`. -/
abbrev CurrentDefn := Option (Symbol × List Symbol)

/-- `infer-type-from-expr`. -/
def inferTypeFromExpr (facts : ClassFacts) (current : CurrentDefn) (node : Ast) : Option Symbol :=
  match inferTypeFromConstructor node with
  | some c => some c
  | none =>
    match node with
    | .call (.symbolRef f) _ => facts.returns f
    | .symbolRef s => do
      let (f, params) ← current
      let i ← params.findIdx? (· = s)
      (← (facts.params f)[i]?)
    | _ => none

end Fol.Interprocedural
