/-
Fol.Emit.Names — how the emitted code names things: the tables `compiler.lisp` keeps of
local names, the forms it chooses by them, and what CL takes these forms to mean.

A scope is the stack of binders of the emitted code around a node, innermost first, with the
heads of its lambdas; a binder is identified by the number of entries under it. A lambda
head carries the names of `*extra-special-vars*` that its `(declare (special …))` lists, as
far as they are threading steps: the other names pushed have no local binding where they are
pushed, so the declaration says nothing new about them. `loop-counter` is a parameter. The
rewritings that come before emission are left out, and with them what `*package*` does
between forms.
-/
import Fol.Escape.Ast

namespace Fol.Names

open Fol.Escape

/-! ## §1 Scopes -/

/-- A variable is written in the source or put there by the emitter; CL may have made its
binding special. A function is one of a `letfn` or the name of a `fn`. -/
inductive Entry where
  | variable (name : Symbol) (written special : Bool)
  | function (name : Symbol) (letfn : Bool)
  | lambda (specials : List Symbol)
deriving DecidableEq

abbrev Scope := List Entry

/-- The entry is a binder of the source. -/
def Entry.binds (s : Symbol) : Entry → Bool
  | .variable name written _ => name = s && written
  | .function name _ => name = s
  | .lambda _ => false

def Entry.isVariable (s : Symbol) : Entry → Bool
  | .variable name _ _ => name = s
  | _ => false

def Entry.isLetfn (s : Symbol) : Entry → Bool
  | .function name letfn => name = s && letfn
  | _ => false

def Entry.isLambda : Entry → Bool
  | .lambda _ => true
  | _ => false

/-- The head of a lambda that declares the name special. -/
def Entry.declares (s : Symbol) : Entry → Bool
  | .lambda specials => specials.contains s
  | _ => false

/-- The innermost binder of the source. -/
def folBinder (s : Symbol) : Scope → Option Nat
  | [] => none
  | e :: es => if e.binds s then some es.length else folBinder s es

inductive GlobalKind where
  | function
  | variable
deriving DecidableEq

/-- What CL takes a form for: a binder, a dynamic binding, or a global definition. -/
inductive Target where
  | binder (depth : Nat)
  | dynamic
  | global (kind : GlobalKind) (name : Symbol)
deriving DecidableEq

/-- The value of a special variable. -/
def specialValue (dynamic : List Symbol) (s : Symbol) : Target :=
  if s ∈ dynamic then .dynamic else .global .variable s

/-- The variable a bare symbol names. A special binding belongs to the call that made it: a
closure does not capture it. -/
def clVariable (dynamic : List Symbol) (s : Symbol) (crossed : Bool) : Scope → Target
  | [] => specialValue dynamic s
  | .variable name _ special :: es =>
    if name = s then (if special && crossed then .dynamic else .binder es.length)
    else clVariable dynamic s crossed es
  | .function _ _ :: es => clVariable dynamic s crossed es
  | .lambda specials :: es =>
    if s ∈ specials then specialValue dynamic s else clVariable dynamic s true es

/-- The function a symbol names in operator position or under `cl:function`. -/
def clFunction (s : Symbol) : Scope → Target
  | [] => .global .function s
  | .function name _ :: es => if name = s then .binder es.length else clFunction s es
  | _ :: es => clFunction s es

/-! ## §2 Worlds -/

/-- What does not change while a program is compiled. -/
structure Setting where
  constant : Symbol → Bool
  standard : Symbol → Bool
  aroundMethods : Symbol → Bool
  inlineMethods : Bool
  compilingFile : Bool
  package : String
  loopId : Ast → Nat

/-- The image a form is compiled in: the definitions loaded, latest first, the names
proclaimed special, and `*file-function-defs*`. -/
structure World where
  definitions : List (Symbol × GlobalKind)
  proclaimed : List Symbol
  fileDefs : List String

/-- The image at a moment of a run, with the names that calls in progress have bound
dynamically. -/
structure Moment where
  definitions : List (Symbol × GlobalKind)
  dynamic : List Symbol

def World.fbound (w : World) (s : Symbol) : Bool := w.definitions.contains (s, .function)

def Moment.fbound (m : Moment) (s : Symbol) : Bool := m.definitions.contains (s, .function)

/-- The definition of a global name. -/
def Moment.definition (m : Moment) (s : Symbol) : Option GlobalKind := m.definitions.lookup s

/-! ## §3 Emission -/

/-- `*lexical-vars*` and `*letfn-fns*`. -/
structure Tables where
  lexicalVars : List Symbol
  letfnFns : List Symbol

/-- The symbol as it is, or under `cl:function`. -/
inductive RefForm where
  | bare
  | function
deriving DecidableEq

/-- The symbol is in `*file-function-defs*`, a standard function, or fbound. -/
def known (S : Setting) (w : World) (s : Symbol) : Bool :=
  w.fileDefs.contains s.name || S.standard s || w.fbound s

/-- `emit-symbol-ref`. -/
def emitSymbolRef (S : Setting) (w : World) (T : Tables) (s : Symbol) : RefForm :=
  if s ∈ T.lexicalVars then .bare
  else if S.constant s then .bare
  else if known S w s then .function
  else .bare

/-- A call of a named function, a call of the variable's value, or a choice at run time. -/
inductive OperatorForm where
  | call (name : Symbol)
  | value
  | checked
deriving DecidableEq

def getSymbol : Symbol := ⟨"GET", "FOL.COMPILER.COLLECTION-FUNCTIONS"⟩
def inlineAssoc : Symbol := ⟨"INLINE-ASSOC!", "FOL.COMPILER.COLLECTION-FUNCTIONS"⟩

/-- Two arguments, the second a literal keyword. -/
def keywordLookup : List Ast → Bool
  | [_, .literal (.keyword _)] => true
  | _ => false

/-- `emit-call-1` for a symbol that is in neither table. -/
def globalOperator (S : Setting) (w : World) (s : Symbol) (args : List Ast) : OperatorForm :=
  if s.name = "GET" && keywordLookup args then .call getSymbol
  else if s.name.toUpper = "ASSOC" && S.inlineMethods && args.length = 3 then .call inlineAssoc
  else if S.aroundMethods s then .call ⟨s.name, "FOL.CORE"⟩
  else if known S w s || s.package = "COMMON-LISP" then .call s
  else .checked

/-- `emit-call-1` for a symbol. -/
def emitOperator (S : Setting) (w : World) (T : Tables) (s : Symbol) (args : List Ast) :
    OperatorForm :=
  if s ∈ T.letfnFns then .call s
  else if s ∈ T.lexicalVars then .value
  else globalOperator S w s args

inductive Position where
  | reference
  | operator (args : List Ast)
  | step

/-- `(if (fboundp 's) (s …) (let ((val s)) …))`. -/
def resolveChecked (m : Moment) (scope : Scope) (s : Symbol) : Target :=
  if m.fbound s then clFunction s scope else clVariable m.dynamic s false scope

/-- What CL takes the form emitted for an occurrence of the symbol to be. -/
def resolve (S : Setting) (w : World) (m : Moment) (T : Tables) (scope : Scope) (s : Symbol) :
    Position → Target
  | .reference =>
    match emitSymbolRef S w T s with
    | .bare => clVariable m.dynamic s false scope
    | .function => clFunction s scope
  | .operator args =>
    match emitOperator S w T s args with
    | .call name => clFunction name scope
    | .value => clVariable m.dynamic s false scope
    | .checked => resolveChecked m scope s
  | .step => resolveChecked m scope s

/-! ## §4 Contexts -/

/-- The symbol of a symbol reference. -/
def refName : Ast → Option Symbol
  | .symbolRef s => some s
  | _ => none

mutual

/-- The symbols that are steps of a threading form, closures left out: `compile-fn` binds
`*extra-special-vars*` for each. -/
def threadSteps : Ast → List Symbol
  | .literal _ => []
  | .symbolRef _ => []
  | .call op args => threadSteps op ++ threadStepsList args
  | .ifNode test thn els => threadSteps test ++ threadSteps thn ++ threadStepsList els
  | .doNode body => threadStepsList body
  | .bind bindings body => threadStepsBindings bindings ++ threadStepsList body
  | .letfn _ body => threadStepsList body
  | .fn _ _ => []
  | .loop bindings body => threadStepsBindings bindings ++ threadStepsList body
  | .recur args => threadStepsList args
  | .case expr clauses => threadSteps expr ++ threadStepsCases clauses
  | .cond clauses => threadStepsConds clauses
  | .threadFirst forms => forms.tail.filterMap refName ++ threadStepsList forms
  | .vector elements => threadStepsList elements
  | .set elements => threadStepsList elements
  | .dict entries => threadStepsEntries entries
  | .quote _ => []
  | .other kids => threadStepsKids kids

def threadStepsList : List Ast → List Symbol
  | [] => []
  | n :: ns => threadSteps n ++ threadStepsList ns

def threadStepsBindings : List (Pattern × Ast) → List Symbol
  | [] => []
  | (_, init) :: bs => threadSteps init ++ threadStepsBindings bs

def threadStepsCases : List (List Literal × List Ast) → List Symbol
  | [] => []
  | (_, body) :: cs => threadStepsList body ++ threadStepsCases cs

def threadStepsConds : List (Ast × List Ast) → List Symbol
  | [] => []
  | (test, body) :: cs => threadSteps test ++ threadStepsList body ++ threadStepsConds cs

def threadStepsEntries : List (Ast × Ast) → List Symbol
  | [] => []
  | (k, v) :: es => threadSteps k ++ threadSteps v ++ threadStepsEntries es

def threadStepsKids : List (Bool × List Symbol × Ast) → List Symbol
  | [] => []
  | (step, _, n) :: ks =>
    (if step then (refName n).toList else []) ++ threadSteps n ++ threadStepsKids ks

end

/-- The same over clauses, which `compile-fn` compiles together. -/
def clauseSteps (clauses : List (Params × List Ast)) : List Symbol :=
  clauses.flatMap fun c => threadStepsList c.2

/-- Where a node is emitted. The tables hold the names in `pending` without a binding to go
with them: the variables of a loop while its initialisers are emitted, and its result. -/
structure Context where
  scope : Scope
  tables : Tables
  pending : List Symbol

namespace Context

def empty : Context := ⟨[], ⟨[], []⟩, []⟩

/-- Variables bound by `let`, special where the name is proclaimed so. -/
def lets (w : World) (c : Context) (names : List Symbol) : Context :=
  { c with
    scope := names.map (fun s => .variable s true (w.proclaimed.contains s)) ++ c.scope
    tables := { c.tables with lexicalVars := names ++ c.tables.lexicalVars } }

/-- Parameters of a lambda with these special declarations. -/
def params (w : World) (c : Context) (written : Bool) (specials names : List Symbol) : Context :=
  { c with
    scope := names.map
      (fun s => .variable s written (specials.contains s || w.proclaimed.contains s)) ++
      .lambda specials :: c.scope
    tables := { c.tables with lexicalVars := names ++ c.tables.lexicalVars } }

/-- Inside the `labels` of a named `fn`; no table has the name. -/
def named (c : Context) : Option Symbol → Context
  | some s => { c with scope := .function s false :: c.scope }
  | none => c

/-- Inside the `labels` of a `letfn`. -/
def letfn (c : Context) (names : List Symbol) : Context :=
  { c with
    scope := names.map (fun s => .function s true) ++ c.scope
    tables := { c.tables with letfnFns := names ++ c.tables.letfnFns } }

/-- The initialisers of a loop. -/
def inits (c : Context) (result : Symbol) (names : List Symbol) : Context :=
  { c with
    tables := { c.tables with lexicalVars := names ++ result :: c.tables.lexicalVars }
    pending := names ++ result :: c.pending }

/-- The body of a loop. -/
def body (w : World) (c : Context) (result : Symbol) (names : List Symbol) : Context :=
  { c with
    scope := names.map (fun s => .variable s true (w.proclaimed.contains s)) ++ c.scope
    tables := { c.tables with lexicalVars := names ++ result :: c.tables.lexicalVars }
    pending := result :: c.pending }

end Context

/-- `RESULT-n`. -/
def resultSymbol (S : Setting) (node : Ast) : Symbol :=
  ⟨"RESULT-" ++ (S.loopId node).repr, S.package⟩

/-- The variables of a parameter vector; `_` becomes a gensym. -/
def paramNames (ps : Params) : List Symbol := ps.binds.filter fun s => s.name ≠ "&" && s.name ≠ "_"

def hasRest (ps : Params) : Bool := ps.elems.any fun p => (p.symbol?.map (·.name)) = some "&"

/-- The number of regular parameters. -/
def arity (ps : Params) : Nat := if hasRest ps then ps.elems.length - 2 else ps.elems.length

/-- The parameters of the lambda that chooses between clauses. -/
def dispatchParams (S : Setting) (clauses : List (Params × List Ast)) : List Symbol :=
  match clauses with
  | (ps, _) :: _ =>
    if clauses.all fun c => !hasRest c.1 && arity c.1 = arity ps then
      (List.range (arity ps)).map fun i => ⟨"A" ++ i.repr, S.package⟩
    else [⟨"ARGS", S.package⟩]
  | [] => [⟨"ARGS", S.package⟩]

/-- The bodies of the clauses of a function, each in its context: `compile-fn`. -/
def clauseParts (S : Setting) (w : World) (c : Context) (clauses : List (Params × List Ast)) :
    List (Context × Ast) :=
  match clauses with
  | [(ps, body)] => body.map (c.params w true (clauseSteps clauses) (paramNames ps), ·)
  | _ => clauses.flatMap fun (ps, body) =>
      body.map (((c.params w false (clauseSteps clauses) (dispatchParams S clauses)).lets w
        (paramNames ps)), ·)

/-- A binding chain: each initialiser under the bindings before it, the body under all. -/
def bindParts (w : World) (c : Context) (body : List Ast) :
    List (Pattern × Ast) → List (Context × Ast)
  | [] => body.map (c, ·)
  | (p, init) :: bs => (c, init) :: bindParts w (c.lets w p.binds) body bs

/-- The nodes below a node, with their contexts. Symbols in operator position and steps that
are symbols are not emitted as nodes. -/
def parts (S : Setting) (w : World) (c : Context) : Ast → List (Context × Ast)
  | .literal _ => []
  | .symbolRef _ => []
  | .call (.symbolRef _) args => args.map (c, ·)
  | .call op args => (c, op) :: args.map (c, ·)
  | .ifNode test thn els => (test :: thn :: els).map (c, ·)
  | .doNode body => body.map (c, ·)
  | .bind bindings body => bindParts w c body bindings
  | .letfn bindings body =>
    let c' := c.letfn (bindings.map (·.1))
    (bindings.flatMap fun b => clauseParts S w c' b.2) ++ body.map (c', ·)
  | .fn name clauses => clauseParts S w (c.named name) clauses
  | .loop bindings body =>
    let names := bindingsBind bindings
    let result := resultSymbol S (.loop bindings body)
    bindings.map (fun b => (c.inits result names, b.2)) ++ body.map (c.body w result names, ·)
  | .recur args => args.map (c, ·)
  | .case expr clauses => (c, expr) :: (clauses.flatMap (·.2)).map (c, ·)
  | .cond clauses => clauses.flatMap fun cl => (c, cl.1) :: cl.2.map (c, ·)
  | .threadFirst forms =>
    (forms.head?.toList ++ forms.tail.filter fun f => (refName f).isNone).map (c, ·)
  | .vector elements => elements.map (c, ·)
  | .set elements => elements.map (c, ·)
  | .dict entries => entries.flatMap fun e => [(c, e.1), (c, e.2)]
  | .quote _ => []
  | .other kids =>
    (kids.filter fun k => !(k.1 && (refName k.2.2).isSome)).map fun k =>
      (c.lets w k.2.1, k.2.2)

structure Occurrence where
  context : Context
  name : Symbol
  position : Position

/-- The symbols a node itself resolves. -/
def sites (w : World) (c : Context) : Ast → List Occurrence
  | .symbolRef s => [⟨c, s, .reference⟩]
  | .call (.symbolRef s) args => [⟨c, s, .operator args⟩]
  | .threadFirst forms => (forms.tail.filterMap refName).map fun s => ⟨c, s, .step⟩
  | .other kids => (kids.filter (·.1)).flatMap fun k =>
      (refName k.2.2).toList.map fun s => ⟨c.lets w k.2.1, s, .step⟩
  | _ => []

/-! ## §5 Programs -/

/-- The node in its context is part of the other. -/
inductive Within (S : Setting) (w : World) (c : Context) (n : Ast) : Context → Ast → Prop where
  | refl : Within S w c n c n
  | part {c' n' c'' n''} : Within S w c n c' n' → (c'', n'') ∈ parts S w c' n' →
    Within S w c n c'' n''

inductive TopForm where
  | defVar (name : Symbol) (value : Option Ast)
  | defn (name : Symbol) (clauses : List (Params × List Ast))
  | expression (node : Ast)

/-- The nodes a top-level form emits. -/
def TopForm.roots (S : Setting) (w : World) : TopForm → List (Context × Ast)
  | .defVar _ value => value.toList.map (.empty, ·)
  | .defn _ clauses => clauseParts S w .empty clauses
  | .expression node => [(.empty, node)]

/-- The occurrence is in the form. -/
def Occurs (S : Setting) (w : World) (form : TopForm) (o : Occurrence) : Prop :=
  ∃ root ∈ form.roots S w, ∃ c n, Within S w root.1 root.2 c n ∧ o ∈ sites w c n

/-- The definition a form makes. -/
def TopForm.definition : TopForm → Option (Symbol × GlobalKind)
  | .defVar name _ => some (name, .variable)
  | .defn name _ => some (name, .function)
  | .expression _ => none

/-- The image the next form is compiled in: loaded form by form, or a file compiled whole. -/
def World.after (S : Setting) (w : World) (form : TopForm) : World where
  definitions := if S.compilingFile then w.definitions else form.definition.toList ++ w.definitions
  proclaimed :=
    match form with
    | .defVar name _ => name :: w.proclaimed
    | _ => w.proclaimed
  fileDefs :=
    match form with
    | .defn name _ => if S.compilingFile then name.name :: w.fileDefs else w.fileDefs
    | _ => w.fileDefs

/-- The definitions in place after the forms, latest first. -/
def definitionsAfter (definitions : List (Symbol × GlobalKind)) (forms : List TopForm) :
    List (Symbol × GlobalKind) :=
  (forms.filterMap TopForm.definition).reverse ++ definitions

/-- A form of a program, the image it is compiled in, and a moment its code runs at. -/
structure Evaluation where
  form : TopForm
  world : World
  moment : Moment

/-- The evaluations of a program: a form is compiled after the forms before it, and its code
runs after these or more. What is bound dynamically is a variable CL has made special. -/
structure Evaluates (S : Setting) (w : World) (program : List TopForm) (e : Evaluation) : Prop where
  compiled : ∃ before later rest, program = before ++ e.form :: later ++ rest ∧
    e.world = before.foldl (World.after S) w ∧
    (e.moment.definitions = definitionsAfter w.definitions before ∨
      e.moment.definitions = definitionsAfter w.definitions (before ++ e.form :: later))
  dynamic : ∀ s ∈ e.moment.dynamic, ∃ before form rest, program = before ++ form :: rest ∧
    ∃ root ∈ form.roots S (before.foldl (World.after S) w), ∃ c n written,
      Within S (before.foldl (World.after S) w) root.1 root.2 c n ∧
      .variable s written true ∈ c.scope

/-- The name is resolved to the innermost binder, or without one to its definition. -/
def Right (m : Moment) (scope : Scope) (s : Symbol) (target : Target) : Prop :=
  match folBinder s scope with
  | some depth => target = .binder depth
  | none => ∀ kind, m.definition s = some kind → target = .global kind s

/-- The form emitted for the occurrence means what the source means. -/
def Occurrence.Resolves (S : Setting) (w : World) (m : Moment) (o : Occurrence) : Prop :=
  Right m o.context.scope o.name
    (resolve S w m o.context.tables o.context.scope o.name o.position)

end Fol.Names
