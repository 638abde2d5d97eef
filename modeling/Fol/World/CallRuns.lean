/-
Fol.World.CallRuns — the runs of a compilation unit, as far as the class facts of
`interprocedural-types.lisp` speak of them: what its functions are called with, and what
they return.

The unit calls its functions by name, as a step of a threading form, and through their
values or quoted names, which anything may call with anything. Calls of functions from
outside the unit have the values a parameter allows; local functions, and forms that are
neither a call nor a variable, have any value. Local variables other than parameters take any
value when they are bound and keep it; a name that `def` has made special has any value, whatever
binds it.

Not all code of a unit is in its nodes. The initforms of the slots of `defstruct` and `defclass`,
the defaults of `:or` and the specializers of parameters are emitted as they were read, and
evaluating them can call whatever they name.
-/
import Fol.World.Interprocedural

namespace Fol.Interprocedural

open Fol.Escape Fol.CompileForm

/-! ## §1 Programs -/

/-- A clause of a function of the unit; `alone` if it is the only one. -/
structure Definition where
  name : Symbol
  params : Params
  body : List Ast
  alone : Bool

mutual

/-- The functions a form defines. -/
def definitions : TopLevel → List Definition
  | .function _ name clauses =>
    clauses.map fun c => ⟨name, c.1, stripDocstring c.2, clauses.length = 1⟩
  | .doNode body => definitionsAll body
  | _ => []

def definitionsAll : List TopLevel → List Definition
  | [] => []
  | n :: ns => definitions n ++ definitionsAll ns

end

mutual

/-- The names of the generic functions. -/
def generics : TopLevel → List Symbol
  | .defmethod name _ => [name]
  | .defgeneric name _ => [name]
  | .doNode body => genericsAll body
  | _ => []

def genericsAll : List TopLevel → List Symbol
  | [] => []
  | n :: ns => generics n ++ genericsAll ns

end

mutual

/-- The forms that are not in the body of a function, with the names bound around them. -/
def outerForms : TopLevel → List (List Symbol × Ast)
  | .defmethod _ clauses => clauses.flatMap fun c => c.2.map (c.1.binds, ·)
  | .defVar _ value => value.toList.map ([], ·)
  | .doNode body => outerFormsAll body
  | .expression node => [([], node)]
  | _ => []

def outerFormsAll : List TopLevel → List (List Symbol × Ast)
  | [] => []
  | n :: ns => outerForms n ++ outerFormsAll ns

end

mutual

/-- The names `def` and `defdynamic` make special. -/
def specialNames : TopLevel → List Symbol
  | .defVar name _ => [name]
  | .doNode body => specialNamesAll body
  | _ => []

def specialNamesAll : List TopLevel → List Symbol
  | [] => []
  | n :: ns => specialNames n ++ specialNamesAll ns

end

/-! ## §2 Scopes -/

/-- The initialisers of a `bind` and its body, each under the names bound before. -/
def bindScopes (bound : List Symbol) (body : List Ast) :
    List (Pattern × Ast) → List (List Symbol × Ast)
  | [] => body.map (bound, ·)
  | (p, init) :: bs => (bound, init) :: bindScopes (p.binds ++ bound) body bs

/-- The parts of a node that are evaluated, with the names it binds over each. -/
def subforms : Ast → List (List Symbol × Ast)
  | .literal _ => []
  | .symbolRef _ => []
  | .call (.symbolRef _) args => args.map ([], ·)
  | .call op args => (op :: args).map ([], ·)
  | .ifNode test thn els => (test :: thn :: els).map ([], ·)
  | .doNode body => body.map ([], ·)
  | .bind bindings body => bindScopes [] body bindings
  | .letfn fns body =>
    (fns.flatMap fun f => f.2.flatMap fun c => c.2.map (c.1.binds ++ fns.map (·.1), ·)) ++
      body.map (fns.map (·.1), ·)
  | .fn name clauses => clauses.flatMap fun c => c.2.map (c.1.binds ++ name.toList, ·)
  | .loop bindings body =>
    bindings.map (fun b => ([], b.2)) ++ body.map (bindings.flatMap (·.1.binds), ·)
  | .recur args => args.map ([], ·)
  | .case expr clauses => ([], expr) :: clauses.flatMap fun c => c.2.map ([], ·)
  | .cond clauses => clauses.flatMap fun c => ([], c.1) :: c.2.map ([], ·)
  | .threadFirst forms => forms.map ([], ·)
  | .vector elements => elements.map ([], ·)
  | .set elements => elements.map ([], ·)
  | .dict entries => entries.flatMap fun e => [([], e.1), ([], e.2)]
  | .quote _ => []
  | .other kids => kids.map (·.2)

/-- The functions the steps of a threading form call with one more argument. -/
def threads : Ast → List Symbol
  | .threadFirst forms => forms.tail.filterMap Ast.operatorSymbol
  | .other kids => kids.filterMap fun k => if k.1 then k.2.2.operatorSymbol else none
  | _ => []

section

variable (unit : List TopLevel)

/-- The node is in the unit: in a function or outside, under these names. -/
inductive Occurs : Option Definition → List Symbol → Ast → Prop where
  | outer {binds n} : (binds, n) ∈ outerFormsAll unit → Occurs none binds n
  | body {d n} : d ∈ definitionsAll unit → n ∈ d.body → Occurs (some d) [] n
  | part {owner bound n binds c} : Occurs owner bound n → (binds, c) ∈ subforms n →
    Occurs owner (binds ++ bound) c

end

/-! ## §3 Runs -/

/-- Instances of a class, the value of a quoted symbol, the values a function from outside
the unit can return, and what the nodes of the unit do not show. -/
structure Machine (V : Type) where
  instOf : Symbol → V → Prop
  symbol : Symbol → V
  value : Symbol → List V → V → Prop
  /-- The symbols in the code of the unit that is not parsed. -/
  raw : List Symbol
  /-- The names that were special before the unit. -/
  special : List Symbol

/-- The names that are special in the unit. -/
def Machine.specials {V : Type} (M : Machine V) (unit : List TopLevel) : List Symbol :=
  M.special ++ specialNamesAll unit

abbrev Locals (V : Type) := Symbol → Option V

/-- Only the names may have changed. -/
def Locals.SameBut {V : Type} (binds : List Symbol) (ρ ρ' : Locals V) : Prop :=
  ∀ s, s ∉ binds → ρ' s = ρ s

/-- A function is entered: plain parameters take the arguments. CL refuses a parameter named
twice, and the function a call with another number of arguments. -/
structure Entry {V : Type} (d : Definition) (vs : List V) (ρ : Locals V) : Prop where
  other : ∀ s, s ∉ d.params.binds → ρ s = none
  plain : ∀ params, flatParams d.params = some params → "&" ∉ params.map (·.name) →
    params.Nodup ∧ List.Forall₂ (fun s v => ρ s = some v) params vs

inductive Task where
  | node (n : Ast)
  | values (ns : List Ast)

inductive Outcome (V : Type) where
  | value (v : V)
  | values (vs : List V)

/-- The node is a variable, a quoted symbol, or the call of a symbol. -/
def named : Ast → Bool
  | .symbolRef _ => true
  | .quote (some _) => true
  | .call (.symbolRef _) _ => true
  | _ => false

section

variable {V : Type} (M : Machine V) (unit : List TopLevel)

/-- Values of forms under local variables. -/
inductive Eval : Locals V → Task → Outcome V → Prop where
  | local {ρ s v} : ρ s = some v → Eval ρ (.node (.symbolRef s)) (.value v)
  | global {ρ s v} : ρ s = none → Eval ρ (.node (.symbolRef s)) (.value v)
  | special {ρ s v} : s ∈ M.specials unit → Eval ρ (.node (.symbolRef s)) (.value v)
  | quote {ρ s} : Eval ρ (.node (.quote (some s))) (.value (M.symbol s))
  | call {ρ op args vs d ρ' n v} : ρ op = none → d ∈ definitionsAll unit → d.name = op →
    Eval ρ (.values args) (.values vs) → Entry d vs ρ' → d.body.getLast? = some n →
    Eval ρ' (.node n) (.value v) → Eval ρ (.node (.call (.symbolRef op) args)) (.value v)
  | callEmpty {ρ op args d v} : ρ op = none → d ∈ definitionsAll unit → d.name = op → d.body = [] →
    Eval ρ (.node (.call (.symbolRef op) args)) (.value v)
  | generic {ρ op args v} : ρ op = none → op ∈ genericsAll unit →
    Eval ρ (.node (.call (.symbolRef op) args)) (.value v)
  | external {ρ op args vs v} : ρ op = none → (∀ d ∈ definitionsAll unit, d.name ≠ op) →
    op ∉ genericsAll unit → Eval ρ (.values args) (.values vs) → M.value op vs v →
    Eval ρ (.node (.call (.symbolRef op) args)) (.value v)
  | computed {ρ op args u v} :
      ρ op = some u → Eval ρ (.node (.call (.symbolRef op) args)) (.value v)
  | dynamic {ρ op args v} :
      op ∈ M.specials unit → Eval ρ (.node (.call (.symbolRef op) args)) (.value v)
  | other {ρ n v} : named n = false → Eval ρ (.node n) (.value v)
  | nil {ρ} : Eval ρ (.values []) (.values [])
  | cons {ρ n ns v vs} : Eval ρ (.node n) (.value v) → Eval ρ (.values ns) (.values vs) →
    Eval ρ (.values (n :: ns)) (.values (v :: vs))

/-- A form begins to be evaluated, in a call of a function or outside, or a function is
entered. -/
inductive Event (V : Type) where
  | visits (call : Option (Definition × List V)) (bound : List Symbol) (ρ : Locals V) (n : Ast)
  | enters (d : Definition) (vs : List V)

/-- What can happen when the unit runs. -/
inductive Runs : Event V → Prop where
  | outer {binds n ρ} : (binds, n) ∈ outerFormsAll unit → (∀ s, s ∉ binds → ρ s = none) →
    Runs (.visits none binds ρ n)
  | body {d vs ρ n} : Runs (.enters d vs) → Entry d vs ρ → n ∈ d.body →
    Runs (.visits (some (d, vs)) [] ρ n)
  | part {call bound ρ n binds ρ' c} : Runs (.visits call bound ρ n) → (binds, c) ∈ subforms n →
    ρ.SameBut binds ρ' → Runs (.visits call (binds ++ bound) ρ' c)
  | call {call bound ρ d args vs ρ'} :
      Runs (.visits call bound ρ (.call (.symbolRef d.name) args)) →
    d ∈ definitionsAll unit → ρ d.name = none → Eval M unit ρ (.values args) (.values vs) →
    Entry d vs ρ' → Runs (.enters d vs)
  | threaded {call bound ρ n d vs} : Runs (.visits call bound ρ n) → d.name ∈ threads n →
    d ∈ definitionsAll unit → Runs (.enters d vs)
  | indirect {call bound ρ d vs} : Runs (.visits call bound ρ (.symbolRef d.name)) →
    d ∈ definitionsAll unit → Runs (.enters d vs)
  | quoted {call bound ρ d vs} : Runs (.visits call bound ρ (.quote (some d.name))) →
    d ∈ definitionsAll unit → Runs (.enters d vs)
  | raw {d vs} : d.name ∈ M.raw → d ∈ definitionsAll unit → Runs (.enters d vs)

end

end Fol.Interprocedural
