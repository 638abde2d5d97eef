/-
Fol.Emit.NumericRuns — the runs of a loop as `emit-loop-1` emits it, and what the types
inferred for its variables are worth in them.

Numbers are a parameter, with the float contagion of CL as laws. A run evaluates the body
of the loop, or a part of it, and ends in a value, in a recur form of this loop, or in a
fault: an operator rewritten to its CL counterpart got something that is no number.
Tests and clauses go either way, an operator that is not arithmetic returns anything, and
so do a nested loop and a closure; a closure whose code has a recur form of this loop may
jump whenever the loop runs. What a variable is outside all binders is anything.
-/
import Mathlib.Logic.Function.Iterate
import Fol.Emit.NumericTypes

namespace Fol.Numeric

open Fol.Escape

/-! ## §1 Numbers -/

/-- The numbers of CL among the values `V`: no argument, one and two, the rest from the left. -/
structure Arithmetic (V : Type) where
  hasType : NumType → V → Prop
  literal : Literal → V
  constant : String → Option V
  unary : String → V → Option V
  binary : String → V → V → Option V
  number_of : ∀ {t v}, hasType t v → hasType .number v
  literal_type : ∀ {l t}, numTypeOfLiteral l = some t → hasType t (literal l)
  constant_type : ∀ {op v}, constant op = some v → hasType .integer v
  unary_type : ∀ {op t v w}, op ≠ "/" → hasType t v → unary op v = some w → hasType t w
  reciprocal_type : ∀ {t v w}, t ≠ .integer → hasType t v → unary "/" v = some w → hasType t w
  binary_type : ∀ {op t t' u v w x}, op ≠ "/" → hasType t v → hasType t' u →
    binary op v u = some w → numContagion (some t) (some t') = some x → hasType x w
  quotient_type : ∀ {t t' u v w x}, hasType t v → hasType t' u → binary "/" v u = some w →
    numDiv (some t) (some t') = some x → hasType x w

namespace Arithmetic

variable {V : Type} (A : Arithmetic V)

/-- The operators of `+num-value-ops+` on numbers. -/
def apply (op : String) : List V → Option V
  | [] => if op = "INC" ∨ op = "DEC" ∨ op = "/" then none else A.constant op
  | [v] => A.unary op v
  | v :: u :: us => if op = "INC" ∨ op = "DEC" then none else (u :: us).foldlM (A.binary op) v

/-- The value has the type, where there is one. -/
def Fits (t : Option NumType) (v : V) : Prop := ∀ t', t = some t' → A.hasType t' v

end Arithmetic

/-- What a program runs on: the numbers, and whether a global name still has the standard
operation. -/
structure Machine (V : Type) extends Arithmetic V where
  standard : Symbol → Bool

/-! ## §2 Runs -/

abbrev Locals (V : Type) := Symbol → Option V

def Locals.set {V : Type} (ρ : Locals V) (s : Symbol) (v : V) : Locals V :=
  fun s' => if s' = s then some v else ρ s'

/-- Variables take values, the last of one name winning. -/
def Locals.setAll {V : Type} (ρ : Locals V) : List Symbol → List V → Locals V
  | s :: ss, v :: vs => (ρ.set s v).setAll ss vs
  | _, _ => ρ

/-- Only the symbols of the list may have changed. -/
def Locals.SameBut {V : Type} (binds : List Symbol) (ρ ρ' : Locals V) : Prop :=
  ∀ s, s ∉ binds → ρ' s = ρ s

/-- A pattern takes a value: a symbol the value itself, the symbols of a destructuring
pattern anything. -/
def Binds {V : Type} (p : Pattern) (v : V) (ρ ρ' : Locals V) : Prop :=
  match p with
  | .symbol s => ρ' = ρ.set s v
  | .tree _ binds => Locals.SameBut binds ρ ρ'

inductive Task where
  | node (n : Ast)
  | values (ns : List Ast)
  | body (ns : List Ast)
  | bind (bindings : List (Pattern × Ast)) (body : List Ast)
  | conds (clauses : List (Ast × List Ast))
  | kids (ks : List (List Symbol × Ast))

inductive Outcome (V : Type) where
  | value (v : V)
  | values (vs : List V)
  | again (vs : List V)
  | fault

/-- The outcome leaves the forms around it. -/
def Outcome.leaves {V : Type} : Outcome V → Bool
  | .again _ => true
  | .fault => true
  | _ => false

/-- A body none of whose forms `%num-specialize` enters. -/
def opaqueKids : Ast → Option (List (List Symbol × Ast))
  | .letfn bindings body => some (body.map (bindings.map (·.1), ·))
  | .case expr clauses => some (([], expr) :: (clauses.flatMap (·.2)).map ([], ·))
  | .threadFirst forms => some (forms.map ([], ·))
  | .vector elements => some (elements.map ([], ·))
  | .set elements => some (elements.map ([], ·))
  | .dict entries => some (entries.flatMap fun e => [([], e.1), ([], e.2)])
  | .quote _ => some []
  | .other kids => some (kids.map (·.2))
  | _ => none

variable {V : Type}

/-- A value of an operator left generic: arithmetic where the standard operation gets
numbers, or the wrong number of arguments, else anything. -/
def Machine.Generic (M : Machine V) (ρ : Locals V) (op : Symbol) (vs : List V) (v : V) : Prop :=
  M.standard op = true → ρ op = none → op.name ∈ numValueOps →
    (∀ u ∈ vs, M.hasType .number u) ∨ ((op.name = "INC" ∨ op.name = "DEC") ∧ vs.length ≠ 1) →
    M.apply op.name vs = some v

/-- A value of the CL operator for `op`; of a comparison, anything. -/
def Machine.Rewritten (M : Machine V) (op : Symbol) (vs : List V) (v : V) : Prop :=
  op.name ∈ numValueOps → M.apply op.name vs = some v

/-- Runs of the specialised form of a task. `S` is the environment `%num-specialize` has
there, `none` where it left the form as it was. -/
inductive Run (M : Machine V) : Option TypeEnv → Locals V → Task → Outcome V → Prop where
  | literal {S ρ l} : Run M S ρ (.node (.literal l)) (.value (M.literal l))
  | local {S ρ s v} : ρ s = some v → Run M S ρ (.node (.symbolRef s)) (.value v)
  | global {S ρ s v} : ρ s = none → Run M S ρ (.node (.symbolRef s)) (.value v)
  | rewritten {E ρ op args cl vs v} : rewrites E op args = some cl →
    Run M (some E) ρ (.values args) (.values vs) → (∀ u ∈ vs, M.hasType .number u) →
    M.Rewritten op vs v → Run M (some E) ρ (.node (.call (.symbolRef op) args)) (.value v)
  | fault {E ρ op args cl vs u} : rewrites E op args = some cl →
    Run M (some E) ρ (.values args) (.values vs) → u ∈ vs → ¬ M.hasType .number u →
    Run M (some E) ρ (.node (.call (.symbolRef op) args)) .fault
  | generic {S ρ op args vs v} : S.bind (rewrites · op args) = none →
    Run M S ρ (.values args) (.values vs) → M.Generic ρ op vs v →
    Run M S ρ (.node (.call (.symbolRef op) args)) (.value v)
  | callLeaves {S ρ op args o} : Run M S ρ (.values args) o → o.leaves = true →
    Run M S ρ (.node (.call (.symbolRef op) args)) o
  | callOther {S ρ op args o} : (∀ s, op ≠ .symbolRef s) →
    Run M S ρ (.kids ((op :: args).map ([], ·))) o → Run M S ρ (.node (.call op args)) o
  | ifThen {S ρ test thn els u o} : Run M S ρ (.node test) (.value u) → Run M S ρ (.node thn) o →
    Run M S ρ (.node (.ifNode test thn els)) o
  | ifElse {S ρ test thn els u o} : Run M S ρ (.node test) (.value u) → Run M S ρ (.body els) o →
    Run M S ρ (.node (.ifNode test thn els)) o
  | ifLeaves {S ρ test thn els o} : Run M S ρ (.node test) o → o.leaves = true →
    Run M S ρ (.node (.ifNode test thn els)) o
  | doNode {S ρ body o} : Run M S ρ (.body body) o → Run M S ρ (.node (.doNode body)) o
  | bind {S ρ bindings body o} : Run M S ρ (.bind bindings body) o →
    Run M S ρ (.node (.bind bindings body)) o
  | cond {S ρ clauses o} : Run M S ρ (.conds clauses) o → Run M S ρ (.node (.cond clauses)) o
  | recur {S ρ args vs} : Run M S ρ (.values args) (.values vs) →
    Run M S ρ (.node (.recur args)) (.again vs)
  | recurLeaves {S ρ args o} : Run M S ρ (.values args) o → o.leaves = true →
    Run M S ρ (.node (.recur args)) o
  | loop {S ρ bindings body v} : Run M S ρ (.node (.loop bindings body)) (.value v)
  | fn {S ρ name clauses v} : Run M S ρ (.node (.fn name clauses)) (.value v)
  | unspecialized {S ρ n ks o} : opaqueKids n = some ks → Run M none ρ (.kids ks) o →
    Run M S ρ (.node n) o
  | valuesNil {S ρ} : Run M S ρ (.values []) (.values [])
  | valuesCons {S ρ n ns v vs} : Run M S ρ (.node n) (.value v) →
    Run M S ρ (.values ns) (.values vs) → Run M S ρ (.values (n :: ns)) (.values (v :: vs))
  | valuesHead {S ρ n ns o} : Run M S ρ (.node n) o → o.leaves = true →
    Run M S ρ (.values (n :: ns)) o
  | valuesTail {S ρ n ns v o} : Run M S ρ (.node n) (.value v) → Run M S ρ (.values ns) o →
    o.leaves = true → Run M S ρ (.values (n :: ns)) o
  | bodyNil {S ρ} : Run M S ρ (.body []) (.value (M.literal .nil))
  | bodyLast {S ρ n o} : Run M S ρ (.node n) o → Run M S ρ (.body [n]) o
  | bodyCons {S ρ n m ns v o} : Run M S ρ (.node n) (.value v) → Run M S ρ (.body (m :: ns)) o →
    Run M S ρ (.body (n :: m :: ns)) o
  | bodyLeaves {S ρ n m ns o} : Run M S ρ (.node n) o → o.leaves = true →
    Run M S ρ (.body (n :: m :: ns)) o
  | bindNil {S ρ body o} : Run M S ρ (.body body) o → Run M S ρ (.bind [] body) o
  | bindCons {S ρ ρ' p init bs body v o} : Run M S ρ (.node init) (.value v) → Binds p v ρ ρ' →
    Run M (S.map fun E => bindType E p (numInfer E init)) ρ' (.bind bs body) o →
    Run M S ρ (.bind ((p, init) :: bs) body) o
  | bindLeaves {S ρ p init bs body o} : Run M S ρ (.node init) o → o.leaves = true →
    Run M S ρ (.bind ((p, init) :: bs) body) o
  | condsNil {S ρ} : Run M S ρ (.conds []) (.value (M.literal .nil))
  | condsTake {S ρ test body cs u o} : Run M S ρ (.node test) (.value u) →
      Run M S ρ (.body body) o →
    Run M S ρ (.conds ((test, body) :: cs)) o
  | condsNext {S ρ test body cs u o} : Run M S ρ (.node test) (.value u) → Run M S ρ (.conds cs) o →
    Run M S ρ (.conds ((test, body) :: cs)) o
  | condsLeaves {S ρ test body cs o} : Run M S ρ (.node test) o → o.leaves = true →
    Run M S ρ (.conds ((test, body) :: cs)) o
  | kidsNil {S ρ v} : Run M S ρ (.kids []) (.value v)
  | kidsSkip {S ρ k ks o} : Run M S ρ (.kids ks) o → Run M S ρ (.kids (k :: ks)) o
  | kidsCons {S ρ ρ' binds n ks v o} : Locals.SameBut binds ρ ρ' → Run M S ρ' (.node n) (.value v) →
    Run M S ρ (.kids ks) o → Run M S ρ (.kids ((binds, n) :: ks)) o
  | kidsLeaves {S ρ ρ' binds n ks o} : Locals.SameBut binds ρ ρ' → Run M S ρ' (.node n) o →
    o.leaves = true → Run M S ρ (.kids ((binds, n) :: ks)) o

mutual

/-- The bodies of the closures a form makes whose recur forms belong to the loop around it:
`emit-fn` leaves the loop as it is, a nested loop puts itself in its place. -/
def innerBodies : Ast → List (List Ast)
  | .literal _ => []
  | .symbolRef _ => []
  | .call op args => innerBodies op ++ innerBodiesList args
  | .ifNode test thn els => innerBodies test ++ innerBodies thn ++ innerBodiesList els
  | .doNode body => innerBodiesList body
  | .bind bindings body => innerBodiesBindings bindings ++ innerBodiesList body
  | .letfn bindings body => innerBodiesFns bindings ++ innerBodiesList body
  | .fn _ clauses => innerBodiesClauses clauses
  | .loop _ _ => []
  | .recur args => innerBodiesList args
  | .case expr clauses => innerBodies expr ++ innerBodiesCases clauses
  | .cond clauses => innerBodiesConds clauses
  | .threadFirst forms => innerBodiesList forms
  | .vector elements => innerBodiesList elements
  | .set elements => innerBodiesList elements
  | .dict entries => innerBodiesEntries entries
  | .quote _ => []
  | .other kids => innerBodiesKids kids

def innerBodiesList : List Ast → List (List Ast)
  | [] => []
  | n :: ns => innerBodies n ++ innerBodiesList ns

def innerBodiesBindings : List (Pattern × Ast) → List (List Ast)
  | [] => []
  | (_, init) :: bs => innerBodies init ++ innerBodiesBindings bs

def innerBodiesClauses : List (Params × List Ast) → List (List Ast)
  | [] => []
  | (_, body) :: cs => body :: innerBodiesList body ++ innerBodiesClauses cs

def innerBodiesFns : List (Symbol × List (Params × List Ast)) → List (List Ast)
  | [] => []
  | (_, clauses) :: fs => innerBodiesClauses clauses ++ innerBodiesFns fs

def innerBodiesCases : List (List Literal × List Ast) → List (List Ast)
  | [] => []
  | (_, body) :: cs => innerBodiesList body ++ innerBodiesCases cs

def innerBodiesConds : List (Ast × List Ast) → List (List Ast)
  | [] => []
  | (test, body) :: cs => innerBodies test ++ innerBodiesList body ++ innerBodiesConds cs

def innerBodiesEntries : List (Ast × Ast) → List (List Ast)
  | [] => []
  | (k, v) :: es => innerBodies k ++ innerBodies v ++ innerBodiesEntries es

def innerBodiesKids : List (Bool × List Symbol × Ast) → List (List Ast)
  | [] => []
  | (_, _, n) :: ks => innerBodies n ++ innerBodiesKids ks

end

/-- One iteration ends in a recur form with these arguments. -/
def Jumps (M : Machine V) (ρ : Locals V) (l : Loop) (vs vs' : List V) : Prop :=
  Run M (some (numInferLoopEnv l)) (ρ.setAll l.names vs) (.body l.body) (.again vs') ∨
    ∃ b ∈ innerBodiesList l.body, ∃ ρ', Run M none ρ' (.body b) (.again vs')

/-- Values after the assignment: `psetq` goes by the name, so a variable whose name is bound
anew around the recur form keeps its value. -/
structure Assigns (vs vs' us : List V) : Prop where
  length : us.length = vs.length
  value : ∀ (k : Nat) (u : V), us[k]? = some u → vs'[k]? = some u ∨ vs[k]? = some u

/-- The values the variables have at the start of an iteration. The initialisers run outside
the loop; CL refuses a variable bound twice, the compiler a recur of another arity. -/
inductive Reaches (M : Machine V) (ρ : Locals V) (l : Loop) : List V → Prop where
  | init {vs} : l.names.Nodup →
    List.Forall₂ (fun b v => Run M none ρ (.node b.2) (.value v)) l.bindings vs → Reaches M ρ l vs
  | step {vs vs' us} : Reaches M ρ l vs → Jumps M ρ l vs vs' → vs'.length = l.names.length →
    Assigns vs vs' us → Reaches M ρ l us

/-- What the inferred types promise of an iteration. -/
structure TypesHold (M : Machine V) (ρ : Locals V) (l : Loop) (vs : List V) : Prop where
  typed : List.Forall₂ (fun s v => M.Fits (numInferLoopEnv l s) v) l.names vs
  declared : ∀ d ∈ numLoopDecls l (numInferLoopEnv l), ∃ v,
    ρ.setAll l.names vs d.1 = some v ∧ M.hasType d.2 v
  rewritten : ¬ Run M (some (numInferLoopEnv l)) (ρ.setAll l.names vs) (.body l.body) .fault

/-! ## §3 Conditions -/

mutual

/-- Evaluating the form may reach a recur form of the loop around it. -/
def recurs : Ast → Bool
  | .literal _ => false
  | .symbolRef _ => false
  | .call op args => recurs op || recursList args
  | .ifNode test thn els => recurs test || recurs thn || recursList els
  | .doNode body => recursList body
  | .bind bindings body => recursBindings bindings || recursList body
  | .letfn _ body => recursList body
  | .fn _ _ => false
  | .loop _ _ => false
  | .recur _ => true
  | .case expr clauses => recurs expr || recursCases clauses
  | .cond clauses => recursConds clauses
  | .threadFirst forms => recursList forms
  | .vector elements => recursList elements
  | .set elements => recursList elements
  | .dict entries => recursEntries entries
  | .quote _ => false
  | .other kids => recursKids kids

def recursList : List Ast → Bool
  | [] => false
  | n :: ns => recurs n || recursList ns

def recursBindings : List (Pattern × Ast) → Bool
  | [] => false
  | (_, init) :: bs => recurs init || recursBindings bs

def recursCases : List (List Literal × List Ast) → Bool
  | [] => false
  | (_, body) :: cs => recursList body || recursCases cs

def recursConds : List (Ast × List Ast) → Bool
  | [] => false
  | (test, body) :: cs => recurs test || recursList body || recursConds cs

def recursEntries : List (Ast × Ast) → Bool
  | [] => false
  | (k, v) :: es => recurs k || recurs v || recursEntries es

def recursKids : List (Bool × List Symbol × Ast) → Bool
  | [] => false
  | (_, _, n) :: ks => recurs n || recursKids ks

end

/-- The names with local bindings. -/
abbrev Bound := Symbol → Bool

def Bound.with (bound : Bound) (binds : List Symbol) : Bound := fun s => bound s || binds.contains s

/-- No name of the list has a type. -/
def untyped (E : TypeEnv) (binds : List Symbol) : Bool := binds.all fun s => (E s).isNone

/-- The symbols a pattern binds behind the back of the inference. -/
def Pattern.hidden : Pattern → List Symbol
  | .symbol _ => []
  | .tree _ binds => binds

/-- With all operands typed the call is rewritten. -/
def allOperands (op : Symbol) (args : List Ast) : Bool :=
  args.length ≠ 0 && (!(op.name = "INC" || op.name = "DEC") || args.length = 1)

/-- A call that gets a type: no reciprocal of an integer, and an operator that is rewritten
or still means the standard operation. -/
def callChecked (standard : Symbol → Bool) (spec : Bool) (bound : Bound) (E : TypeEnv) (op : Symbol)
    (args : List Ast) : Bool :=
  numCall op (numInferList E args) = none ||
    (!(op.name = "/" && numInferList E args = [some .integer]) &&
      ((spec && allOperands op args) || (standard op && !bound op)))

mutual

/-- The form, specialised or not, in a scope with these names and types: arithmetic as
`callChecked` says, no recur form in an initialiser or among the arguments of another, and
no name with a type rebound by a destructuring pattern or another binder. -/
@[grind =] def checked (standard : Symbol → Bool) (spec : Bool) (bound : Bound) (E : TypeEnv) :
    Ast → Bool
  | .literal _ => true
  | .symbolRef _ => true
  | .call (.symbolRef op) args =>
    callChecked standard spec bound E op args && checkedList standard spec bound E args
  | .call op args => checked standard spec bound E op && checkedList standard spec bound E args
  | .ifNode test thn els =>
    checked standard spec bound E test && checked standard spec bound E thn &&
      checkedList standard spec bound E els
  | .doNode body => checkedList standard spec bound E body
  | .bind bindings body =>
    checkedBindings standard spec bound E bindings &&
      checkedList standard spec (bound.with (bindingsBind bindings)) (numScope E bindings) body
  | .letfn bindings body =>
    untyped E (bindings.map (·.1)) &&
      checkedList standard false (bound.with (bindings.map (·.1))) E body
  | .fn _ _ => true
  | .loop _ _ => true
  | .recur args => !recursList args && checkedList standard spec bound E args
  | .case expr clauses =>
      checked standard false bound E expr && checkedCases standard bound E clauses
  | .cond clauses => checkedConds standard spec bound E clauses
  | .threadFirst forms => checkedList standard false bound E forms
  | .vector elements => checkedList standard false bound E elements
  | .set elements => checkedList standard false bound E elements
  | .dict entries => checkedEntries standard bound E entries
  | .quote _ => true
  | .other kids => checkedKids standard bound E kids

def checkedList (standard : Symbol → Bool) (spec : Bool) (bound : Bound) (E : TypeEnv) :
    List Ast → Bool
  | [] => true
  | n :: ns => checked standard spec bound E n && checkedList standard spec bound E ns

def checkedBindings (standard : Symbol → Bool) (spec : Bool) (bound : Bound) (E : TypeEnv) :
    List (Pattern × Ast) → Bool
  | [] => true
  | (p, init) :: bs =>
    !recurs init && checked standard spec bound E init && untyped E (Pattern.hidden p) &&
      checkedBindings standard spec (bound.with p.binds) (bindType E p (numInfer E init)) bs

def checkedCases (standard : Symbol → Bool) (bound : Bound) (E : TypeEnv) :
    List (List Literal × List Ast) → Bool
  | [] => true
  | (_, body) :: cs => checkedList standard false bound E body && checkedCases standard bound E cs

def checkedConds (standard : Symbol → Bool) (spec : Bool) (bound : Bound) (E : TypeEnv) :
    List (Ast × List Ast) → Bool
  | [] => true
  | (test, body) :: cs =>
    checked standard spec bound E test && checkedList standard spec bound E body &&
      checkedConds standard spec bound E cs

def checkedEntries (standard : Symbol → Bool) (bound : Bound) (E : TypeEnv) :
    List (Ast × Ast) → Bool
  | [] => true
  | (k, v) :: es =>
    checked standard false bound E k && checked standard false bound E v &&
      checkedEntries standard bound E es

def checkedKids (standard : Symbol → Bool) (bound : Bound) (E : TypeEnv) :
    List (Bool × List Symbol × Ast) → Bool
  | [] => true
  | (_, binds, n) :: ks =>
    untyped E binds && checked standard false (bound.with binds) E n &&
      checkedKids standard bound E ks

end

/-- The types of the initialisers do not come from earlier variables of the loop. -/
def initsAgree (env : TypeEnv) : List (Symbol × Ast) → Bool
  | [] => true
  | (s, init) :: bs =>
    numInfer env init = numInfer .empty init && initsAgree (env.set s (numInfer env init)) bs

/-- Sixteen rounds are enough. -/
def settles (l : Loop) : Bool :=
  !(numRound l ((fun E => (numRound l E).1)^[16] (initEnv .empty l.bindings))).2

/-- The names bound around a loop. -/
def Locals.bound (ρ : Locals V) : Bound := fun s => (ρ s).isSome

/-- The loops on which the inference is right. -/
structure Sound (M : Machine V) (ρ : Locals V) (l : Loop) : Prop where
  inits : ∀ b ∈ l.bindings, checked M.standard false ρ.bound .empty b.2 = true
  initsAgree : initsAgree .empty l.bindings = true
  body : checkedList M.standard true (ρ.bound.with l.names) (initEnv .empty l.bindings) l.body
    = true
  closures : ∀ b ∈ innerBodiesList l.body, recursList b = false
  settles : settles l = true

end Fol.Numeric
