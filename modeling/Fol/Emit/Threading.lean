/-
Fol.Emit.Threading — the code of calls and of threading forms as the lists `compiler.lisp`
builds, and what CL evaluates such a list to.

A threading form splices the code of the accumulated value into the list emitted for each
step, whatever that list is, so code is kept as lists here. Parts that are never spliced
into are atoms: the test of a world guard and the tests on the value of an operator. The
gensyms of these operators are one atom: each is read before the arguments are evaluated.

The emitter is a parameter where it does not look at calls: `node` gives the code of the
other nodes, `converted` and `dynamicExtent` the code that `maybe-transient-reduce` and
`emit-dx-call` put under a guard, `slot` the slot a keyword read of a typed value becomes. The
fallback of `emit-dx-call` keeps the code of its arguments, which the source emits anew. An
error of the emitter is code that evaluates to nothing.
-/
import Fol.Emit.Names

namespace Fol.Threading

open Fol.Escape Fol.Names

/-! ## §1 Code -/

/-- What an operator is asked at run time: `functionp`, or `typep` of a collection class. -/
inductive Kind where
  | function
  | dict
  | vector
  | set
deriving DecidableEq

inductive Sexp where
  | sym (s : Symbol)
  | literal (l : Literal)
  | temp
  | quoted (s : Symbol)
  | fboundp (x : Sexp)
  | guard (region : List String)
  | isA (k : Kind)
  | fail
  | list (xs : List Sexp)

def cl (name : String) : Symbol := ⟨name, "COMMON-LISP"⟩

/-- `fol.compiler.collection-functions`. -/
def collection (name : String) : Symbol := ⟨name, "FOL.COMPILER.COLLECTION-FUNCTIONS"⟩

namespace Sexp

/-- `(f args…)`. -/
def form (f : Symbol) (args : List Sexp) : Sexp := .list (.sym f :: args)

/-- `(if test thn els)`. -/
def ifForm (test thn els : Sexp) : Sexp := form (cl "IF") [test, thn, els]

def quit : Sexp := form (cl "ERROR") [.literal (.str "~S is not callable or a collection"), .temp]

/-- `((typep g 'kind) (reader g args…))`. -/
def clause (k : Kind) (reader : Symbol) (args : List Sexp) : Sexp :=
  .list [.isA k, form reader (.temp :: args)]

/-- `(let ((g op)) (cond ((functionp g) (funcall g args…)) readers… (t (error …))))`. -/
def dispatch (op : Sexp) (args : List Sexp) (readers : List Sexp) : Sexp :=
  form (cl "LET") [.list [.list [.temp, op]],
    form (cl "COND") (clause .function (cl "FUNCALL") args :: readers ++
      [.list [.literal (.bool true), quit]])]

end Sexp

/-! ## §2 Emission -/

/-- Where a node is emitted, and with which optimisations. -/
structure Emitter where
  setting : Setting
  world : World
  tables : Tables
  sealed : Bool
  slot : Ast → String → Option (String × Symbol)
  converted : Symbol → List Ast → Option (List String × Sexp)
  dynamicExtent : Symbol → List Ast → Option Sexp
  node : Ast → Sexp

/-- The code under a world guard, or alone in a sealed world. -/
def guarded (E : Emitter) (region : List String) (fast slow : Sexp) : Sexp :=
  if E.sealed then fast else .ifForm (.guard region) fast slow

/-- `emit-symbol-ref`. -/
def emitRef (E : Emitter) (s : Symbol) : Sexp :=
  match emitSymbolRef E.setting E.world E.tables s with
  | .bare => .sym s
  | .function => .form (cl "FUNCTION") [.sym s]

/-- The clauses for collections, which take one or two arguments. -/
def readers (args : List Sexp) : List Sexp :=
  if args.length = 1 ∨ args.length = 2 then
    [.clause .dict (collection "GET") args, .clause .vector (collection "NTH") args,
      .clause .set (collection "GET") args]
  else []

/-- A read of a keyword: the slot, if the class of the value is known. -/
def emitGet (E : Emitter) (object : Ast) (key : String) (code : Sexp) (args : List Sexp) : Sexp :=
  match E.slot object key with
  | some (cls, slot) =>
    .ifForm (.guard [cls]) (.form (cl "SLOT-VALUE") [code, .quoted slot])
      (.form (collection "GET") args)
  | none => .form (collection "GET") args

/-- `(get object :key)`. -/
def getRead (s : Symbol) (args : List Ast) : Option (Ast × String) :=
  match args with
  | [object, .literal (.keyword key)] => if s.name = "GET" then some (object, key) else none
  | _ => none

/-- `emit-call-1` for a symbol in neither table. -/
def emitGlobalCall (E : Emitter) (s : Symbol) (args : List Ast) (codes : List Sexp) : Sexp :=
  match getRead s args with
  | some (object, key) => emitGet E object key (codes.headD .fail) codes
  | none =>
    match globalOperator E.setting E.world s args with
    | .call f => .form f codes
    | _ => .ifForm (.fboundp (.sym s)) (.form s codes) (.dispatch (.sym s) codes (readers codes))

/-- `emit-call-1` after the test for `emit-dx-call`, from the codes of the operator and of
the arguments. -/
def emitCall1 (E : Emitter) (op : Ast) (args : List Ast) (opCode : Sexp) (codes : List Sexp) :
    Sexp :=
  match op with
  | .literal (.keyword key) =>
    match args, codes with
    | [object], [code] => emitGet E object key code [code, opCode]
    | _, _ => .form (cl "FUNCALL") (opCode :: codes)
  | .symbolRef s =>
    if s ∈ E.tables.letfnFns then .form s codes
    else if s ∈ E.tables.lexicalVars then .dispatch (.sym s) codes (readers codes)
    else emitGlobalCall E s args codes
  | .set _ => .form (collection "GET") (opCode :: codes)
  | .dict _ => .form (collection "GET") (opCode :: codes)
  | .vector _ => .form (collection "NTH") (opCode :: codes)
  | .fn _ _ => .form (cl "FUNCALL") (opCode :: codes)
  | .call _ _ => .form (cl "FUNCALL") (opCode :: codes)
  | .literal _ => .form (cl "FUNCALL") (opCode :: codes)
  | _ => .fail

/-- `emit-call-1`: a closure in the first argument may be stack allocated. -/
def emitDx (E : Emitter) (op : Ast) (args : List Ast) (slow : Sexp) : Sexp :=
  match op with
  | .symbolRef s =>
    match E.dynamicExtent s args with
    | some fast => guarded E [s.name] fast slow
    | none => slow
  | _ => slow

/-- `emit-call`: a reduce may become one over a transient. -/
def emitCall (E : Emitter) (op : Ast) (args : List Ast) (opCode : Sexp) (codes : List Sexp) :
    Sexp :=
  let slow := emitDx E op args (emitCall1 E op args opCode codes)
  match op with
  | .symbolRef s =>
    match E.converted s args with
    | some (region, fast) => guarded E region fast slow
    | none => slow
  | _ => slow

mutual

/-- `emit-node`, for calls and their operands. -/
def emitNode (E : Emitter) : Ast → Sexp
  | .literal l => .literal l
  | .symbolRef s => emitRef E s
  | .call op args => emitCall E op args (emitNode E op) (emitNodes E args)
  | .vector elements => .form (collection "VECTOR") (emitNodes E elements)
  | .set elements => .form (collection "SET") (emitNodes E elements)
  | .dict entries => .form (collection "DICT") (emitEntries E entries)
  | n => E.node n

def emitNodes (E : Emitter) : List Ast → List Sexp
  | [] => []
  | n :: ns => emitNode E n :: emitNodes E ns

def emitEntries (E : Emitter) : List (Ast × Ast) → List Sexp
  | [] => []
  | (k, v) :: es => emitNode E k :: emitNode E v :: emitEntries E es

end

/-! ## §3 Threading -/

/-- `->` and `->>`. -/
inductive Side where
  | first
  | last
deriving DecidableEq

def Side.insert {α : Type} (side : Side) (a : α) (as : List α) : List α :=
  match side with
  | .first => a :: as
  | .last => as ++ [a]

/-- A symbol, or the name in a `(cl:function name)`. Keywords, NIL and T are symbols. -/
def stepSymbol : Sexp → Option Sexp
  | .sym s => some (.sym s)
  | .literal (.keyword k) => some (.literal (.keyword k))
  | .literal .nil => some (.literal .nil)
  | .literal (.bool b) => some (.literal (.bool b))
  | .list (.sym f :: x :: _) => if f = cl "FUNCTION" then some x else none
  | _ => none

/-- The call of a step that is a symbol. -/
def dispatchStep (x acc : Sexp) : Sexp :=
  .ifForm (.fboundp x) (.list [x, acc])
    (.dispatch x [acc]
      [.clause .dict (collection "GET") [acc], .clause .vector (collection "NTH") [acc]])

/-- The accumulated code spliced into the code of a step. -/
def emitStep (side : Side) (acc emitted : Sexp) : Sexp :=
  match stepSymbol emitted with
  | some x => dispatchStep x acc
  | none =>
    match emitted with
    | .list (head :: args) => .list (head :: side.insert acc args)
    | .fail => .fail
    | _ => .form (cl "FUNCALL") [emitted, acc]

/-- `emit-thread-first` and `emit-thread-last`. -/
def emitThread (E : Emitter) (side : Side) (x : Ast) (steps : List Ast) : Sexp :=
  steps.foldl (fun acc step => emitStep side acc (emitNode E step)) (emitNode E x)

/-- The call a step stands for. -/
def nestedCall (side : Side) (acc step : Ast) : Ast :=
  match step with
  | .call op args => .call op (side.insert acc args)
  | _ => .call step [acc]

/-- The nested calls. -/
def nested (side : Side) (x : Ast) (steps : List Ast) : Ast := steps.foldl (nestedCall side) x

/-! ## §4 Evaluation -/

/-- The local variables and functions. -/
structure Env (V : Type) where
  vars : Symbol → Option V
  functions : Symbol → Option V

/-- The functions the emitter calls by itself. -/
def libraryFunctions : List Symbol :=
  [cl "FUNCALL", cl "SLOT-VALUE", collection "GET", collection "NTH"]

/-- The image the code runs in. `special` is the meaning of the other special operators and
of the macros, which take their forms unevaluated. -/
structure Machine (V S : Type) where
  literal : Literal → V
  symbol : Symbol → V
  truthy : V → Bool
  isA : Kind → V → Bool
  value : Symbol → S → Option V
  function : Symbol → S → Option V
  fbound : Symbol → S → Bool
  valid : List String → S → Bool
  apply : Symbol → List V → S → Option (V × S)
  applyValue : V → List V → S → Option (V × S)
  closure : Env V → List Sexp → V
  special : Symbol → Option (Env V → Option V → List Sexp → S → Option (V × S))
  truthy_bool : ∀ b, truthy (literal (.bool b)) = b
  library : ∀ f ∈ libraryFunctions, special f = none

section

variable {V S : Type} (M : Machine V S) (ρ : Env V)

/-- A call of a named function: a local one, or the global one. -/
def invoke (f : Symbol) (vs : List V) (σ : S) : Option (V × S) :=
  match ρ.functions f with
  | some g => M.applyValue g vs σ
  | none => if f = cl "ERROR" then none else M.apply f vs σ

def truth (b : Bool) (σ : S) : Option (V × S) := some (M.literal (.bool b), σ)

/-- The operators `eval` knows; they are no function names. -/
def operators : List Symbol := [cl "IF", cl "LET", cl "COND", cl "FUNCTION", cl "LAMBDA"]

/-- The name of a test: is the function there? -/
def fboundpOf (x : Sexp) (σ : S) : Bool :=
  match x with
  | .sym s => M.fbound s σ
  | _ => false

/-- `(function name)`. -/
def functionValue (args : List Sexp) (σ : S) : Option (V × S) :=
  match args with
  | [.sym s] => ((ρ.functions s).or (M.function s σ)).map fun v => (v, σ)
  | _ => none

/-- `(lambda params body…)`. -/
def lambdaValue (args : List Sexp) (σ : S) : Option (V × S) :=
  match args with
  | .list params :: body => some (M.closure ρ (.list params :: body), σ)
  | _ => none

mutual

/-- The value of code, with the value of the gensym around it. A malformed form has none. -/
@[grind =] def eval (temp : Option V) : Sexp → S → Option (V × S)
  | .sym s, σ => ((ρ.vars s).or (M.value s σ)).map fun v => (v, σ)
  | .literal l, σ => some (M.literal l, σ)
  | .temp, σ => temp.map fun v => (v, σ)
  | .quoted s, σ => some (M.symbol s, σ)
  | .fboundp x, σ => truth M (fboundpOf M x σ) σ
  | .guard region, σ => truth M (M.valid region σ) σ
  | .isA k, σ => temp.bind fun v => truth M (M.isA k v) σ
  | .fail, _ => none
  | .list [], σ => some (M.literal .nil, σ)
  | .list (.sym f :: args), σ =>
    if f = cl "IF" then evalIf temp args σ
    else if f = cl "LET" then evalLet temp args σ
    else if f = cl "COND" then evalCond temp args σ
    else if f = cl "FUNCTION" then functionValue M ρ args σ
    else if f = cl "LAMBDA" then lambdaValue M ρ args σ
    else
      match M.special f with
      | some meaning => meaning ρ temp args σ
      | none => (evalList temp args σ).bind fun p => invoke M ρ f p.1 p.2
  | .list (_ :: _), _ => none

/-- `(if test thn els)`. -/
def evalIf (temp : Option V) : List Sexp → S → Option (V × S)
  | [test, thn, els], σ => (eval temp test σ).bind fun p =>
    if M.truthy p.1 then eval temp thn p.2 else eval temp els p.2
  | _, _ => none

/-- `(let ((g init)) body…)`. -/
def evalLet (temp : Option V) : List Sexp → S → Option (V × S)
  | .list [.list [.temp, init]] :: body, σ => (eval temp init σ).bind fun p =>
    evalBody (some p.1) body p.2
  | args, σ => (M.special (cl "LET")).bind fun meaning => meaning ρ temp args σ

def evalBody (temp : Option V) : List Sexp → S → Option (V × S)
  | [], σ => some (M.literal .nil, σ)
  | [x], σ => eval temp x σ
  | x :: xs, σ => (eval temp x σ).bind fun p => evalBody temp xs p.2

/-- `(cond clauses…)`. -/
def evalCond (temp : Option V) : List Sexp → S → Option (V × S)
  | [], σ => some (M.literal .nil, σ)
  | .list [test, x] :: clauses, σ => (eval temp test σ).bind fun p =>
    if M.truthy p.1 then eval temp x p.2 else evalCond temp clauses p.2
  | _, _ => none

def evalList (temp : Option V) : List Sexp → S → Option (List V × S)
  | [], σ => some ([], σ)
  | x :: xs, σ => (eval temp x σ).bind fun p =>
    (evalList temp xs p.2).map fun q => (p.1 :: q.1, q.2)

end

end

end Fol.Threading
