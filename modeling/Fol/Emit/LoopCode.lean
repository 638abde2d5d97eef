/-
Fol.Emit.LoopCode — loops, recur and closures as `compiler.lisp` emits them, the code they
become, and the two readings of a loop.

The source forms are those that bind variables, make closures, jump and branch; a call of
a global function or a collection literal is a primitive applied to its arguments, whose
meaning is a parameter. `*current-loop-context*` is the argument `ctx` of `emit`: the tag and
the variables of the loop being emitted, which `emit-fn` does not bind anew. The value of
`loop-counter` is part of the source form, and RESULT-n, which only carries the value of
the body to the `return-from`, is left out. A closure keeps its body as source, with the
context its code was emitted in.

A variable is a location. A location keeps every value it was given, oldest first, and a
scope names one of them, the value of its own iteration. The emitted code reads the last
value; under the reading as a recursive function every iteration has variables of its own,
so a scope reads the value it names.

An error of the emitter is code that no run passes. Fuel is spent by calls and by iterations
after the first.
-/
import Fol.Escape.Ast

namespace Fol.Loops

open Fol.Escape

/-! ## §1 Source -/

inductive Expr where
  | const (n : Int)
  | var (s : Symbol)
  | prim (op : Symbol) (args : List Expr)
  | ifNode (test thn els : Expr)
  | doNode (first rest : Expr)
  | bind (s : Symbol) (init body : Expr)
  | fn (params : List Symbol) (body : Expr)
  | call (op : Expr) (args : List Expr)
  | loop (tag : Nat) (names : List Symbol) (inits : List Expr) (body : Expr)
  | recur (args : List Expr)

/-- `*current-loop-context*`: the tag, which stands for the block name too, and the names. -/
abbrev LoopContext := Option (Nat × List Symbol)

/-! ## §2 Code -/

inductive Code where
  | const (n : Int)
  | var (s : Symbol)
  | prim (op : Symbol) (args : List Code)
  | ifCode (test thn els : Code)
  | progn (first rest : Code)
  | letCode (names : List Symbol) (inits : List Code) (body : Code)
  | lambda (params : List Symbol) (ctx : LoopContext) (body : Expr)
  | funcall (op : Code) (args : List Code)
  | block (name : Nat) (body : Code)
  | tagbody (tag : Nat) (body : Code)
  | returnFrom (name : Nat) (value : Code)
  | psetq (names : List Symbol) (values : List Code)
  | go (tag : Nat)
  | error

/-- `emit-loop-1`, from the code of the initialisers and of the body. -/
def emitLoop1 (tag : Nat) (names : List Symbol) (inits : List Code) (body : Code) : Code :=
  .block tag (.letCode names inits (.tagbody tag (.returnFrom tag body)))

/-- `emit-recur`, from the code of the arguments. -/
def emitRecur (ctx : LoopContext) (args : List Code) : Code :=
  match ctx with
  | none => .error
  | some (tag, names) =>
    if args.length = names.length then .progn (.psetq names args) (.go tag) else .error

mutual

/-- `emit-node`. The initialisers of a loop are emitted in the context of its body. -/
def emit (ctx : LoopContext) : Expr → Code
  | .const n => .const n
  | .var s => .var s
  | .prim op args => .prim op (emitList ctx args)
  | .ifNode test thn els => .ifCode (emit ctx test) (emit ctx thn) (emit ctx els)
  | .doNode first rest => .progn (emit ctx first) (emit ctx rest)
  | .bind s init body => .letCode [s] [emit ctx init] (emit ctx body)
  | .fn params body => .lambda params ctx body
  | .call op args => .funcall (emit ctx op) (emitList ctx args)
  | .loop tag names inits body =>
    emitLoop1 tag names (emitList (some (tag, names)) inits) (emit (some (tag, names)) body)
  | .recur args => emitRecur ctx (emitList ctx args)

def emitList (ctx : LoopContext) : List Expr → List Code
  | [] => []
  | e :: es => emit ctx e :: emitList ctx es

end

/-- Induction over forms with one hypothesis for all arguments of a form. -/
@[elab_as_elim, induction_eliminator]
theorem Expr.induction {motive : Expr → Prop}
    (const : ∀ n, motive (.const n))
    (var : ∀ s, motive (.var s))
    (prim : ∀ op args, (∀ a ∈ args, motive a) → motive (.prim op args))
    (ifNode : ∀ test thn els, motive test → motive thn → motive els → motive (.ifNode test thn els))
    (doNode : ∀ first rest, motive first → motive rest → motive (.doNode first rest))
    (bind : ∀ s init body, motive init → motive body → motive (.bind s init body))
    (fn : ∀ params body, motive (.fn params body))
    (call : ∀ op args, motive op → (∀ a ∈ args, motive a) → motive (.call op args))
    (loop : ∀ tag names inits body, (∀ e ∈ inits, motive e) → motive body →
      motive (.loop tag names inits body))
    (recur : ∀ args, (∀ a ∈ args, motive a) → motive (.recur args))
    (e : Expr) : motive e :=
  Expr.rec (motive_1 := motive) (motive_2 := fun es => ∀ e ∈ es, motive e)
    const var prim ifNode doNode bind (fun params body _ => fn params body) call loop recur
    (fun _ h => absurd h List.not_mem_nil) (fun _ _ he hes => List.forall_mem_cons.mpr ⟨he, hes⟩) e

/-! ## §3 States -/

/-- A value of a location: its place in the history. -/
structure Cell where
  location : Nat
  version : Nat
deriving DecidableEq

structure Env where
  vars : List (Symbol × Cell)
  tags : List (Nat × Nat)
  blocks : List (Nat × Nat)

inductive Value where
  | nil
  | int (n : Int)
  | tuple (vs : List Value)
  | closure (params : List Symbol) (body : Expr) (env : Env) (ctx : LoopContext)

/-- The histories of the locations, the number of blocks and tagbodies entered, and the
locations of the last `psetq`. -/
structure State where
  cells : List (List Value)
  activations : Nat
  assigned : List Nat

/-- How an evaluation ends: with a value, in a jump to a running loop, or in no proper way. -/
inductive Result (α : Type) where
  | ok (a : α) (σ : State)
  | again (id : Nat) (σ : State)
  | astray
  | stuck
  | timeout

def Result.bind {α β : Type} (r : Result α) (k : α → State → Result β) : Result β :=
  match r with
  | .ok a σ => k a σ
  | .again id σ => .again id σ
  | .astray => .astray
  | .stuck => .stuck
  | .timeout => .timeout

/-- Away from tail position no jump is regular. -/
def Result.strict {α : Type} : Result α → Result α
  | .again _ _ => .astray
  | r => r

def Result.ofOption {α : Type} (o : Option α) (σ : State) : Result α :=
  match o with
  | some a => .ok a σ
  | none => .stuck

namespace State

/-- New locations with these first values. -/
def alloc (σ : State) (vs : List Value) : State :=
  { σ with cells := σ.cells ++ vs.map fun v => [v] }

def assignCells (cells : List (List Value)) : List Nat → List Value → List (List Value)
  | l :: ls, v :: vs => assignCells (cells.modify l (· ++ [v])) ls vs
  | _, _ => cells

/-- The locations give up the values they had for these. -/
def assign (σ : State) (locations : List Nat) (vs : List Value) : State :=
  { σ with cells := assignCells σ.cells locations vs, assigned := locations }

/-- A block or a tagbody is entered; its number is the count before. -/
def enter (σ : State) : State := { σ with activations := σ.activations + 1 }

/-- The version of the last value of a location. -/
def newest (σ : State) (l : Nat) : Nat := (σ.cells.getD l []).length - 1

/-- What the emitted code reads. -/
def last (σ : State) (c : Cell) : Option Value := (σ.cells.getD c.location []).getLast?

/-- What the scope names. -/
def own (σ : State) (c : Cell) : Option Value := (σ.cells.getD c.location [])[c.version]?

end State

namespace Env

/-- Variables at the locations allocated next. -/
def lets (ρ : Env) (σ : State) (names : List Symbol) : Env :=
  { ρ with vars := (names.zipIdx σ.cells.length).map (fun p => (p.1, ⟨p.2, 0⟩)) ++ ρ.vars }

/-- The scope of the next iteration: of the locations just assigned it names the last values. -/
def next (ρ : Env) (σ : State) : Env :=
  { ρ with vars := ρ.vars.map fun p =>
      if p.2.location ∈ σ.assigned then (p.1, ⟨p.2.location, σ.newest p.2.location⟩) else p }

def enterBlock (ρ : Env) (name id : Nat) : Env := { ρ with blocks := (name, id) :: ρ.blocks }

def enterTag (ρ : Env) (tag id : Nat) : Env := { ρ with tags := (tag, id) :: ρ.tags }

/-- The locations the names have in the scope. -/
def locations (ρ : Env) (names : List Symbol) : Option (List Nat) :=
  names.mapM fun s => (ρ.vars.lookup s).map (·.location)

end Env

/-- What the primitives and the test of an `if` do. -/
structure Prims where
  apply : Symbol → List Value → Option Value
  truthy : Value → Bool

/-- A closure called, with its scope and the state: the arguments are new variables. -/
def enterCall (f : Value) (args : List Value) (σ : State) :
    Option (LoopContext × Env × Expr × State) :=
  match f with
  | .closure params body env ctx =>
    if params.length = args.length then some (ctx, env.lets σ params, body, σ.alloc args) else none
  | _ => none

/-! ## §4 Emitted -/

/-- Evaluation of code may also end in a return from a block. -/
inductive CodeResult (α : Type) where
  | of (r : Result α)
  | returned (id : Nat) (v : Value) (σ : State)

def CodeResult.bind {α β : Type} (r : CodeResult α) (k : α → State → CodeResult β) : CodeResult β :=
  match r with
  | .of (.ok a σ) => k a σ
  | .of (.again id σ) => .of (.again id σ)
  | .of .astray => .of .astray
  | .of .stuck => .of .stuck
  | .of .timeout => .of .timeout
  | .returned id v σ => .returned id v σ

/-- What evaluation with less fuel does: calls, and the next round of a `tagbody`. -/
structure LowerCode where
  call : Value → List Value → State → CodeResult Value
  rerun : Code → Env → Nat → State → CodeResult Value

/-- Leaving a block catches the returns from it. -/
def catchReturn (id : Nat) : CodeResult Value → CodeResult Value
  | .returned id' v σ => if id' = id then .of (.ok v σ) else .returned id' v σ
  | r => r

/-- A `tagbody` catches the jumps to its tag, and returns NIL. -/
def catchGo (id : Nat) (rerun : State → CodeResult Value) : CodeResult Value → CodeResult Value
  | .of (.again id' σ) => if id' = id then rerun σ else .of (.again id' σ)
  | .of (.ok _ σ) => .of (.ok .nil σ)
  | r => r

mutual

/-- The meaning of emitted code in CL. -/
def evalCode (P : Prims) (low : LowerCode) (ρ : Env) : Code → State → CodeResult Value
  | .const n, σ => .of (.ok (.int n) σ)
  | .var s, σ => .of (.ofOption ((ρ.vars.lookup s).bind σ.last) σ)
  | .prim op args, σ => (evalCodes P low ρ args σ).bind fun vs σ =>
      .of (.ofOption (P.apply op vs) σ)
  | .ifCode test thn els, σ => (evalCode P low ρ test σ).bind fun v σ =>
    if P.truthy v then evalCode P low ρ thn σ else evalCode P low ρ els σ
  | .progn first rest, σ => (evalCode P low ρ first σ).bind fun _ σ => evalCode P low ρ rest σ
  | .letCode names inits body, σ => (evalCodes P low ρ inits σ).bind fun vs σ =>
    evalCode P low (ρ.lets σ names) body (σ.alloc vs)
  | .lambda params ctx body, σ => .of (.ok (.closure params body ρ ctx) σ)
  | .funcall op args, σ => (evalCode P low ρ op σ).bind fun f σ =>
    (evalCodes P low ρ args σ).bind fun vs σ => low.call f vs σ
  | .block name body, σ =>
    catchReturn σ.activations (evalCode P low (ρ.enterBlock name σ.activations) body σ.enter)
  | .tagbody tag body, σ =>
    catchGo σ.activations (low.rerun body (ρ.enterTag tag σ.activations) σ.activations)
      (evalCode P low (ρ.enterTag tag σ.activations) body σ.enter)
  | .returnFrom name value, σ => (evalCode P low ρ value σ).bind fun v σ =>
    match ρ.blocks.lookup name with
    | some id => .returned id v σ
    | none => .of .stuck
  | .psetq names values, σ => (evalCodes P low ρ values σ).bind fun vs σ =>
    match ρ.locations names with
    | some ls => .of (.ok .nil (σ.assign ls vs))
    | none => .of .stuck
  | .go tag, σ =>
    match ρ.tags.lookup tag with
    | some id => .of (.again id σ)
    | none => .of .stuck
  | .error, _ => .of .stuck

def evalCodes (P : Prims) (low : LowerCode) (ρ : Env) : List Code → State → CodeResult (List Value)
  | [], σ => .of (.ok [] σ)
  | c :: cs, σ => (evalCode P low ρ c σ).bind fun v σ =>
    (evalCodes P low ρ cs σ).bind fun vs σ => .of (.ok (v :: vs) σ)

end

/-- Evaluation of code with this much fuel. The body of a closure is emitted in the context
of the closure. -/
def codeLevel (P : Prims) : Nat → LowerCode
  | 0 => ⟨fun _ _ _ => .of .timeout, fun _ _ _ _ => .of .timeout⟩
  | n + 1 =>
    { call := fun f vs σ =>
        match enterCall f vs σ with
        | some (ctx, ρ, body, σ) => evalCode P (codeLevel P n) ρ (emit ctx body) σ
        | none => .of .stuck
      rerun := fun body ρ id σ =>
        catchGo id ((codeLevel P n).rerun body ρ id)
          (evalCode P (codeLevel P n) (ρ.next σ) body σ) }

/-! ## §5 Recursive -/

/-- A loop that is running, as a local function: what a recur form calls. -/
structure Frame where
  id : Nat
  tag : Nat
  names : List Symbol
  locations : List Nat
  body : Expr
  env : Env

structure LowerExpr where
  call : Value → List Value → State → Result Value
  resume : Frame → State → Result Value

/-- A loop begun: its variables have their first values. The block and the tagbody of the
emitted code count, so that the two readings number alike. -/
def beginLoop (tag : Nat) (names : List Symbol) (body : Expr) (ρ : Env) (vs : List Value)
    (σ : State) :
    Frame × State :=
  let σ' := σ.alloc vs
  (⟨σ'.activations, tag, names, List.range' σ.cells.length names.length, body,
    (ρ.lets σ names).enterTag tag σ'.activations⟩, σ'.enter)

mutual

/-- The source with loops as recursive functions. -/
def evalRec (P : Prims) (low : LowerExpr) (ctx : LoopContext) (frame : Option Frame) (ρ : Env) :
    Expr → State → Result Value
  | .const n, σ => .ok (.int n) σ
  | .var s, σ => .ofOption ((ρ.vars.lookup s).bind σ.own) σ
  | .prim op args, σ => (evalRecs P low ctx frame ρ args σ).bind fun vs σ =>
      .ofOption (P.apply op vs) σ
  | .ifNode test thn els, σ => (evalRec P low ctx frame ρ test σ).bind fun v σ =>
    if P.truthy v then evalRec P low ctx frame ρ thn σ else evalRec P low ctx frame ρ els σ
  | .doNode first rest, σ => (evalRec P low ctx frame ρ first σ).bind fun _ σ =>
    evalRec P low ctx frame ρ rest σ
  | .bind s init body, σ => (evalRec P low ctx frame ρ init σ).bind fun v σ =>
    evalRec P low ctx frame (ρ.lets σ [s]) body (σ.alloc [v])
  | .fn params body, σ => .ok (.closure params body ρ ctx) σ
  | .call op args, σ => (evalRec P low ctx frame ρ op σ).bind fun f σ =>
    (evalRecs P low ctx frame ρ args σ).bind fun vs σ => low.call f vs σ
  | .loop tag names inits body, σ =>
    let ρ := ρ.enterBlock tag σ.activations
    (evalRecs P low (some (tag, names)) frame ρ inits σ.enter).bind fun vs σ =>
      let (f, σ) := beginLoop tag names body ρ vs σ
      evalRec P low (some (tag, names)) (some f) f.env body σ
  | .recur args, σ =>
    match frame with
    | some f =>
      if args.length = f.names.length then
        (evalRecs P low ctx frame ρ args σ).bind fun vs σ => low.resume f (σ.assign f.locations vs)
      else .stuck
    | none => .stuck

def evalRecs (P : Prims) (low : LowerExpr) (ctx : LoopContext) (frame : Option Frame) (ρ : Env) :
    List Expr → State → Result (List Value)
  | [], σ => .ok [] σ
  | e :: es, σ => (evalRec P low ctx frame ρ e σ).bind fun v σ =>
    (evalRecs P low ctx frame ρ es σ).bind fun vs σ => .ok (v :: vs) σ

end

/-- A closure is outside the loop it was made in: a recur form of its own body has no loop. -/
def recLevel (P : Prims) : Nat → LowerExpr
  | 0 => ⟨fun _ _ _ => .timeout, fun _ _ => .timeout⟩
  | n + 1 =>
    { call := fun f vs σ =>
        match enterCall f vs σ with
        | some (ctx, ρ, body, σ) => evalRec P (recLevel P n) ctx none ρ body σ
        | none => .stuck
      resume := fun f σ => evalRec P (recLevel P n) (some (f.tag, f.names)) (some f) (f.env.next σ)
        f.body σ }

/-! ## §6 Steady -/

/-- The next iteration, after a jump to the loop. -/
def continueLoop (low : LowerExpr) (f : Frame) : Result Value → Result Value
  | .again id σ => if id = f.id then (low.resume f σ).strict else .astray
  | r => r

/-- What a variable reads, if its scope names the last value of the location. -/
def readSteady (ρ : Env) (s : Symbol) (σ : State) : Result Value :=
  match ρ.vars.lookup s with
  | some c => if c.version = σ.newest c.location then .ofOption (σ.own c) σ else .astray
  | none => .stuck

mutual

/-- Both readings at once. The run goes astray at a read of a variable of another iteration,
at a recur form that is not in tail position, has no loop in its own function, or is under
another binding of a name of its loop. -/
def evalSteady (P : Prims) (low : LowerExpr) (ctx : LoopContext) (frame : Option Frame) (ρ : Env) :
    Expr → State → Result Value
  | .const n, σ => .ok (.int n) σ
  | .var s, σ => readSteady ρ s σ
  | .prim op args, σ =>
    (evalSteadys P low ctx frame ρ args σ).bind fun vs σ => .ofOption (P.apply op vs) σ
  | .ifNode test thn els, σ => (evalSteady P low ctx frame ρ test σ).strict.bind fun v σ =>
    if P.truthy v then evalSteady P low ctx frame ρ thn σ else evalSteady P low ctx frame ρ els σ
  | .doNode first rest, σ => (evalSteady P low ctx frame ρ first σ).strict.bind fun _ σ =>
    evalSteady P low ctx frame ρ rest σ
  | .bind s init body, σ => (evalSteady P low ctx frame ρ init σ).strict.bind fun v σ =>
    evalSteady P low ctx frame (ρ.lets σ [s]) body (σ.alloc [v])
  | .fn params body, σ => .ok (.closure params body ρ ctx) σ
  | .call op args, σ => (evalSteady P low ctx frame ρ op σ).strict.bind fun f σ =>
    (evalSteadys P low ctx frame ρ args σ).bind fun vs σ => (low.call f vs σ).strict
  | .loop tag names inits body, σ =>
    let ρ := ρ.enterBlock tag σ.activations
    (evalSteadys P low (some (tag, names)) none ρ inits σ.enter).bind fun vs σ =>
      let (f, σ) := beginLoop tag names body ρ vs σ
      continueLoop low f (evalSteady P low (some (tag, names)) (some f) f.env body σ)
  | .recur args, σ =>
    match frame with
    | some f =>
      if args.length = f.names.length then
        (evalSteadys P low ctx frame ρ args σ).bind fun vs σ =>
          if ρ.locations f.names = some f.locations then .again f.id (σ.assign f.locations vs)
          else .astray
      else .stuck
    | none => .astray

def evalSteadys (P : Prims) (low : LowerExpr) (ctx : LoopContext) (frame : Option Frame) (ρ : Env) :
    List Expr → State → Result (List Value)
  | [], σ => .ok [] σ
  | e :: es, σ => (evalSteady P low ctx frame ρ e σ).strict.bind fun v σ =>
    (evalSteadys P low ctx frame ρ es σ).bind fun vs σ => .ok (v :: vs) σ

end

def steadyLevel (P : Prims) : Nat → LowerExpr
  | 0 => ⟨fun _ _ _ => .timeout, fun _ _ => .timeout⟩
  | n + 1 =>
    { call := fun f vs σ =>
        match enterCall f vs σ with
        | some (ctx, ρ, body, σ) => evalSteady P (steadyLevel P n) ctx none ρ body σ
        | none => .stuck
      resume := fun f σ => continueLoop (steadyLevel P n) f
        (evalSteady P (steadyLevel P n) (some (f.tag, f.names)) (some f) (f.env.next σ) f.body σ) }

end Fol.Loops
