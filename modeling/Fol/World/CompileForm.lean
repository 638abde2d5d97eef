/-
Fol.World.CompileForm — `compile-form` of `compiler.lisp` on the top-level forms that
define functions, and what evaluating the code it returns does to the image.

The model keeps what the tables, the guards and the notifications depend on. Of the
emitted code it has the choice between the fast and the fallback form, the notification
around it, and the definitions in it; a definition is known by the node it was emitted
from. `functionValued` says which expressions give a function when they are evaluated.
-/
import Fol.Escape.IntraBind
import Fol.Escape.Conversion
import Fol.World.Registry

namespace Fol.CompileForm

open Fol.Escape Fol.Regions

/-! ## §1 Forms -/

abbrev Clauses := List (Params × List Ast)

/-- `defn-node`, `defn-private-node`, `definline-node`. -/
inductive DefnType where
  | defn
  | defnPrivate
  | definline
deriving DecidableEq

inductive TopLevel where
  | function (type : DefnType) (name : Symbol) (clauses : Clauses)
  | defmethod (name : Symbol) (clauses : Clauses)
  | defgeneric (name : Symbol) (lambdaLists : List Params)
  | defVar (name : Symbol) (value : Option Ast)
  | doNode (body : List TopLevel)
  | expression (node : Ast)

/-- Induction over forms with one hypothesis for the forms of a `do`. -/
@[elab_as_elim, induction_eliminator]
theorem TopLevel.induction {motive : TopLevel → Prop}
    (function : ∀ type name clauses, motive (.function type name clauses))
    (defmethod : ∀ name clauses, motive (.defmethod name clauses))
    (defgeneric : ∀ name lambdaLists, motive (.defgeneric name lambdaLists))
    (defVar : ∀ name value, motive (.defVar name value))
    (doNode : ∀ body, (∀ n ∈ body, motive n) → motive (.doNode body))
    (expression : ∀ node, motive (.expression node)) (form : TopLevel) : motive form :=
  TopLevel.rec (motive_1 := motive) (motive_2 := fun ns => ∀ n ∈ ns, motive n)
    function defmethod defgeneric defVar doNode expression
    (fun _ h => absurd h List.not_mem_nil) (fun _ _ h hs => List.forall_mem_cons.mpr ⟨h, hs⟩) form

/-! ## §2 Image -/

/-- A function: the node its definition was emitted from, and whether it is generic. -/
structure Definition where
  node : TopLevel
  generic : Bool := false

inductive Event where
  /-- The function a name denotes has changed. -/
  | changed (name : Symbol)
  /-- `note-redefinition` has been called. -/
  | noted (name : Symbol)
deriving DecidableEq

structure Image where
  /-- The registry of regions, and `*inferred-summaries*`. -/
  world : World := {}
  /-- The other tables of the escape analysis. -/
  tables : Env := {}
  /-- `*sr-inlinable-fns*` -/
  srInlinableFns : Symbol → Option (List Symbol × Ast) := fun _ => none
  /-- The function cells. -/
  function : Symbol → Option Definition := fun _ => none
  /-- `boundp` -/
  bound : Symbol → Bool := fun _ => false
  /-- Has the form being evaluated signalled an error? -/
  aborted : Bool := false
  /-- What evaluating the form has done so far. -/
  log : List Event := []

namespace Image

variable (img : Image)

/-- The tables as the analysis sees them. -/
def env : Env := { img.tables with inferred := img.world.inferred }

def setInferred (name : Symbol) (summary : EscapeSummary) : Image :=
  { img with world := { img.world with
      inferred := fun s => if s = name then some summary else img.world.inferred s } }

/-- A new function cell. -/
def install (name : Symbol) (d : Definition) : Image :=
  { img with
    function := fun s => if s = name then some d else img.function s
    log := img.log ++ [.changed name] }

/-- Is there an ordinary function of this name? `defmethod` and `defgeneric` signal an
error then. -/
def ordinaryFunction (name : Symbol) : Bool := (img.function name).any (!·.generic)

/-- `defvar`: an unbound variable is initialised. A name with a function keeps denoting
that function. -/
def defvar (functionValued : Ast → Bool) (name : Symbol) (value : Option Ast) : Image :=
  match value with
  | none => img
  | some v =>
    if img.bound name then img
    else
      { img with
        bound := fun s => s = name || img.bound s
        log := if functionValued v ∧ (img.function name).isNone then img.log ++ [.changed name]
          else img.log }

mutual

/-- Evaluating what `emit-node` makes of a form. A single `defgeneric` pattern keeps a
generic function there is; several patterns are emitted as an ordinary dispatcher. -/
def evalNode (functionValued : Ast → Bool) (img : Image) : TopLevel → Image
  | .function type name clauses =>
    if img.aborted then img else img.install name { node := .function type name clauses }
  | .defmethod name clauses =>
    if img.aborted then img
    else if img.ordinaryFunction name then { img with aborted := true }
    else img.install name { node := .defmethod name clauses, generic := true }
  | .defgeneric name lambdaLists =>
    if img.aborted then img
    else if lambdaLists.length ≠ 1 then
      img.install name { node := .defgeneric name lambdaLists }
    else if img.ordinaryFunction name then { img with aborted := true }
    else if (img.function name).isSome then img
    else img.install name { node := .defgeneric name lambdaLists, generic := true }
  | .defVar name value => if img.aborted then img else img.defvar functionValued name value
  | .doNode body => evalNodes functionValued img body
  | .expression _ => img

def evalNodes (functionValued : Ast → Bool) (img : Image) : List TopLevel → Image
  | [] => img
  | n :: ns => evalNodes functionValued (evalNode functionValued img n) ns

end

end Image

/-! ## §3 Tables -/

mutual

/-- `%sr-peel-core`. -/
def srPeelCore : Ast → Ast
  | .bind bindings body => if body.length = 1 then srPeelLast body else .bind bindings body
  | .doNode body => if body.isEmpty then .doNode body else srPeelLast body
  | n => n

/-- `%sr-peel-core` on the last form of a body. -/
def srPeelLast : List Ast → Ast
  | [] => .literal .nil
  | [n] => srPeelCore n
  | _ :: ns => srPeelLast ns

end

/-- The shapes of a body core that `%sr-register-defn` accepts. -/
def srRegisterable (core : Ast) : Bool :=
  match core with
  | .ifNode _ _ _ | .cond _ | .case _ _ => true
  | core => (inferTypeFromConstructor core).isSome

/-- The parameters and the single expression of a single-clause function with plain
parameters. -/
def singleExpression : Clauses → Option (List Symbol × Ast)
  | [(params, body)] =>
    match params.names.mapM id, stripDocstring body with
    | some ps, [expr] => some (ps, expr)
    | _, _ => none
  | _ => none

/-- The entry `%sr-register-defn` makes, if any. -/
def srEntry (clauses : Clauses) : Option (List Symbol × Ast) :=
  (singleExpression clauses).filter fun entry => srRegisterable (srPeelCore entry.2)

/-- `%sr-register-defn`; an entry there is stays if the function does not qualify. -/
def srRegisterDefn (img : Image) (name : Symbol) (clauses : Clauses) : Image :=
  match srEntry clauses with
  | some entry =>
    { img with srInlinableFns := fun s => if s = name then some entry else img.srInlinableFns s }
  | none => img

mutual

/-- The `visit` of `sr-transform-toplevel`. -/
def srTransformToplevel (img : Image) : TopLevel → Image
  | .function _ name clauses => srRegisterDefn img name clauses
  | .doNode body => srTransformAll img body
  | _ => img

def srTransformAll (img : Image) : List TopLevel → Image
  | [] => img
  | n :: ns => srTransformAll (srTransformToplevel img n) ns

end

mutual

/-- The `visit` of `tr-transform-toplevel`; `none` if the classifier runs out of fuel. -/
def trTransformToplevel (fuel : Nat) (img : Image) : TopLevel → Option Image
  | .function _ name clauses =>
    (maybeRegisterInlinableHelper img.env fuel name clauses).map fun Γ => { img with tables := Γ }
  | .doNode body => trTransformAll fuel img body
  | _ => some img

def trTransformAll (fuel : Nat) (img : Image) : List TopLevel → Option Image
  | [] => some img
  | n :: ns => (trTransformToplevel fuel img n).bind fun img => trTransformAll fuel img ns

end

/-- The definitions `%maybe-infer-and-cache-summary` and the notification look at. -/
def TopLevel.definition? : TopLevel → Option (Symbol × Clauses)
  | .function _ name clauses => some (name, clauses)
  | .defmethod name clauses => some (name, clauses)
  | _ => none

/-- `%maybe-infer-and-cache-summary`, and whether it returns. For several clauses there is
no summary to join: without `recur` in them `summary-join` signals an error, after the
first assumption has been put in the table. -/
def maybeInferAndCacheSummary (flags : Flags) (img : Image) (node : TopLevel) : Image × Bool :=
  match flags.transientLoops, node.definition? with
  | true, some (name, clauses) =>
    match clauses with
    | [(params, body)] =>
        (img.setInferred name (inferSummary img.env (some name) params body), true)
    | clauses =>
      if containsRecur (.fn (some name) clauses) then (img, true)
      else
        let first := clauses.headD ({ elems := [] }, [])
        (img.setInferred name (optimisticSummary first.1 first.2), false)
  | _, _ => (img, true)

/-! ## §4 Code -/

mutual

/-- The `visit` of `sr-intra-bind-pass` on forms. Of the definitions only a `defn` is made
again from its children; what the children assume is collected from all. -/
def intraBindVisit (flags : Flags) (info : TypeInfo) (fuel : Nat) :
    TopLevel → Except Stop (Rewritten TopLevel)
  | .function type name clauses => do
    let kids ← srVisitList (srIntraBindVisit flags info fuel) (clauses.flatMap (·.2))
    let clauses := if type = .defn then Ast.reclause clauses kids.node else clauses
    return { kids with node := .function type name clauses }
  | .defmethod name clauses => do
    let kids ← srVisitList (srIntraBindVisit flags info fuel) (clauses.flatMap (·.2))
    return { kids with node := .defmethod name clauses }
  | .defgeneric name lambdaLists => return { node := .defgeneric name lambdaLists }
  | .defVar name value => do
    let kids ← srVisitList (srIntraBindVisit flags info fuel) value.toList
    return { kids with node := .defVar name value }
  | .doNode body => do
    let kids := Rewritten.gather (← intraBindVisitAll flags info fuel body)
    return { kids with node := .doNode kids.node }
  | .expression node => do
    let out ← srIntraBindVisit flags info fuel node
    return { out with node := .expression out.node }

def intraBindVisitAll (flags : Flags) (info : TypeInfo) (fuel : Nat) :
    List TopLevel → Except Stop (List (Rewritten TopLevel))
  | [] => return []
  | n :: ns =>
      return (← intraBindVisit flags info fuel n) :: (← intraBindVisitAll flags info fuel ns)

end

/-- `sr-intra-bind-pass`. -/
def srIntraBindPass (flags : Flags) (info : TypeInfo) (fuel : Nat) (parsed : TopLevel) :
    Except Stop (Rewritten TopLevel) :=
  if flags.scalarReplacement || flags.dictScalarReplacement then
    intraBindVisit flags info fuel parsed
  else return { node := parsed }

inductive Code where
  /-- What `emit-node` makes of the form. -/
  | emitted (node : TopLevel)
  /-- `(if (car (load-time-value (register-region …))) fast fallback)` -/
  | ifValid (assumptions : List String) (trustChecks : List TrustCheck) (fast fallback : TopLevel)
  /-- `(progn (clear-inferred-summary 'name) (prog1 code (note-redefinition 'name)))` -/
  | redefining (name : Symbol) (code : Code)

/-- `redef-name`. -/
def redefName (flags : Flags) (node : TopLevel) : Option Symbol :=
  if (flags.transientLoops || flags.dictScalarReplacement) && !flags.sealedWorld then
    node.definition?.map (·.1)
  else none

/-- `final-code`. -/
def guardedCode (flags : Flags) (parsed : TopLevel) (out : Rewritten TopLevel) : Code :=
  if !out.assumptions.isEmpty && !flags.sealedWorld then
    .ifValid out.assumptions out.trustChecks out.node parsed
  else .emitted out.node

/-- The code of the compilation result. -/
def finalCode (flags : Flags) (parsed : TopLevel) (out : Rewritten TopLevel) : Code :=
  match redefName flags out.node with
  | some name => .redefining name (guardedCode flags parsed out)
  | none => guardedCode flags parsed out

/-- `compile-form` on a parsed form: the tables afterwards, and the code unless there were
errors. `emits` tells whether `emit-node` returns. -/
def compileForm (flags : Flags) (info : TypeInfo) (fuel : Nat) (emits : Bool) (img : Image)
    (parsed : TopLevel) : Option (Image × Option Code) := do
  let out ← (srIntraBindPass flags info fuel parsed).toOption
  let img := if flags.scalarReplacement then srTransformToplevel img out.node else img
  match maybeInferAndCacheSummary flags img out.node with
  | (img, false) => return (img, none)
  | (img, true) =>
    let img ← if flags.transientLoops then trTransformToplevel fuel img out.node else some img
    return (img, if emits then some (finalCode flags parsed out) else none)

/-! ## §5 Evaluation -/

/-- `%kind-trusted-p`. -/
def kindTrustedP (Γ : Env) (kind : Kind) (usedOps : List String) : Bool :=
  match kind with
  | .persistentObject _ => (usedOps.filter (· ≠ "ASSOC")).all fun op => !Γ.customized op kind
  | kind => tier1MethodsTrustedP Γ kind usedOps

section Evaluation

variable (upcase : String → String) (functionValued : Ast → Bool)

/-- The form `%register-region-trusted-form` makes: the region is registered, and its
cell set to NIL if the trust checks fail by now. -/
def registerRegionTrusted (Γ : Env) (w : World) (assumptions : List String)
    (trustChecks : List TrustCheck) : World :=
  let w' := w.registerRegion upcase assumptions
  if trustChecks.all fun c => kindTrustedP Γ c.1 c.2 then w'
  else { w' with cells := w'.cells.modify w.cells.length fun c => { c with valid := false } }

/-- Evaluating the code of a compilation result. -/
def evalCode (img : Image) : Code → Image
  | .emitted node => img.evalNode functionValued node
  | .ifValid assumptions trustChecks fast fallback =>
    let w := registerRegionTrusted upcase img.tables img.world assumptions trustChecks
    let node := if w.validP img.world.cells.length then fast else fallback
    { img with world := w }.evalNode functionValued node
  | .redefining name code =>
    let cleared := { img with world := { img.world with
      inferred := fun s => if s = name then none else img.world.inferred s } }
    let done := evalCode cleared code
    if done.aborted then done
    else
      { done with
        world := done.world.noteRedefinition upcase name
        log := done.log ++ [.noted name] }

end Evaluation

end Fol.CompileForm
