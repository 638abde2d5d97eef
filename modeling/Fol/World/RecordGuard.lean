/-
Fol.World.RecordGuard — what the guards of record fast paths cover, over any sequence of
top-level forms, converted loops and slot reads.

A converted loop is registered under the class names it has unboxed, a slot read under the
class inferred for its object. The functions whose registered bodies were inlined, or
whose code the inference used, are under neither unless they bear a class's name. The
registry is only ever added to: what it holds for a function is its last registration,
which need not be its last definition.
-/
import Fol.Escape.RecordVisits
import Fol.World.Interprocedural

namespace Fol.RecordGuard

open Fol.Escape Fol.Regions Fol.CompileForm Fol.Interprocedural

/-! ## §1 Definitions -/

/-- The function a definition defines. -/
def definedName : TopLevel → Option Symbol
  | .function _ name _ => some name
  | .defmethod name _ => some name
  | .defgeneric name _ => some name
  | _ => none

mutual

/-- The definitions of functions in a form, in order. -/
def definitions : TopLevel → List TopLevel
  | .doNode body => definitionsAll body
  | node => if (definedName node).isSome then [node] else []

def definitionsAll : List TopLevel → List TopLevel
  | [] => []
  | n :: ns => definitions n ++ definitionsAll ns

end

/-- A definition, and whether `*scalar-replacement*` was on when it was compiled. -/
structure Compiled where
  scalarReplacement : Bool
  node : TopLevel

/-- The definitions compiled so far, the newest first. -/
abbrev History := List Compiled

/-- The parameters and the body expression of a function, if it has one clause and one. -/
def bodyOf : TopLevel → Option (List Symbol × Ast)
  | .function _ _ clauses => singleExpression clauses
  | _ => none

def lastDefinition (f : Symbol) (h : History) : Option TopLevel :=
  (h.find? fun d => definedName d.node = some f).map (·.node)

/-- The entry a definition registers for a function. -/
def registers (f : Symbol) (d : Compiled) : Option (List Symbol × Ast) :=
  match d.node with
  | .function _ name clauses => if d.scalarReplacement ∧ f = name then srEntry clauses else none
  | _ => none

def lastRegistration (f : Symbol) (h : History) : Option (List Symbol × Ast) :=
  h.findSome? (registers f)

/-! ## §2 Consulted -/

/-- A class fact: of the result of a function, or of a parameter. -/
inductive FactOf where
  | returns (f : Symbol)
  | param (f : Symbol) (i : Nat)

/-- The operator of a call that is no constructor. -/
def calledName (node : Ast) : Option Symbol :=
  match inferTypeFromConstructor node with
  | some _ => none
  | none => node.operatorSymbol

mutual

/-- The functions in a form, with their clauses. -/
def functionsOf : TopLevel → List (Symbol × Clauses)
  | .function _ name clauses => [(name, clauses)]
  | .doNode body => functionsOfAll body
  | _ => []

def functionsOfAll : List TopLevel → List (Symbol × Clauses)
  | [] => []
  | n :: ns => functionsOf n ++ functionsOfAll ns

end

/-- Is the scan event a call of the function? -/
def eventCalls (f : Symbol) : ScanEvent → Prop
  | .call callee _ _ => callee.name = f
  | .ref _ => False

/-- The argument of a call at a position. -/
def eventArg (i : Nat) : ScanEvent → Option Ast
  | .call _ args _ => args[i]?
  | .ref _ => none

/-- The functions whose code the inference uses for a fact about the unit `asts`: the body of
the function and of the functions its tail calls, the bodies in which a call passes the
parameter, and those of the functions that compute the arguments. -/
inductive Consulted (asts : List TopLevel) : FactOf → Symbol → Prop
  | body (f : Symbol) : Consulted asts (.returns f) f
  | tail {f g h : Symbol} {info : FnInfo} {tail : Ast} :
    (ipCollectAll [] asts).find f = some info → info.tailNode = some tail →
      calledName tail = some h → Consulted asts (.returns h) g → Consulted asts (.returns f) g
  | caller {f g : Symbol} {i : Nat} {clauses : Clauses} {event : ScanEvent} :
    (g, clauses) ∈ functionsOfAll asts → event ∈ ipScanDefn (ipCollectAll [] asts) clauses →
      eventCalls f event → Consulted asts (.param f i) g
  | argument {f g h : Symbol} {i : Nat} {event : ScanEvent} {arg : Ast} :
    event ∈ ipScanForms (ipCollectAll [] asts) asts → eventCalls f event →
    eventArg i event = some arg →
      calledName arg = some h → Consulted asts (.returns h) g → Consulted asts (.param f i) g

/-- The fact `infer-type-from-expr` looks up. -/
def factOf (current : CurrentDefn) (node : Ast) : Option FactOf :=
  match inferTypeFromConstructor node with
  | some _ => none
  | none =>
    match node with
    | .call (.symbolRef f) _ => some (.returns f)
    | .symbolRef s => do
      let (f, params) ← current
      return .param f (← params.findIdx? (· = s))
    | _ => none

/-! ## §3 Runs -/

inductive Step where
  /-- A top-level form is compiled and evaluated, after the intra-bind pass. -/
  | form (flags : Flags) (node : TopLevel)
  /-- `infer-interprocedural-types` on a unit. -/
  | unit (asts : List TopLevel)
  /-- A loop is emitted. -/
  | loop (flags : Flags) (bindings : List (Pattern × Ast)) (body : List Ast)
  /-- `(get node :key)`, or `(:key node)`, is emitted. -/
  | read (current : CurrentDefn) (node : Ast) (key : String)

structure State where
  image : Image := {}
  asts : List TopLevel := []

section Runs

variable (upcase : String → String) (info : TypeInfo) (fuel : Nat)

/-- A redefinition of the function invalidates every region registered under these names. -/
def GuardedAgainst (names : List String) (f : Symbol) : Prop :=
  ∀ pre post, .redefine f ∈ post →
    (worldAfter upcase pre names post).validP (cellAfter upcase pre) = false

/-- A step's effect on the tables. -/
def step (s : State) : Step → State
  | .form flags node =>
    { s with image := if flags.scalarReplacement then srTransformToplevel s.image node
      else s.image }
  | .unit asts => { s with asts }
  | .loop _ _ _ => s
  | .read _ _ _ => s

def record (h : History) : Step → History
  | .form flags node => ((definitions node).map fun d => ⟨flags.scalarReplacement, d⟩).reverse ++ h
  | _ => h

/-- The class the slot read is emitted for (`get-slot-name-for-type` finds the slot). -/
def slotType (asts : List TopLevel) (current : CurrentDefn) (node : Ast) (key : String) :
    Option Symbol :=
  (inferTypeFromExpr (inferInterproceduralTypes asts) current node).filter fun type =>
    ((info type).bind (·.lookup key)).isSome

/-- What the claim asks of a step: every function the fast path rests on is guarded against,
and what is inlined is the body of the function's last definition. -/
def StepGuarded (s : State) (h : History) : Step → Prop
  | .loop flags bindings body => ∀ out,
    maybeScalarReplaceLoop info s.image.srInlinableFns fuel flags bindings body = .ok (some out) →
      ∀ f ∈ out.inlined, GuardedAgainst upcase out.assumptions f ∧
        ∀ entry, s.image.srInlinableFns f = some entry → (lastDefinition f h).bind bodyOf =
        some entry
  | .read current node key => ∀ type fact,
    slotType info s.asts current node key = some type → factOf current node = some fact →
      ∀ f, Consulted s.asts fact f → GuardedAgainst upcase [type.name] f
  | _ => True

/-- When it holds: every function whose call is expanded on a visit of the body of an unboxed
accumulator bears the name of the class of one, and its last definition has the body last
registered; every function an inferred class rests on bears the name of that class. -/
def StepCovered (asts : List TopLevel) (fns : InlinableFns) (h : History) : Step → Prop
  | .loop flags bindings body => ∀ out,
    maybeScalarReplaceLoop info fns fuel flags bindings body = .ok (some out) →
      ∀ u ∈ out.unboxings, ∀ f, u.Inlines fns f →
        (∃ v ∈ out.unboxings, upcase v.type.name = upcase f.name) ∧
          ∀ entry, lastRegistration f h = some entry → (lastDefinition f h).bind bodyOf = some entry
  | .read current node key => ∀ type fact,
    slotType info asts current node key = some type → factOf current node = some fact →
      ∀ f, Consulted asts fact f → upcase type.name = upcase f.name
  | _ => True

/-- Every step of the run is guarded. -/
def Guarded (s : State) (h : History) : List Step → Prop
  | [] => True
  | x :: steps => StepGuarded upcase info fuel s h x ∧ Guarded (step s x) (record h x) steps

/-- Every step of the run is covered; the registry is read off the history. -/
def Covered (asts : List TopLevel) (h : History) : List Step → Prop
  | [] => True
  | x :: steps =>
    StepCovered upcase info fuel asts (fun f => lastRegistration f h) h x ∧
      Covered (step { asts } x).asts (record h x) steps

end Runs

/-! ## §4 Registry -/

section Registry

/-- A redefinition is noticed exactly by the regions that list the name. -/
theorem guardedAgainst_iff {upcase : String → String} {names : List String} {f : Symbol} :
    GuardedAgainst upcase names f ↔ ∃ n ∈ names, upcase n = upcase f.name := by
  constructor
  · intro h
    have hinvalid := h [] [.redefine f] List.mem_cons_self
    by_contra hno
    have hvalid := (validP_worldAfter upcase [] names [.redefine f]).mpr fun op hop ht => by
      rw [List.mem_singleton.mp hop] at ht
      exact absurd ht hno
    rw [hvalid] at hinvalid
    cases hinvalid
  · intro h pre post hpost
    rw [← Bool.not_eq_true, validP_worldAfter]
    intro hvalid
    obtain ⟨-, hop⟩ := hvalid _ hpost h
    cases hop

theorem srRegisterDefn_apply (img : Image) (name f : Symbol) (clauses : Clauses) :
    (srRegisterDefn img name clauses).srInlinableFns f =
      (if f = name then srEntry clauses else none).or (img.srInlinableFns f) := by
  unfold srRegisterDefn
  cases srEntry clauses with
  | none => simp
  | some entry =>
    by_cases hf : f = name
    · simp [hf]
    · simp [hf]

theorem lastRegistration_append (f : Symbol) (h₁ h₂ : History) :
    lastRegistration f (h₁ ++ h₂) = (lastRegistration f h₁).or (lastRegistration f h₂) := by
  simp [lastRegistration, List.findSome?_append]

/-- The history of a form compiled with scalar replacement on. -/
def recorded (nodes : List TopLevel) : History := (nodes.map fun d => ⟨true, d⟩).reverse

/-- Registering the definitions in a form. -/
theorem srTransformToplevel_apply (img : Image) (node : TopLevel) (f : Symbol) :
    (srTransformToplevel img node).srInlinableFns f =
      (lastRegistration f (recorded (definitions node))).or (img.srInlinableFns f) := by
  induction node generalizing img with
  | function type name clauses =>
    rw [srTransformToplevel, srRegisterDefn_apply]
    by_cases hf : f = name <;>
      simp [definitions, definedName, recorded, lastRegistration, registers, hf]
  | defmethod name clauses =>
    simp [srTransformToplevel, definitions, definedName, recorded, lastRegistration, registers]
  | defgeneric name lambdaLists =>
    simp [srTransformToplevel, definitions, definedName, recorded, lastRegistration, registers]
  | defVar name value =>
    simp [srTransformToplevel, definitions, definedName, recorded, lastRegistration]
  | expression node =>
    simp [srTransformToplevel, definitions, definedName, recorded, lastRegistration]
  | doNode body ih =>
    rw [srTransformToplevel, definitions]
    induction body generalizing img with
    | nil => simp [srTransformAll, definitionsAll, recorded, lastRegistration]
    | cons n ns ihs =>
      have hsplit : recorded (definitionsAll (n :: ns)) =
          recorded (definitionsAll ns) ++ recorded (definitions n) := by
        simp [recorded, definitionsAll]
      rw [srTransformAll, ihs (fun m hm => ih m (List.mem_cons_of_mem _ hm)),
        ih n List.mem_cons_self, hsplit, lastRegistration_append, Option.or_assoc]

/-- The step lemma: the registry keeps holding the last registration of every function. -/
theorem registry_step {s : State} {h : History}
    (hs : s.image.srInlinableFns = fun f => lastRegistration f h) (x : Step) :
    (step s x).image.srInlinableFns = fun f => lastRegistration f (record h x) := by
  cases x with
  | form flags node =>
    funext f
    rw [record, lastRegistration_append]
    by_cases hflag : flags.scalarReplacement = true
    · simp only [step, hflag, if_true, srTransformToplevel_apply, hs, recorded]
    · have hnone : lastRegistration f
          (((definitions node).map fun d => Compiled.mk flags.scalarReplacement d).reverse) =
          none := by
        rw [Bool.not_eq_true] at hflag
        rw [lastRegistration, List.findSome?_eq_none_iff]
        intro d hd
        obtain ⟨node', -, rfl⟩ := List.mem_map.mp (List.mem_reverse.mp hd)
        cases node' <;> simp [registers, hflag]
      rw [hnone, step, if_neg hflag, hs]
      rfl
  | unit asts => exact hs
  | loop flags bindings body => exact hs
  | read current node key => exact hs

end Registry

/-! ## §5 Result -/

section Result

variable {upcase : String → String} {info : TypeInfo} {fuel : Nat}

theorem stepGuarded_iff {s : State} {h : History}
    (hs : s.image.srInlinableFns = fun f => lastRegistration f h) (x : Step) :
    StepGuarded upcase info fuel s h x ↔
      StepCovered upcase info fuel s.asts (fun f => lastRegistration f h) h x := by
  cases x with
  | form flags node => exact Iff.rfl
  | unit asts => exact Iff.rfl
  | loop flags bindings body =>
    rw [StepGuarded, StepCovered, hs]
    refine forall_congr' fun out => forall_congr' fun hout => ?_
    have hrecorded := maybeScalarReplaceLoop_recorded hout
    have hguard : ∀ f, GuardedAgainst upcase out.assumptions f ↔
        ∃ v ∈ out.unboxings, upcase v.type.name = upcase f.name := by
      intro f
      simp only [guardedAgainst_iff, hrecorded.assumptions]
      constructor
      · rintro ⟨n, ⟨v, hv, rfl⟩, hup⟩
        exact ⟨v, hv, hup⟩
      · rintro ⟨v, hv, hup⟩
        exact ⟨_, ⟨v, hv, rfl⟩, hup⟩
    simp only [hrecorded.inlined, hguard]
    exact ⟨fun h u hu f hf => h f ⟨u, hu, hf⟩, fun h f ⟨u, hu, hf⟩ => h u hu f hf⟩
  | read current node key =>
    rw [StepGuarded, StepCovered]
    simp [guardedAgainst_iff]

end Result

/-! A record accumulator rebuilt by a call of a user function. -/

def pClass : Symbol := { name := "<P>" }

def pInfo : TypeInfo := fun s => if s = pClass then some [("X", { name := "X" })] else none

/-- `(make-<p> :x n)` -/
def makeP (n : Int) : Ast :=
  .call (.symbolRef { name := "MAKE-<P>" }) [.literal (.keyword "X"), .literal (.num n)]

/-- `(defn bump [p] (make-<p> :x 1))` -/
def bumpDefn : TopLevel :=
  .function .defn { name := "BUMP" } [({ elems := [.symbol { name := "P" }] }, [makeP 1])]

/-- `(loop [p (make-<p> :x 0)] (recur (bump p)))` -/
def bumpLoop : Step :=
  .loop { scalarReplacement := true } [(.symbol { name := "P" }, makeP 0)]
    [.recur [.call (.symbolRef { name := "BUMP" }) [.symbolRef { name := "P" }]]]

/-- What has been inlined and what is assumed, if the loop was converted. -/
def inlinedUnder (result : Except Stop (Option Unboxed)) : Option (List Symbol × List String) :=
  result.toOption.bind fun out => out.map fun u => (u.inlined, u.assumptions)

end Fol.RecordGuard
