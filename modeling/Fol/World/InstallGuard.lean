/-
Fol.World.InstallGuard — when a function compiled with intra-bind scalar replacement
runs its fallback.

The validity cell is read by the code that defines the function, so it decides which of
the two definitions is installed, and at no other time. A cell has just been registered
when it is read: it is valid unless the trust checks fail at that moment.
-/
import Mathlib.Data.List.Induction
import Fol.World.CompileForm

namespace Fol.InstallGuard

open Fol.Escape Fol.Regions Fol.CompileForm

/-! ## §1 Functions -/

/-- A function definition that `compile-form` emits behind a validity check. -/
structure GuardedFunction where
  flags : Flags
  info : TypeInfo
  fuel : Nat
  type : DefnType
  name : Symbol
  clauses : Clauses
  /-- What the intra-bind pass makes of the definition. -/
  out : Rewritten TopLevel
  compiled : srIntraBindPass flags info fuel (.function type name clauses) = .ok out
  assumes : out.assumptions ≠ []
  unsealed : flags.sealedWorld = false

namespace GuardedFunction

variable (f : GuardedFunction)

def parsed : TopLevel := .function f.type f.name f.clauses

def code : Code := finalCode f.flags f.parsed f.out

/-- Does `compile-form` put a notification around the definition? -/
def notifies : Bool := f.flags.transientLoops || f.flags.dictScalarReplacement

/-- Do the trust checks pass with these methods? -/
def trusted (customized : String → Kind → Bool) : Bool :=
  f.out.trustChecks.all fun c => kindTrustedP { customized } c.1 c.2

end GuardedFunction

/-! ## §2 Runs -/

inductive Step where
  /-- The code is loaded; `customized` tells which operators carry method combinations. -/
  | load (customized : String → Kind → Bool)
  /-- Another form defines a function and notes the redefinition. -/
  | redefine (name : Symbol) (definition : Definition)
  /-- The function is called. -/
  | call

section Runs

variable (upcase : String → String) (functionValued : Ast → Bool) (f : GuardedFunction)

def step (img : Image) : Step → Image
  | .load customized =>
    evalCode upcase functionValued
      { img with tables := { img.tables with customized }, aborted := false, log := [] } f.code
  | .redefine name definition =>
    { img.install name definition with world := img.world.noteRedefinition upcase name }
  | .call => img

def run (img : Image) (steps : List Step) : Image := steps.foldl (step upcase functionValued f) img

/-- Does the step redefine a name the region assumed? A load that is notified redefines
the function itself. -/
def Redefines : Step → Prop
  | .load _ => f.notifies = true ∧ ∃ a ∈ f.out.assumptions, upcase a = upcase f.name.name
  | .redefine name _ => ∃ a ∈ f.out.assumptions, upcase a = upcase name.name
  | .call => False

/-- The last load, if no other definition of the function came after it. -/
def lastLoad (last : Option (String → Kind → Bool)) : Step → Option (String → Kind → Bool)
  | .load customized => some customized
  | .redefine name _ => if name = f.name then none else last
  | .call => last

/-- The methods there were when the current definition of the function was loaded. -/
def loadedWith (steps : List Step) : Option (String → Kind → Bool) := steps.foldl (lastLoad f) none

/-- The definition a load leaves. -/
def installedBy (customized : String → Kind → Bool) : Definition :=
  { node := if f.trusted customized then f.out.node else f.parsed }

end Runs

/-! ## §3 Loads -/

section Loads

variable {upcase : String → String} {functionValued : Ast → Bool} {f : GuardedFunction}

theorem kindTrustedP_congr (Γ : Env) (kind : Kind) (usedOps : List String) :
    kindTrustedP Γ kind usedOps = kindTrustedP { customized := Γ.customized } kind usedOps := by
  cases kind <;> rfl

theorem trusted_eq (Γ : Env) : f.trusted Γ.customized =
    f.out.trustChecks.all fun c => kindTrustedP Γ c.1 c.2 := by
  unfold GuardedFunction.trusted
  simp only [kindTrustedP_congr Γ]

/-- The cell read by the emitted code is valid exactly when the trust checks pass. -/
theorem validP_registerRegionTrusted (Γ : Env) (w : World) :
    (registerRegionTrusted upcase Γ w f.out.assumptions f.out.trustChecks).validP w.cells.length =
      f.trusted Γ.customized := by
  have hnew : (w.registerRegion upcase f.out.assumptions).validP w.cells.length = true :=
    validP_registerRegion_new f.out.assumptions
  rw [trusted_eq]
  unfold registerRegionTrusted
  split
  next h => rw [h, hnew]
  next h =>
    simp only [World.validP, List.getElem?_modify, ↓reduceIte]
    rw [Bool.not_eq_true] at h
    rw [h]
    cases (w.registerRegion upcase f.out.assumptions).cells[w.cells.length]? <;> rfl

/-- The pass keeps a definition a definition of the same name. -/
theorem out_node (f : GuardedFunction) :
    ∃ clauses, f.out.node = .function f.type f.name clauses := by
  have h := f.compiled
  unfold srIntraBindPass at h
  split at h
  · rw [intraBindVisit] at h
    cases hk : srVisitList (srIntraBindVisit f.flags f.info f.fuel) (f.clauses.flatMap (·.2)) with
    | error e => rw [hk] at h; cases h
    | ok kids =>
      rw [hk] at h
      exact ⟨_, (congrArg Rewritten.node (Except.ok.inj h)).symm⟩
  · exact ⟨_, (congrArg Rewritten.node (Except.ok.inj h)).symm⟩

theorem evalNode_function (img : Image) (h : img.aborted = false) (type : DefnType) (name : Symbol)
    (clauses : Clauses) :
    img.evalNode functionValued (.function type name clauses) =
      img.install name { node := .function type name clauses } := by
  rw [Image.evalNode, h]
  rfl

/-- A load installs the rewritten definition if it is trusted, and the original if not. -/
theorem function_evalCode (img : Image) (h : img.aborted = false) :
    (evalCode upcase functionValued img f.code).function f.name =
      some (installedBy f img.tables.customized) := by
  obtain ⟨clauses, hout⟩ := out_node f
  -- both branches define the function
  have hnode : ∀ (img : Image) (b : Bool), img.aborted = false →
      (img.evalNode functionValued (if b then f.out.node else f.parsed)).aborted = false ∧
        (img.evalNode functionValued (if b then f.out.node else f.parsed)).function f.name =
          some { node := if b then f.out.node else f.parsed } := by
    intro img b himg
    cases b with
    | true => simp [hout, evalNode_function img himg, Image.install, himg]
    | false =>
      simp [GuardedFunction.parsed, evalNode_function img himg, Image.install, himg]
  have hguard : guardedCode f.flags f.parsed f.out =
      .ifValid f.out.assumptions f.out.trustChecks f.out.node f.parsed := by
    simp [guardedCode, f.unsealed, f.assumes]
  have hload : ∀ img : Image, img.aborted = false →
      (evalCode upcase functionValued img (guardedCode f.flags f.parsed f.out)).aborted = false ∧
        (evalCode upcase functionValued img (guardedCode f.flags f.parsed f.out)).function f.name =
          some (installedBy f img.tables.customized) := by
    intro img himg
    rw [hguard, evalCode, validP_registerRegionTrusted]
    exact hnode _ _ himg
  unfold GuardedFunction.code finalCode
  cases redefName f.flags f.out.node with
  | none => exact (hload img h).2
  | some name =>
    have hl := hload { img with world := { img.world with
      inferred := fun s => if s = name then none else img.world.inferred s } } h
    simp only [evalCode, hl.1]
    exact hl.2

/-- What a run leaves installed. -/
theorem function_run (img : Image) (steps : List Step) {customized : String → Kind → Bool}
    (h : loadedWith f steps = some customized) :
    (run upcase functionValued f img steps).function f.name = some (installedBy f customized) := by
  induction steps using List.reverseRecOn generalizing customized with
  | nil => simp [loadedWith] at h
  | append_singleton steps s ih =>
    rw [loadedWith, List.foldl_concat, ← loadedWith] at h
    rw [run, List.foldl_concat, ← run]
    cases s with
    | load c =>
      obtain rfl := Option.some.inj h
      exact function_evalCode _ rfl
    | redefine name definition =>
      rw [lastLoad] at h
      split at h
      next => cases h
      next hne =>
        rw [step]
        simp only [Image.install, if_neg (Ne.symm hne)]
        exact ih h
    | call => exact ih h

end Loads

/-! ## §4 Guard -/

section Guard

variable (upcase : String → String) (functionValued : Ast → Bool) (f : GuardedFunction)

/-- Every call of the function after a redefinition of an assumed name runs the fallback. -/
def FallsBack (img : Image) (steps : List Step) : Prop :=
  ∀ pre post, steps = pre ++ .call :: post → (∃ s ∈ pre, Redefines upcase f s) →
    (loadedWith f pre).isSome →
    (run upcase functionValued f img pre).function f.name = some { node := f.parsed }

/-- In every run from any image: the fallback runs after a redefinition exactly when no call
comes after one while the function was last loaded with its trust checks passing (the pass
having changed it). -/
theorem falls_back_iff (img : Image) (steps : List Step) :
    FallsBack upcase functionValued f img steps ↔
      ∀ pre post customized, steps = pre ++ .call :: post → (∃ s ∈ pre, Redefines upcase f s) →
        loadedWith f pre = some customized → f.trusted customized = true →
        f.out.node = f.parsed := by
  constructor
  · intro h pre post customized hsteps hred hload htrust
    have hf := h pre post hsteps hred (by rw [hload]; rfl)
    rw [function_run img pre hload, installedBy, if_pos htrust] at hf
    simpa using hf
  · intro h pre post hsteps hred hload
    obtain ⟨customized, hc⟩ := Option.isSome_iff_exists.mp hload
    rw [function_run img pre hc, installedBy]
    by_cases htrust : f.trusted customized = true
    · rw [if_pos htrust, h pre post customized hsteps hred hc htrust]
    · rw [if_neg htrust]

end Guard

/-! A record built in a `bind` and read in its body. -/

def point : Symbol := { name := "<POINT>" }

def makePoint : Ast := .symbolRef { name := "MAKE-<POINT>" }

/-- `(get p :x)` -/
def getX : Ast :=
  .call (.symbolRef { name := "GET" }) [.symbolRef { name := "P" }, .literal (.keyword "X")]

/-- `(bind [p (make-<point> :x x)] (get p :x))` -/
def pointBody : Ast :=
  .bind [(.symbol { name := "P" }, .call makePoint
      [.literal (.keyword "X"), .symbolRef { name := "X" }])]
    [getX]

/-- What the pass makes of it: `(bind [p_x x] x)`. -/
def pointScalar : Ast :=
  .bind [(.symbol { name := "P_X" }, .symbolRef { name := "X" })] [.symbolRef { name := "X" }]

def pointInfo : TypeInfo := fun s => if s = point then some [("X", { name := "X" })] else none

theorem canonKey_X : srCanonKey "X" = "X" := by decide +kernel

theorem point_chain : srIntraBindChain 2 { name := "P" } [("X", { name := "X" })]
    [("X", .symbolRef { name := "X" })] makePoint false [] [getX] =
      .ok (some { bindings := [], body := [.symbolRef { name := "X" }], usedOps := ["GET"] }) := by
  have hget : getTarget [({ name := "P" }, [("X", .symbolRef { name := "X" })])] getX =
      some ({ name := "P" }, "X") := by simp [getX, getTarget, canonKey_X]
  have hrw : srRw [({ name := "P" }, [("X", .symbolRef { name := "X" })])] 2 getX =
      noteOp "GET" >>= fun _ => return .symbolRef { name := "X" } := by
    have hhit : ((List.lookup (⟨"P", "USER"⟩ : Symbol)
        [(⟨"P", "USER"⟩, [("X", Ast.symbolRef ⟨"X", "USER"⟩)])]).getD []).lookup "X" =
        some (.symbolRef ⟨"X", "USER"⟩) := by simp
    rw [srRw_get hget hhit, srRw_symbolRef (by simp)]
  simp [srIntraBindChain, processBindings, rewriteBody, hrw]
  rfl

theorem point_recordInit : recordInit pointInfo (.call makePoint
    [.literal (.keyword "X"), .symbolRef { name := "X" }]) =
      some (point, [("X", { name := "X" })], [("X", .symbolRef { name := "X" })], makePoint) := by
  have htype : inferTypeFromConstructor (.call makePoint
      [.literal (.keyword "X"), .symbolRef { name := "X" }]) = some point := by decide +kernel
  simp [recordInit, htype, pointInfo, srCtorFields, canonKey_X, srFieldsMatch]

theorem point_visit : srIntraBindVisit { scalarReplacement := true } pointInfo 3 pointBody =
    .ok { node := pointScalar, assumptions := ["<POINT>"] } := by
  rw [pointBody, srIntraBindVisit, scanBindings.eq_def]
  simp only [point_recordInit, if_true, point_chain]
  simp [srVisitList, Ast.children, srIntraBindVisit, scalarBindings]
  rfl

/-- The function with this body, compiled with record scalar replacement. -/
def pointFunction : GuardedFunction where
  flags := { scalarReplacement := true }
  info := pointInfo
  fuel := 3
  type := .defn
  name := { name := "F" }
  clauses := [({ elems := [.symbol { name := "X" }] }, [pointBody])]
  out :=
    { node := .function .defn { name := "F" } [({ elems := [.symbol { name := "X" }] },
      [pointScalar])]
      assumptions := ["<POINT>"] }
  compiled := by
    simp [srIntraBindPass, intraBindVisit, srVisitList, point_visit]
    exact ⟨rfl, rfl, rfl⟩
  assumes := by simp
  unsealed := rfl

/-- The class is redefined after the load; the next call still runs the scalar version. -/
theorem redefined_point_runs_fast :
    ¬ FallsBack String.toUpper (fun _ => false) pointFunction {}
      [.load fun _ _ => false, .redefine point { node := .expression (.literal .nil) }, .call] := by
  rw [falls_back_iff]
  intro h
  have heq := h [.load fun _ _ => false, .redefine point { node := .expression (.literal .nil) }] []
    (fun _ _ => false) rfl
    ⟨.redefine point
      { node := .expression (.literal .nil) }, by simp, "<POINT>", by simp [pointFunction],
      rfl⟩
    (by simp [loadedWith, lastLoad, pointFunction, point]) rfl
  simp [pointFunction, GuardedFunction.parsed, pointBody, pointScalar] at heq

end Fol.InstallGuard
