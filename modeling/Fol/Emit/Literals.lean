/-
Fol.Emit.Literals — a collection literal, from the reader to the run of its code.

The reader applies the constructor to the element forms, `parse-form` lists the collection so made,
and the emitted call has the forms in the order of this listing. The code means the constructor call
on the elements as written exactly when the listing has them as written and the constructor's name
is not bound around the literal.
-/
import Fol.Collections.Making

namespace Fol.Emit.Literals

open Collections.Making HashTrie

/-! ## §1 Literals -/

variable {τ F : Type}

/-- A literal as written; a dict literal has an even number of forms. -/
structure Literal (F : Type) where
  kind : Kind
  elements : List F
  even : kind = .dict → elements.length % 2 = 0

inductive ReadError where
  | oddDict
  | make (e : MakeError)
deriving DecidableEq

/-- `read-fol-vector` and its siblings, given the forms that `read-delimited-list` returns. -/
def readLiteral [DecidableEq τ] [DecidableEq F] (O : Objects F) (token : τ) (kind : Kind)
    (elements : List F) : Except ReadError (Made τ F) :=
  if kind = .dict ∧ elements.length % 2 ≠ 0 then .error .oddDict
  else (make O token kind elements).mapError .make

/-- The nodes of literals. A bag or a deque is a call-node, its operator the symbol of the
constructor. -/
inductive Node (F : Type) where
  | call (operator : Kind) (args : List F)
  | vector (elements : List F)
  | dict (entries : List (F × F))
  | set (elements : List F)

/-- `parse-form` of a collection. -/
def parseForm [DecidableEq F] (O : Objects F) : Made τ F → Node F
  | .bag dictStorage => .call .bag ((Made.bag (τ := τ) dictStorage).seq O)
  | .deque front rear => .call .deque ((Made.deque (τ := τ) front rear).seq O)
  | .vector storage => .vector ((Made.vector (τ := τ) storage).seq O)
  | .dict dictStorage => .dict (Collections.Transients.hamtSeq dictStorage)
  | .set dictStorage => .set ((Made.set (τ := τ) dictStorage).seq O)

/-- Which constructors' symbols are bound around the literal: `*lexical-vars*` and `*letfn-fns*`. -/
structure Scope where
  lexicalVars : Kind → Bool
  letfnFns : Kind → Bool

/-- The emitted code: a call of the function, or the `cond` on the value of the variable. -/
inductive Code (F : Type) where
  | function (name : Kind) (args : List F)
  | dispatch (name : Kind) (args : List F)
deriving DecidableEq

/-- `emit-call-1` on a symbol. -/
def emitCall (scope : Scope) (operator : Kind) (args : List F) : Code F :=
  if scope.letfnFns operator then .function operator args
  else if scope.lexicalVars operator then .dispatch operator args
  else .function operator args

/-- `emit-vector`, `emit-dict`, `emit-set`, `emit-call-1`. -/
def emitNode (scope : Scope) : Node F → Code F
  | .call operator args => emitCall scope operator args
  | .vector elements => .function .vector elements
  | .dict entries => .function .dict (entries.flatMap fun e => [e.1, e.2])
  | .set elements => .function .set elements

/-! ## §2 Runs -/

/-- What a call reaches: the constructor, a `letfn` function of its name, the value of a variable of
its name, or `get` and `nth` on that value. -/
inductive Callee where
  | constructor (kind : Kind)
  | letfn (name : Kind)
  | bound (name : Kind)
  | lookup (name : Kind)
deriving DecidableEq

/-- The value of a variable in operator position. -/
inductive Operator where
  | function
  | collection
  | other
deriving DecidableEq

/-- The code of an element and a call change the state and return a value, or none on a non-local
exit. -/
structure Runtime (F V σ : Type) where
  eval : F → σ → Option V × σ
  apply : Callee → List V → σ → Option V × σ
  value : Kind → Operator

variable {V σ : Type}

/-- The arguments, from left to right. -/
def Runtime.evalArgs (R : Runtime F V σ) : List F → σ → Option (List V) × σ
  | [], s => (some [], s)
  | f :: fs, s =>
    match R.eval f s with
    | (none, s) => (none, s)
    | (some v, s) =>
      match R.evalArgs fs s with
      | (none, s) => (none, s)
      | (some vs, s) => (some (v :: vs), s)

/-- A call: the arguments, then the function. -/
def Runtime.call (R : Runtime F V σ) (callee : Callee) (args : List F) (s : σ) : Option V × σ :=
  match R.evalArgs args s with
  | (none, s) => (none, s)
  | (some vs, s) => R.apply callee vs s

def Runtime.run (R : Runtime F V σ) (scope : Scope) (s : σ) : Code F → Option V × σ
  | .function name args =>
      R.call (if scope.letfnFns name then .letfn name else .constructor name) args s
  | .dispatch name args =>
    match R.value name with
    | .function => R.call (.bound name) args s
    | .collection => if args.length = 1 ∨ args.length = 2 then R.call (.lookup name) args s
        else (none, s)
    | .other => (none, s)

/-- The constructor on the values of the elements as written. -/
def Runtime.meaning (R : Runtime F V σ) (s : σ) (lit : Literal F) : Option V × σ :=
  R.call (.constructor lit.kind) lit.elements s

/-- The literal is read, and in every runtime and state its code runs as the constructor call
does. -/
def Means [DecidableEq τ] [DecidableEq F] (O : Objects F) (token : τ) (scope : Scope)
    (lit : Literal F) :
    Prop :=
  ∃ c, readLiteral O token lit.kind lit.elements = .ok c ∧
    ∀ (V σ : Type) (R : Runtime F V σ) (s : σ),
    R.run scope s (emitNode scope (parseForm O c)) = R.meaning s lit

/-! ## §3 Result -/

/-- The name of the constructor means the constructor: no `letfn` function has it, and no variable
where the literal is a call-node. -/
def Scope.Free (scope : Scope) (kind : Kind) : Prop :=
  scope.letfnFns kind = false ∧ (kind = .bag ∨ kind = .deque → scope.lexicalVars kind = false)

def kindOf : Made τ F → Kind
  | .vector _ => .vector
  | .dict _ => .dict
  | .set _ => .set
  | .bag _ => .bag
  | .deque _ _ => .deque

def Code.name : Code F → Kind
  | .function name _ => name
  | .dispatch name _ => name

def Code.args : Code F → List F
  | .function _ args => args
  | .dispatch _ args => args

def Code.isFunction : Code F → Bool
  | .function _ _ => true
  | .dispatch _ _ => false

theorem emitCall_name (scope : Scope) (operator : Kind) (args : List F) :
    (emitCall scope operator args).name = operator ∧ (emitCall scope operator args).args = args ∧
      ((emitCall scope operator args).isFunction = true ↔
        scope.letfnFns operator = true ∨ scope.lexicalVars operator = false) := by
  unfold emitCall
  cases scope.letfnFns operator <;> cases scope.lexicalVars operator <;>
    simp [Code.name, Code.args, Code.isFunction]

section

variable [DecidableEq F] {O : Objects F} {scope : Scope}

/-- The emitted call names the constructor of the collection and has what the collection lists. -/
theorem emitNode_parseForm (O : Objects F) (scope : Scope) (c : Made τ F) :
    (emitNode scope (parseForm O c)).name = kindOf c ∧
      (emitNode scope (parseForm O c)).args = c.seq O ∧
      ((emitNode scope (parseForm O c)).isFunction = true ↔
        scope.letfnFns (kindOf c) = true ∨ (kindOf c = .bag ∨ kindOf c = .deque →
          scope.lexicalVars (kindOf c) = false)) := by
  cases c with
  | vector storage => simp [emitNode, parseForm, Code.name, Code.args, Code.isFunction, kindOf]
  | dict storage =>
      simp [emitNode, parseForm, Code.name, Code.args, Code.isFunction, kindOf, Made.seq]
  | set storage => simp [emitNode, parseForm, Code.name, Code.args, Code.isFunction, kindOf]
  | bag storage =>
    obtain ⟨hname, hargs, hfun⟩ := emitCall_name scope .bag ((Made.bag (τ := τ) storage).seq O)
    exact ⟨hname, hargs, by simpa [kindOf, emitNode, parseForm] using hfun⟩
  | deque front rear =>
    obtain ⟨hname, hargs, hfun⟩ :=
      emitCall_name scope .deque ((Made.deque (τ := τ) front rear).seq O)
    exact ⟨hname, hargs, by simpa [kindOf, emitNode, parseForm] using hfun⟩

theorem kindOf_make [DecidableEq τ] {token : τ} {kind : Kind} {args : List F} {c : Made τ F}
    (h : make O token kind args = .ok c) : kindOf c = kind := by
  cases kind with
  | bag =>
    rw [make] at h
    split at h <;> cases h
    rfl
  | deque => cases h; rfl
  | vector => obtain ⟨v, -, rfl⟩ := (exists_map_ok (P := fun c' => c' = c)).mp ⟨c, h, rfl⟩; rfl
  | dict => obtain ⟨v, -, rfl⟩ := (exists_map_ok (P := fun c' => c' = c)).mp ⟨c, h, rfl⟩; rfl
  | set => obtain ⟨v, -, rfl⟩ := (exists_map_ok (P := fun c' => c' = c)).mp ⟨c, h, rfl⟩; rfl

end

/-- A runtime that writes down the forms it evaluates and what it then calls. -/
def recorder (F : Type) : Runtime F F (List F × Option Callee) where
  eval f s := (some f, (s.1 ++ [f], s.2))
  apply callee _ s := (none, (s.1, some callee))
  value _ := .other

theorem recorder_evalArgs (args : List F) (s : List F × Option Callee) :
    (recorder F).evalArgs args s = (some args, (s.1 ++ args, s.2)) := by
  induction args generalizing s with
  | nil => simp [Runtime.evalArgs]
  | cons f fs ih =>
    have hf : (recorder F).eval f s = (some f, (s.1 ++ [f], s.2)) := rfl
    simp [Runtime.evalArgs, hf, ih]

theorem recorder_call (callee : Callee) (args : List F) :
    (recorder F).call callee args ([], none) = (none, (args, some callee)) := by
  rw [Runtime.call, recorder_evalArgs]
  rfl

/-- Code that runs as a call does in every runtime is this call. -/
theorem run_eq_call_iff (scope : Scope) {code : Code F} (args : List F) {kind : Kind}
    (hname : code.name = kind) : (∀ (V σ : Type) (R : Runtime F V σ) (s : σ),
      R.run scope s code = R.call (.constructor kind) args s) ↔
      code.args = args ∧ code.isFunction = true ∧ scope.letfnFns kind = false := by
  subst hname
  cases code with
  | function name args' =>
    constructor
    · intro h
      have hrec := h _ _ (recorder F) ([], none)
      rw [Runtime.run, recorder_call, recorder_call] at hrec
      cases hletfn : scope.letfnFns name with
      | true => simp [hletfn] at hrec
      | false => simpa [hletfn, Code.args, Code.isFunction, Code.name] using hrec
    · rintro ⟨rfl, -, hletfn⟩ V σ R s
      have hletfn' : scope.letfnFns name = false := hletfn
      rw [Runtime.run, hletfn']
      rfl
  | dispatch name args' =>
    refine iff_of_false (fun h => ?_) (by simp [Code.isFunction])
    have hrec := h _ _ (recorder F) ([], none)
    rw [recorder_call] at hrec
    cases hrec

/-- A literal means its constructor exactly when the collection read lists the forms as written and
the constructor's name is free around it. -/
theorem literal_means_iff [DecidableEq τ] [DecidableEq F] (O : Objects F) (token : τ)
    (scope : Scope) (lit : Literal F) :
    Means O token scope lit ↔ Kept O lit.kind lit.elements ∧ scope.Free lit.kind := by
  have hread : ∀ c, readLiteral O token lit.kind lit.elements = .ok c ↔
      make O token lit.kind lit.elements = .ok c := by
    intro c
    rw [readLiteral, if_neg fun h => h.2 (lit.even h.1)]
    cases make O token lit.kind lit.elements <;> simp [Except.mapError]
  have hcode : ∀ c, make O token lit.kind lit.elements = .ok c →
      ((∀ (V σ : Type) (R : Runtime F V σ) (s : σ),
        R.run scope s (emitNode scope (parseForm O c)) = R.meaning s lit) ↔
      c.seq O = lit.elements ∧ scope.Free lit.kind) := by
    intro c hc
    obtain ⟨hname, hargs, hfun⟩ := emitNode_parseForm O scope c
    rw [kindOf_make hc] at hname hfun
    have hiff := run_eq_call_iff scope lit.elements hname
    rw [hargs, hfun] at hiff
    refine hiff.trans (and_congr_right fun _ => ?_)
    rw [Scope.Free]
    constructor
    · rintro ⟨h | h, hletfn⟩
      · rw [hletfn] at h
        cases h
      · exact ⟨hletfn, h⟩
    · rintro ⟨hletfn, h⟩
      exact ⟨.inr h, hletfn⟩
  rw [Means, ← seq_eq_iff token lit.even, exists_and_right.symm]
  refine exists_congr fun c => ?_
  rw [hread, and_assoc]
  exact and_congr_right (hcode c)

/-- The forms of a small program: the keywords, `nil` and the call `(next)`. -/
inductive Sample where
  | eof
  | initialElement
  | nil
  | next
deriving DecidableEq

def sampleObjects : Objects Sample where
  sxhash _ := 0
  eof := .eof
  initialElement := .initialElement
  nil := .nil
  size _ := none
  size_initialElement := rfl

/-- `#{(next) (next)}` calls `next` once: the reader has merged the two equal forms. -/
theorem repeatedCall_not_means : ¬ Means sampleObjects () ⟨fun _ => false, fun _ => false⟩
    ⟨.set, [.next, .next], fun h => by cases h⟩ := by
  rintro ⟨c, hread, hrun⟩
  have hmake : make sampleObjects () .set [.next, .next] = .ok c := by
    rw [readLiteral, if_neg fun h => by cases h.1] at hread
    cases hmade : make sampleObjects () .set [.next, .next] <;> simp_all [Except.mapError]
  obtain ⟨hname, hargs, -⟩ := emitNode_parseForm sampleObjects
    ⟨fun _ => false, fun _ => false⟩ c
  rw [kindOf_make hmake] at hname
  have hseq := ((run_eq_call_iff _ _ hname).mp hrun).1
  rw [hargs] at hseq
  have hkept : Kept sampleObjects .set [.next, .next] :=
    (seq_eq_iff () fun h => by cases h).mp ⟨c, hmake, hseq⟩
  have hfresh := (hkept [.next] .next [] rfl).fresh
  exact hfresh (List.mem_singleton_self _)

end Fol.Emit.Literals
