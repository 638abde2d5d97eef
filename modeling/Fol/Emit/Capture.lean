/-
Fol.Emit.Capture — what the parameters that the dispatchers intern do to the names of a program.

`compile-fn-fixed-arity` and `compile-defmethod-clauses` intern `A0`, `A1`, … in the current
package, `compile-fn-rest-args` interns `ARGS`. The forms of the specializers and the bodies of the
clauses are emitted inside the lambda that binds them. A program is read twice: by its own scopes,
where a variable of a clause is its component of the clause's arguments, and as CL reads the emitted
code, by symbols. What a reading makes of a program has no names left in it, so that two programs
that differ only in the names of their variables are read alike in their own scopes.

The predicate of a specializer is the operator of a call that `*emit-predicate-hook*` emits where a
`fn` is compiled, so that a variable in its place is called. A method outside of every `fn` has no
hook, and calls the function of the name.

Whether another name is emitted as a variable or as a function is a matter of `Fol.Emit.Names`; that
a list of bindings is evaluated at all, of `Fol.Emit.Destructuring`.

  §1 Programs   — `Expr`.
  §2 Readings   — `Value`, `Tree`, `nameless`.
  §3 Emission   — `Interning`, `clauseBindings`, `emitted`.
  §4 Conditions — `free`, `Overtaken`, `Uncaptured`.
  §5 Scopes     — what a dispatcher makes of a name.
  §6 Every program — `dispatchers_capture_iff`.
-/
import Fol.Emit.Destructuring

namespace Fol.Capture

open Fol.Destructuring

/-! ## §1 Programs -/

/-- A variable, a form with its operator and subforms, a form that binds names around its subforms,
which may be a `fn` of one clause, and a `fn` or method of clauses. A clause comes with the names of
the predicates of its specializers, their argument forms, and its body. -/
inductive Expr (X K O : Type) where
  | var (x : X)
  | form (op : O) (kids : List (Expr X K O))
  | scope (op : O) (isFn : Bool) (names : List X) (kids : List (Expr X K O))
  | dispatcher (form : Form)
      (clauses : List (Clause X K × List X × List (Expr X K O) × List (Expr X K O)))

variable {X Y K O : Type}

/-! ## §2 Readings -/

/-- What a name stands for: a variable of the image, a name of a scope, an argument or the arguments
of a dispatcher, or a part of these. Scopes and dispatchers are counted from outside. -/
inductive Value (X : Type) where
  | global (x : X)
  | slot (level k : Nat)
  | arg (level i : Nat)
  | args (level : Nat)
  | nth (v : Value X) (i : Nat)
  | nthcdr (i : Nat) (v : Value X)
  | part (v : Value X) (k : Nat)
deriving DecidableEq

mutual

def renamePattern (f : X → Y) : Pattern X K → Pattern Y K
  | .symbol x => .symbol (f x)
  | .wildcard => .wildcard
  | .vector elems marks => .vector (renameElements f elems) (marks.map fun
      | .rest name => .rest (name.map f)
      | .whole name => .whole (name.map f))
  | .dict keys whole wholeFirst => .dict (renameKeys f keys) (whole.map f) wholeFirst

def renameElements (f : X → Y) : Elements X K → Elements Y K
  | .nil => .nil
  | .cons p elems => .cons (renamePattern f p) (renameElements f elems)

def renameKeys (f : X → Y) : Keys X K → Keys Y K
  | .nil => .nil
  | .field key x keys => .field key (f x) (renameKeys f keys)
  | .nested key inner whole wholeFirst keys =>
    .nested key (renameKeys f inner) (whole.map f) wholeFirst (renameKeys f keys)

end

/-- The parameters of a clause without their names. -/
def shape (c : Clause X K) : Clause Unit K where
  params := c.params.map (renamePattern fun _ => ())
  restParam := c.restParam.map (·.map fun _ => ())

/-- A program without the names of its variables. A clause has its parameters, the values its test
reads, the predicates of its specializers, their argument forms, and its body. -/
inductive Tree (X K O : Type) where
  | var (v : Value X)
  | form (op : O) (kids : List (Tree X K O))
  | scope (op : O) (width : Nat) (kids : List (Tree X K O))
  | dispatcher (form : Form)
      (clauses : List (Clause Unit K × List (Value X) × List (Value X) × List (Tree X K O) × List
        (Tree X K O)))
  | malformed

/-- The value of a variable of a pattern, when that of the pattern is `v`. -/
def partOf (p : Pattern X K) (v : Value X) (k : Nat) : Value X :=
  match p with
  | .symbol _ => v
  | _ => .part v k

section Readings

variable [DecidableEq X]

def bindSlots (level : Nat) (names : List X) (env : X → Value X) : X → Value X := fun x =>
  if x ∈ names then .slot level (names.idxOf x) else env x

/-- The argument of a parameter. -/
def argument (level : Nat) (clauses : List (Clause X K)) (i : Nat) : Value X :=
  match uniformArity clauses with
  | some _ => .arg level i
  | none => .nth (.args level) i

/-- The parameters of a clause with their values. -/
def arguments (level : Nat) (clauses : List (Clause X K)) (c : Clause X K) :
    List (Pattern X K × Value X) :=
  (c.params.zipIdx.map fun q => (q.1, argument level clauses q.2)) ++
    c.restParam.join.toList.map fun x => (.symbol x, .nthcdr c.params.length (.args level))

def bindArguments (env : X → Value X) : List (Pattern X K × Value X) → X → Value X
  | [], x => env x
  | (p, v) :: ps, x => if x ∈ p.vars then partOf p v (p.vars.idxOf x) else bindArguments env ps x

mutual

/-- The program in its own scopes: a variable of a clause is its component of the arguments, and the
specializers are outside of the clause. -/
def nameless (level : Nat) (env : X → Value X) : Expr X K O → Tree X K O
  | .var x => .var (env x)
  | .form op kids => .form op (namelessList level env kids)
  | .scope op _ names kids =>
      .scope op names.length (namelessList (level + 1) (bindSlots level names env) kids)
  | .dispatcher form clauses =>
      .dispatcher form (namelessClauses level env (clauses.map (·.1)) clauses)

def namelessList (level : Nat) (env : X → Value X) : List (Expr X K O) → List (Tree X K O)
  | [] => []
  | e :: es => nameless level env e :: namelessList level env es

def namelessClauses (level : Nat) (env : X → Value X) (all : List (Clause X K)) :
    List (Clause X K × List X × List (Expr X K O) × List (Expr X K O)) →
      List (Clause Unit K × List (Value X) × List (Value X) × List (Tree X K O) × List (Tree X K O))
  | [] => []
  | (c, predicates, tests, body) :: clauses =>
    (shape c, (List.range c.params.length).map (argument level all), predicates.map env,
      namelessList (level + 1) env tests,
      namelessList (level + 1) (bindArguments env (arguments level all c)) body) ::
      namelessClauses level env all clauses

end

/-! ## §3 Emission -/

/-- The symbols `A0`, `A1`, … and `ARGS` of the current package. -/
structure Interning (X : Type) where
  a : Nat → X
  args : X
  a_injective : Function.Injective a

/-- The symbol of a name: the parameters that are interned are symbols of the program, the rest
parameter of a method and the temporaries are not. -/
def Interning.symbol (S : Interning X) (form : Form) : Name X → Name X
  | .root (.param i) => .variable (S.a i)
  | .root .args =>
    match form with
    | .fn => .variable S.args
    | .defmethod => .root .args
  | name => name

/-- The symbols in the lambda list of a dispatcher. -/
def parameters (S : Interning X) (form : Form) (clauses : List (Clause X K)) : List (Name X) :=
  match uniformArity clauses with
  | some arity => (lambdaList form clauses arity).map (S.symbol form)
  | none => [S.symbol form (.root .args)]

abbrev Scope (X : Type) := Name X → Value X

/-- Inside the lambda. -/
def enter (S : Interning X) (form : Form) (clauses : List (Clause X K)) (level : Nat)
    (env : Scope X) : Scope X :=
  fun name =>
    if name ∈ parameters S form clauses then
      match uniformArity clauses with
      | some _ => .arg level ((parameters S form clauses).idxOf name)
      | none => .args level
    else env name

/-- The parameters whose bindings a clause has, with what they read. -/
def clauseBindings (form : Form) (clauses : List (Clause X K)) (c : Clause X K) :
    List (Pattern X K × Access K) :=
  match form, uniformArity clauses with
  | .fn, some _ => paramAccess c.params
  | .defmethod, some _ => unboundParams clauses c.params
  | _, none =>
    argAccess c.params ++ c.restParam.join.toList.map fun x =>
      (.symbol x, .nthcdr c.params.length .args)

/-- What an access expression of a parameter reads. -/
def readAccess (S : Interning X) (form : Form) (env : Scope X) : Access K → Value X
  | .value r => env (S.symbol form (.root r))
  | .elt r i => .nth (env (S.symbol form (.root r))) i
  | .nthcdr i r => .nthcdr i (env (S.symbol form (.root r)))
  | .get r _ => env (S.symbol form (.root r))  -- not a parameter's

/-- The bindings of a pattern give its variables their parts. -/
def bindPattern (env : Scope X) (p : Pattern X K) (v : Value X) : Scope X
  | .variable x => if x ∈ p.vars then partOf p v (p.vars.idxOf x) else env (.variable x)
  | name => env name

/-- `let`: what is read is read in `outer`. -/
def bindLet (S : Interning X) (form : Form) (outer : Scope X) :
    List (Pattern X K × Access K) → Scope X → Scope X
  | [], env => env
  | (p, a) :: ps, env => bindLet S form outer ps (bindPattern env p (readAccess S form outer a))

/-- `let*`. -/
def bindLetStar (S : Interning X) (form : Form) : List (Pattern X K × Access K) → Scope X → Scope X
  | [], env => env
  | (p, a) :: ps, env => bindLetStar S form ps (bindPattern env p (readAccess S form env a))

/-- Inside the binding list of a clause. -/
def enterClause (S : Interning X) (form : Form) (clauses : List (Clause X K)) (c : Clause X K)
    (env : Scope X) :
    Scope X :=
  match form with
  | .fn => bindLet S form env (clauseBindings form clauses c) env
  | .defmethod => bindLetStar S form (clauseBindings form clauses c) env

/-- What the test of a clause reads for a parameter. -/
def tested (S : Interning X) (form : Form) (clauses : List (Clause X K)) (env : Scope X) (i : Nat) :
    Value X :=
  match uniformArity clauses with
  | some arity => env (((lambdaList form clauses arity).map (S.symbol form)).getD i (.root .args))
  | none => .nth (env (S.symbol form (.root .args))) i

/-- What the name of a predicate stands for: the variable with a hook, the function of the name
without. -/
def predicate (hook : Bool) (env : Scope X) (x : X) : Value X :=
  if hook then env (.variable x) else .global x

mutual

/-- The emitted code as CL reads it, with or without a hook for predicates. A lambda list that
repeats a symbol is malformed. -/
def emitted (S : Interning X) (hook : Bool) (level : Nat) (env : Scope X) : Expr X K O → Tree X K O
  | .var x => .var (env (.variable x))
  | .form op kids => .form op (emittedList S hook level env kids)
  | .scope op isFn names kids =>
      .scope op names.length (emittedList S (hook || isFn) (level + 1) (fun name =>
      match name with
      | .variable x => bindSlots level names (fun y => env (.variable y)) x
      | name => env name) kids)
  | .dispatcher form clauses =>
    if (parameters S form (clauses.map (·.1))).Nodup then
      .dispatcher form (emittedClauses S (hook || form == .fn) level form (clauses.map (·.1))
        (enter S form (clauses.map (·.1)) level env) clauses)
    else .malformed

def emittedList (S : Interning X) (hook : Bool) (level : Nat) (env : Scope X) :
    List (Expr X K O) → List (Tree X K O)
  | [] => []
  | e :: es => emitted S hook level env e :: emittedList S hook level env es

/-- The clauses inside the lambda. -/
def emittedClauses (S : Interning X) (hook : Bool) (level : Nat) (form : Form)
    (all : List (Clause X K)) (env : Scope X) :
    List (Clause X K × List X × List (Expr X K O) × List (Expr X K O)) →
      List (Clause Unit K × List (Value X) × List (Value X) × List (Tree X K O) × List (Tree X K O))
  | [] => []
  | (c, predicates, tests, body) :: clauses =>
    (shape c, (List.range c.params.length).map (tested S form all env),
      predicates.map (predicate hook env), emittedList S hook (level + 1) env tests,
      emittedList S hook (level + 1) (enterClause S form all c env) body) ::
      emittedClauses S hook level form all env clauses

end

/-! ## §4 Conditions -/

mutual

/-- The names that are read as variables and are not bound in the expression. -/
def free (hook : Bool) : Expr X K O → List X
  | .var x => [x]
  | .form _ kids => freeList hook kids
  | .scope _ isFn names kids => (freeList (hook || isFn) kids).filter (· ∉ names)
  | .dispatcher form clauses => freeClauses (hook || form == .fn) clauses

def freeList (hook : Bool) : List (Expr X K O) → List X
  | [] => []
  | e :: es => free hook e ++ freeList hook es

def freeClauses (hook : Bool) :
    List (Clause X K × List X × List (Expr X K O) × List (Expr X K O)) → List X
  | [] => []
  | (c, predicates, tests, body) :: clauses =>
      (if hook then predicates else []) ++ freeList hook tests ++
    (freeList hook body).filter (· ∉ c.vars) ++ freeClauses hook clauses

end

mutual

/-- The predicates of the methods outside of every `fn`. -/
def called (hook : Bool) : Expr X K O → List X
  | .var _ => []
  | .form _ kids => calledList hook kids
  | .scope _ isFn _ kids => calledList (hook || isFn) kids
  | .dispatcher form clauses => calledClauses (hook || form == .fn) clauses

def calledList (hook : Bool) : List (Expr X K O) → List X
  | [] => []
  | e :: es => called hook e ++ calledList hook es

def calledClauses (hook : Bool) :
    List (Clause X K × List X × List (Expr X K O) × List (Expr X K O)) → List X
  | [] => []
  | (_, predicates, tests, body) :: clauses =>
    (if hook then [] else predicates) ++ calledList hook tests ++ calledList hook body ++
      calledClauses hook clauses

end

/-- A parameter of the method has the variable `x`, and its own symbol is bound again, as a variable
of a parameter before it, when it is read. -/
def Overtaken (S : Interning X) (form : Form) (clauses : List (Clause X K)) (c : Clause X K)
    (x : X) : Prop :=
  form = .defmethod ∧ (uniformArity clauses).isSome ∧ ∃ (i j : Nat) (p q : Pattern X K), i < j ∧
    c.params[i]? = some p ∧ c.params[j]? = some q ∧ S.a j ∈ p.vars ∧ x ∈ q.vars ∧
    q.symbolName ≠ some (paramSym clauses j)

mutual

/-- No variable of the program is captured: each dispatcher's symbols are distinct, and it binds no
symbol that its specializers mention, or that its bodies mention and their clauses do not bind. The
predicate of a method outside of every `fn` is no variable. -/
def Uncaptured (S : Interning X) (hook : Bool) : Expr X K O → Prop
  | .var _ => True
  | .form _ kids => UncapturedList S hook kids
  | .scope _ isFn names kids =>
    (∀ x ∈ calledList (hook || isFn) kids, x ∉ names) ∧ UncapturedList S (hook || isFn) kids
  | .dispatcher form clauses =>
    (parameters S form (clauses.map (·.1))).Nodup ∧
      UncapturedClauses S (hook || form == .fn) form (clauses.map (·.1)) clauses

def UncapturedList (S : Interning X) (hook : Bool) : List (Expr X K O) → Prop
  | [] => True
  | e :: es => Uncaptured S hook e ∧ UncapturedList S hook es

def UncapturedClauses (S : Interning X) (hook : Bool) (form : Form) (all : List (Clause X K)) :
    List (Clause X K × List X × List (Expr X K O) × List (Expr X K O)) → Prop
  | [] => True
  | (c, predicates, tests, body) :: clauses =>
    (∀ x ∈ (if hook then predicates else []) ++ freeList hook tests,
      .variable x ∉ parameters S form all) ∧
      (∀ x ∈ freeList hook body, x ∉ c.vars → .variable x ∉ parameters S form all) ∧
      (∀ x ∈ freeList hook body, ¬ Overtaken S form all c x) ∧
      (∀ x ∈ calledList hook body, x ∉ c.vars) ∧
      UncapturedList S hook tests ∧ UncapturedList S hook body ∧
      UncapturedClauses S hook form all clauses

end

mutual

/-- The variables of each clause are distinct. -/
def Distinct : Expr X K O → Prop
  | .var _ => True
  | .form _ kids => DistinctList kids
  | .scope _ _ _ kids => DistinctList kids
  | .dispatcher _ clauses => DistinctClauses clauses

def DistinctList : List (Expr X K O) → Prop
  | [] => True
  | e :: es => Distinct e ∧ DistinctList es

def DistinctClauses : List (Clause X K × List X × List (Expr X K O) × List (Expr X K O)) → Prop
  | [] => True
  | (c, _, tests, body) :: clauses => c.vars.Nodup ∧ DistinctList tests ∧ DistinctList body ∧
      DistinctClauses clauses

end

end Readings

/-! ## §5 Scopes -/

/-- The value is of a scope or dispatcher before the level. -/
def Value.Below (level : Nat) : Value X → Prop
  | .global _ => True
  | .slot l _ => l < level
  | .arg l _ => l < level
  | .args l => l < level
  | .nth v _ => v.Below level
  | .nthcdr _ v => v.Below level
  | .part v _ => v.Below level

/-- The argument a value is a part of. -/
def Value.argOf : Value X → Option Nat
  | .arg _ i => some i
  | .part v _ => v.argOf
  | _ => none

section Values

variable {level : Nat} {v w : Value X} {p : Pattern X K} {k : Nat}

theorem Value.Below.mono {l : Nat} (h : v.Below l) (hl : l ≤ level) : v.Below level := by
  induction v with
  | global x => trivial
  | slot l' k => exact Nat.lt_of_lt_of_le h hl
  | arg l' i => exact Nat.lt_of_lt_of_le h hl
  | args l' => exact Nat.lt_of_lt_of_le h hl
  | nth v i ih => exact ih h
  | nthcdr i v ih => exact ih h
  | part v k ih => exact ih h

theorem below_partOf (h : v.Below level) : (partOf p v k).Below level := by
  cases p <;> exact h

theorem argOf_partOf : (partOf p v k).argOf = v.argOf := by
  cases p <;> rfl

theorem partOf_inj : partOf p v k = partOf p w k ↔ v = w := by
  cases p <;> simp [partOf]

variable [DecidableEq X] {env : X → Value X}

theorem bindSlots_below (henv : ∀ x, (env x).Below level) (names : List X) (x : X) :
    (bindSlots level names env x).Below (level + 1) := by
  unfold bindSlots
  split
  · exact Nat.lt_succ_self level
  · exact (henv x).mono (Nat.le_succ level)

theorem bindArguments_below {ps : List (Pattern X K × Value X)} (hps : ∀ q ∈ ps, q.2.Below level)
    (henv : ∀ x, (env x).Below level) (x : X) : (bindArguments env ps x).Below level := by
  induction ps with
  | nil => exact henv x
  | cons q ps ih =>
    obtain ⟨p, v⟩ := q
    unfold bindArguments
    split
    · exact below_partOf (hps (p, v) List.mem_cons_self)
    · exact ih fun q hq => hps q (List.mem_cons_of_mem _ hq)

/-- A name of a scope is no function. -/
theorem bindSlots_global {names : List X} {x : X} :
    bindSlots level names env x = .global x ↔ x ∉ names ∧ env x = .global x := by
  unfold bindSlots
  split <;> simp_all

omit [DecidableEq X] in
theorem partOf_ne_global (h : ∀ y, v ≠ .global y) (y : X) : partOf p v k ≠ .global y := by
  cases p with
  | symbol x => exact h y
  | _ => exact nofun

/-- Nor is a variable of a clause. -/
theorem bindArguments_global {ps : List (Pattern X K × Value X)}
    (hps : ∀ q ∈ ps, ∀ y, q.2 ≠ .global y) {x : X} :
    bindArguments env ps x = .global x ↔ x ∉ ps.flatMap (·.1.vars) ∧ env x = .global x := by
  induction ps with
  | nil => simp [bindArguments]
  | cons q ps ih =>
    obtain ⟨p, v⟩ := q
    rw [bindArguments, List.flatMap_cons, List.mem_append]
    split
    case isTrue hx => simp [hx, partOf_ne_global (hps (p, v) List.mem_cons_self)]
    case isFalse hx => rw [ih fun q hq => hps q (List.mem_cons_of_mem _ hq)]; simp [hx]

omit [DecidableEq X] in
theorem arguments_ne_global {clauses : List (Clause X K)} {c : Clause X K} :
    ∀ q ∈ arguments level clauses c, ∀ y, q.2 ≠ .global y := by
  intro q hq y
  rcases List.mem_append.mp hq with hq | hq
  · obtain ⟨q', -, rfl⟩ := List.mem_map.mp hq
    unfold argument
    split <;> exact nofun
  · obtain ⟨x, -, rfl⟩ := List.mem_map.mp hq
    exact nofun

omit [DecidableEq X] in
theorem arguments_below {clauses : List (Clause X K)} {c : Clause X K} :
    ∀ q ∈ arguments level clauses c, q.2.Below (level + 1) := by
  intro q hq
  rcases List.mem_append.mp hq with hq | hq
  · obtain ⟨q', -, rfl⟩ := List.mem_map.mp hq
    unfold argument
    split <;> exact Nat.lt_succ_self level
  · obtain ⟨x, -, rfl⟩ := List.mem_map.mp hq
    exact Nat.lt_succ_self level

end Values

section Lists

variable [DecidableEq X] {S : Interning X} {form : Form} {outer env : Scope X} {τ : X → Value X}
  {p : Pattern X K} {a : Access K} {v : Value X} {x : X} {name : Name X}
  {ps post : List (Pattern X K × Access K)}

theorem bindArguments_not_mem {ps : List (Pattern X K × Value X)} (h : x ∉ ps.flatMap (·.1.vars)) :
    bindArguments τ ps x = τ x := by
  induction ps with
  | nil => rfl
  | cons q ps ih =>
    rw [List.flatMap_cons, List.mem_append, not_or] at h
    rw [bindArguments, if_neg h.1, ih h.2]

theorem bindArguments_mem {ps : List (Pattern X K × Value X)}
    (hvars : (ps.flatMap (·.1.vars)).Nodup) (hq : (p, v) ∈ ps) (hx : x ∈ p.vars) :
    bindArguments τ ps x = partOf p v (p.vars.idxOf x) := by
  induction ps with
  | nil => cases hq
  | cons q ps ih =>
    rw [List.flatMap_cons, List.nodup_append] at hvars
    rcases List.mem_cons.mp hq with rfl | hq
    · rw [bindArguments, if_pos hx]
    · have hx' : x ∈ ps.flatMap (·.1.vars) := List.mem_flatMap.mpr ⟨(p, v), hq, hx⟩
      rw [bindArguments, if_neg fun hmem => hvars.2.2 x hmem x hx' rfl]
      exact ih hvars.2.1 hq

theorem bindPattern_not_mem (h : ∀ x ∈ p.vars, name ≠ .variable x) :
    bindPattern env p v name = env name := by
  rcases name with x | _ | r
  · exact if_neg fun hx => h x hx rfl
  · rfl
  · rfl

theorem bindPattern_mem (hx : x ∈ p.vars) :
    bindPattern env p v (.variable x) = partOf p v (p.vars.idxOf x) :=
  if_pos hx

theorem bindLet_not_mem (h : x ∉ ps.flatMap (·.1.vars)) :
    bindLet S form outer ps env (.variable x) = env (.variable x) := by
  induction ps generalizing env with
  | nil => rfl
  | cons q ps ih =>
    rw [List.flatMap_cons, List.mem_append, not_or] at h
    rw [bindLet, ih h.2]
    exact if_neg h.1

theorem bindLet_mem (hvars : (ps.flatMap (·.1.vars)).Nodup) (hq : (p, a) ∈ ps) (hx : x ∈ p.vars) :
    bindLet S form outer ps env (.variable x) = partOf p (readAccess S form outer a)
    (p.vars.idxOf x) := by
  induction ps generalizing env with
  | nil => cases hq
  | cons q ps ih =>
    rw [List.flatMap_cons, List.nodup_append] at hvars
    rw [bindLet]
    rcases List.mem_cons.mp hq with rfl | hq
    · rw [bindLet_not_mem fun hx' => hvars.2.2 x hx x hx' rfl]
      exact bindPattern_mem hx
    · exact ih hvars.2.1 hq

theorem bindLetStar_not_mem (h : ∀ x ∈ ps.flatMap (·.1.vars), name ≠ .variable x) :
    bindLetStar S form ps env name = env name := by
  induction ps generalizing env with
  | nil => rfl
  | cons q ps ih =>
    rw [List.flatMap_cons] at h
    rw [bindLetStar, ih fun x hx => h x (List.mem_append_right _ hx)]
    exact bindPattern_not_mem fun x hx => h x (List.mem_append_left _ hx)

theorem bindLetStar_append :
    bindLetStar S form (ps ++ post) env = bindLetStar S form post (bindLetStar S form ps env) := by
  induction ps generalizing env with
  | nil => rfl
  | cons q ps ih => exact ih

/-- A variable has its part of what its parameter reads when its turn comes. -/
theorem bindLetStar_split (hvars : ((ps ++ (p, a) :: post).flatMap (·.1.vars)).Nodup)
    (hx : x ∈ p.vars) :
    bindLetStar S form (ps ++ (p, a) :: post) env (.variable x) =
      partOf p (readAccess S form (bindLetStar S form ps env) a) (p.vars.idxOf x) := by
  rw [List.flatMap_append, List.flatMap_cons, List.nodup_append, List.nodup_append] at hvars
  rw [bindLetStar_append, bindLetStar, bindLetStar_not_mem fun y hy => ?_]
  · exact bindPattern_mem hx
  · intro heq
    exact hvars.2.1.2.2 x hx y hy (Name.variable.inj heq)

end Lists

section Dispatchers

variable [DecidableEq X] {S : Interning X} {form : Form} {clauses : List (Clause X K)}
    {c : Clause X K}
  {level i j : Nat} {env : Scope X} {τ : X → Value X} {p q : Pattern X K} {x : X} {v : Value X}

theorem enter_not_mem {name : Name X} (h : name ∉ parameters S form clauses) :
    enter S form clauses level env name = env name := if_neg h

/-- Inside the lambda a variable of a scope around it is what it was, unless the lambda binds its
symbol. -/
theorem enter_eq_iff (hv : v.Below level) :
    enter S form clauses level env (.variable x) = v ↔
      .variable x ∉ parameters S form clauses ∧ env (.variable x) = v := by
  by_cases hmem : .variable x ∈ parameters S form clauses
  · refine ⟨fun heq => ?_, fun h => absurd hmem h.1⟩
    exfalso
    rw [enter, if_pos hmem] at heq
    split at heq <;> subst heq <;> exact Nat.lt_irrefl level hv
  · rw [enter_not_mem hmem]
    exact ⟨fun heq => ⟨hmem, heq⟩, fun h => h.2⟩

/-- A parameter of a fixed-arity dispatcher has its argument. -/
theorem enter_fixed (hnames : (parameters S form clauses).Nodup) {arity : Nat}
    (harity : uniformArity clauses = some arity) {name : Name X}
    (hname : (lambdaList form clauses arity)[i]? = some name) :
    enter S form clauses level env (S.symbol form name) = .arg level i := by
  have hparams :
    parameters S form clauses = (lambdaList form clauses arity).map (S.symbol form) := by
    rw [parameters, harity]
  have hget : (parameters S form clauses)[i]? = some (S.symbol form name) := by
    rw [hparams, List.getElem?_map, hname]
    rfl
  obtain ⟨hi, hi'⟩ := List.getElem?_eq_some_iff.mp hget
  rw [enter, if_pos (List.mem_of_getElem? hget), harity, ← hi']
  exact congrArg (Value.arg level) (hnames.idxOf_getElem i hi)

theorem enter_rest (hrest : uniformArity clauses = none) :
    enter S form clauses level env (S.symbol form (.root .args)) = .args level := by
  have hmem : S.symbol form (.root .args) ∈ parameters S form clauses := by
    rw [parameters, hrest]
    exact List.mem_singleton_self _
  rw [enter, if_pos hmem, hrest]

theorem lambdaList_fn_get (hp : c.params[i]? = some p) :
    (lambdaList .fn clauses c.params.length)[i]? = some (.root (.param i)) := lambdaList_get hp

theorem lambdaList_defmethod_get (hp : c.params[i]? = some p) :
    (lambdaList .defmethod clauses c.params.length)[i]? = some (paramSym clauses i) :=
    lambdaList_get hp

omit [DecidableEq X] in
/-- The variables of a clause's parameters and rest parameter, with the values they stand for. -/
theorem vars_arguments : (arguments level clauses c).flatMap (·.1.vars) = c.vars := by
  rw [arguments, List.flatMap_append, List.flatMap_map, List.flatMap_map, Clause.vars]
  congr 1
  · rw [← List.flatMap_map (f := Prod.fst) (g := Pattern.vars), List.zipIdx_map_fst]
  · cases c.restParam.join <;> rfl

omit [DecidableEq X] in
theorem mem_arguments (hp : c.params[i]? = some p) :
    (p, argument level clauses i) ∈ arguments level clauses c :=
  List.mem_append_left _ (List.mem_map.mpr ⟨(p, i), List.mem_zipIdx_iff_getElem?.mpr hp, rfl⟩)

theorem vars_clauseBindings_sublist (hc : c ∈ clauses) :
    ((clauseBindings form clauses c).flatMap (·.1.vars)).Sublist c.vars := by
  have hrest : ((argAccess c.params ++ c.restParam.join.toList.map fun x =>
      ((.symbol x, .nthcdr c.params.length .args) : Pattern X K × Access K)).flatMap
        (·.1.vars)).Sublist c.vars := by
    rw [List.flatMap_append, vars_argAccess, Clause.vars]
    cases c.restParam.join <;> exact List.Sublist.refl _
  unfold clauseBindings
  cases huniform : uniformArity clauses with
  | none => cases form <;> exact hrest
  | some arity =>
    have hvars : c.vars = c.params.flatMap Pattern.vars := by
      rw [Clause.vars, (uniformArity_eq hc huniform).2]
      exact List.append_nil _
    rw [hvars]
    cases form with
    | fn => exact vars_paramAccess c.params ▸ List.Sublist.refl _
    | defmethod => exact vars_unboundParams_sublist c.params

/-- The list of a clause binds only its variables. -/
theorem enterClause_not_mem (hc : c ∈ clauses) (hx : x ∉ c.vars) :
    enterClause S form clauses c env (.variable x) = env (.variable x) := by
  have hx' : x ∉ (clauseBindings form clauses c).flatMap (·.1.vars) := fun h =>
    hx ((vars_clauseBindings_sublist hc).subset h)
  cases form with
  | fn => exact bindLet_not_mem hx'
  | defmethod => exact bindLetStar_not_mem fun y hy heq => hx' (Name.variable.inj heq ▸ hy)

/-- A variable of a clause in its own scopes. -/
theorem bindArguments_param (hvars : c.vars.Nodup) (hp : c.params[i]? = some p) (hx : x ∈ p.vars) :
    bindArguments τ (arguments level clauses c) x = partOf p (argument level clauses i)
    (p.vars.idxOf x) :=
  bindArguments_mem (by rw [vars_arguments]; exact hvars) (mem_arguments hp) hx

omit [DecidableEq X] in
/-- A variable of a clause is in a parameter or is the rest parameter. -/
theorem param_or_rest (hx : x ∈ c.vars) :
    (∃ (i : Nat) (p : Pattern X K), c.params[i]? = some p ∧ x ∈ p.vars) ∨
    c.restParam = some (some x) := by
  rcases List.mem_append.mp hx with hx | hx
  · obtain ⟨p, hp, hxp⟩ := List.mem_flatMap.mp hx
    obtain ⟨i, hi⟩ := List.mem_iff_getElem?.mp hp
    exact .inl ⟨i, p, hi, hxp⟩
  · exact .inr (Option.join_eq_some_iff.mp (by simpa using hx))

omit [DecidableEq X] in
/-- A variable is in one parameter. -/
theorem param_unique (hvars : c.vars.Nodup) (hp : c.params[i]? = some p)
    (hq : c.params[j]? = some q) (hx : x ∈ p.vars) (hx' : x ∈ q.vars) : i = j := by
  have hpair :=
    List.pairwise_iff_getElem.mp (List.nodup_flatMap.mp (List.nodup_append.mp hvars).1).2
  obtain ⟨hi, rfl⟩ := List.getElem?_eq_some_iff.mp hp
  obtain ⟨hj, rfl⟩ := List.getElem?_eq_some_iff.mp hq
  rcases Nat.lt_trichotomy i j with hlt | heq | hlt
  · exact absurd hx' (hpair i j hi hj hlt hx)
  · exact heq
  · exact absurd hx (hpair j i hj hi hlt hx')

/-- The bindings of a rest dispatcher read their components of its arguments. -/
theorem rest_binding (hvars : c.vars.Nodup) (hx : x ∈ c.vars)
    (hrest : uniformArity clauses = none) :
    ∃ q a, (q, a) ∈ clauseBindings form clauses c ∧ x ∈ q.vars ∧
      ∀ env : Scope X, env (S.symbol form (.root .args)) = .args level →
        partOf q (readAccess S form env a) (q.vars.idxOf x) =
        bindArguments τ (arguments level clauses c) x := by
  have hlist : clauseBindings form clauses c = argAccess c.params ++
      c.restParam.join.toList.map fun x => (.symbol x, .nthcdr c.params.length .args) := by
    unfold clauseBindings
    rw [hrest]
    cases form <;> rfl
  rw [hlist]
  rcases param_or_rest hx with ⟨i, p, hp, hxp⟩ | hname
  · refine ⟨p, .elt .args i, List.mem_append_left _ (mem_argAccess.mpr ⟨i, hp, rfl⟩), hxp,
      fun env henv => ?_⟩
    rw [bindArguments_param hvars hp hxp, argument, hrest, readAccess, henv]
  · have hmem : (.symbol x, .nthcdr c.params.length (.args level)) ∈ arguments level clauses c :=
      List.mem_append_right _ (by simp [hname])
    have hx' : x ∈ Pattern.vars (.symbol x : Pattern X K) := by simp [Pattern.vars]
    refine ⟨.symbol x, .nthcdr c.params.length .args, List.mem_append_right _ (by simp [hname]),
      hx', fun env henv => ?_⟩
    rw [bindArguments_mem (by rw [vars_arguments]; exact hvars) hmem hx', readAccess, henv]

theorem enterClause_rest (hc : c ∈ clauses) (hvars : c.vars.Nodup) (hx : x ∈ c.vars)
    (hrest : uniformArity clauses = none) :
    enterClause S form clauses c (enter S form clauses level env) (.variable x) =
      bindArguments τ (arguments level clauses c) x := by
  obtain ⟨q, a, hq, hxq, hread⟩ : ∃ q a, (q, a) ∈ clauseBindings form clauses c ∧ x ∈ q.vars ∧
      ∀ env : Scope X, env (S.symbol form (.root .args)) = .args level →
        partOf q (readAccess S form env a) (q.vars.idxOf x) =
        bindArguments τ (arguments level clauses c) x :=
    rest_binding hvars hx hrest
  have hnodup : ((clauseBindings form clauses c).flatMap (·.1.vars)).Nodup :=
    (vars_clauseBindings_sublist hc).nodup hvars
  cases form with
  | fn =>
    rw [enterClause, bindLet_mem hnodup hq hxq]
    exact hread _ (enter_rest hrest)
  | defmethod =>
    obtain ⟨before, after, hsplit⟩ := List.append_of_mem hq
    rw [hsplit] at hnodup
    rw [enterClause, hsplit, bindLetStar_split hnodup hxq]
    refine hread _ ?_
    rw [bindLetStar_not_mem fun y _ heq => by cases heq]
    exact enter_rest hrest

/-- The bindings of a fixed-arity `fn` all read its parameters. -/
theorem enterClause_fixed (hc : c ∈ clauses) (hvars : c.vars.Nodup) (hx : x ∈ c.vars)
    (hnames : (parameters S .fn clauses).Nodup) (hn : uniformArity clauses = some c.params.length) :
    enterClause S .fn clauses c (enter S .fn clauses level env) (.variable x) =
      bindArguments τ (arguments level clauses c) x := by
  have hlist : clauseBindings .fn clauses c = paramAccess c.params := by
    unfold clauseBindings
    rw [hn]
  obtain ⟨i, p, hp, hxp⟩ := (param_or_rest hx).resolve_right (by simp [(uniformArity_eq hc hn).2])
  have hmem : (p, .value (.param i)) ∈ clauseBindings .fn clauses c :=
    hlist ▸ mem_paramAccess.mpr ⟨i, hp, rfl⟩
  rw [enterClause, bindLet_mem ((vars_clauseBindings_sublist hc).nodup hvars) hmem hxp,
    bindArguments_param hvars hp hxp, argument, hn, readAccess,
    enter_fixed hnames hn (lambdaList_fn_get hp)]

/-- The unbound parameters before one and after it. -/
theorem unboundParams_split (hp : c.params[j]? = some q)
    (hne : q.symbolName ≠ some (paramSym clauses j)) :
    ∃ before after, unboundParams clauses c.params = before ++ (q, .value (.param j)) :: after ∧
      ∀ p a, (p, a) ∈ before ↔ ∃ i, i < j ∧ c.params[i]? = some p ∧
      p.symbolName ≠ some (paramSym clauses i) ∧
        a = .value (.param i) := by
  obtain ⟨hj, hj'⟩ := List.getElem?_eq_some_iff.mp hp
  have hparams : c.params = c.params.take j ++ q :: c.params.drop (j + 1) := by
    rw [← hj', ← List.drop_eq_getElem_cons hj, List.take_append_drop]
  have hlength : (c.params.take j).length = j := List.length_take_of_le (Nat.le_of_lt hj)
  have hsplit : ∃ after, unboundParams clauses c.params =
      unboundParams clauses (c.params.take j) ++ (q, .value (.param j)) :: after := by
    conv in unboundParams clauses c.params => rw [hparams]
    rw [unboundParams, List.zipIdx_append, List.zipIdx_cons, List.filter_append, List.map_append,
      hlength, Nat.zero_add, List.filter_cons, if_pos (by simpa using hne), List.map_cons]
    exact ⟨_, rfl⟩
  obtain ⟨after, hafter⟩ := hsplit
  refine ⟨_, after, hafter, fun p a => ?_⟩
  rw [mem_unboundParams]
  constructor
  · rintro ⟨i, hi, hne, ha⟩
    have hlt : i < j := hlength ▸ (List.getElem?_eq_some_iff.mp hi).1
    rw [List.getElem?_take_of_lt hlt] at hi
    exact ⟨i, hlt, hi, hne, ha⟩
  · rintro ⟨i, hlt, hi, hne, ha⟩
    exact ⟨i, (List.getElem?_take_of_lt hlt).trans hi, hne, ha⟩

/-- The symbol of a parameter that is bound again reads a part of an argument before it. -/
theorem argOf_overtaken {ps : List (Pattern X K × Access K)}
    (hps : ∀ p a, (p, a) ∈ ps → ∃ i, i < j ∧ a = .value (.param i) ∧ ∃ m, m < j ∧
      (env (.variable (S.a i))).argOf = some m)
    (h : (∃ p a, (p, a) ∈ ps ∧ S.a j ∈ p.vars) ∨ ∃ m, m < j ∧ (env (.variable (S.a j))).argOf =
      some m) :
    ∃ m, m < j ∧ (bindLetStar S .defmethod ps env (.variable (S.a j))).argOf = some m := by
  induction ps generalizing env with
  | nil =>
    rcases h with ⟨p, a, hmem, -⟩ | h
    · cases hmem
    · exact h
  | cons q ps ih =>
    obtain ⟨q, b⟩ := q
    obtain ⟨i, hi, rfl, m, hm, hread⟩ := hps q b List.mem_cons_self
    have hbound : ∀ y ∈ q.vars,
        (bindPattern env q (env (.variable (S.a i))) (.variable y)).argOf = some m := by
      intro y hy
      rw [bindPattern_mem hy, argOf_partOf, hread]
    refine ih ?_ ?_
    · intro p a hmem
      obtain ⟨i', hi', ha, m', hm', hread'⟩ := hps p a (List.mem_cons_of_mem _ hmem)
      refine ⟨i', hi', ha, ?_⟩
      by_cases hy : S.a i' ∈ q.vars
      · exact ⟨m, hm, hbound _ hy⟩
      · refine ⟨m', hm', ?_⟩
        rw [bindPattern_not_mem fun y hy' heq => hy (by rw [Name.variable.inj heq]; exact hy')]
        exact hread'
    · by_cases hy : S.a j ∈ q.vars
      · exact .inr ⟨m, hm, hbound _ hy⟩
      · rcases h with ⟨p, a, hmem, hp⟩ | ⟨m', hm', hread'⟩
        · rcases List.mem_cons.mp hmem with heq | hmem
          · cases heq
            exact absurd hp hy
          · exact .inl ⟨p, a, hmem, hp⟩
        · refine .inr ⟨m', hm', ?_⟩
          rw [bindPattern_not_mem fun y hy' heq => hy (by rw [Name.variable.inj heq]; exact hy')]
          exact hread'

/-- The lambda list of a method has the symbol of a parameter once. -/
theorem symbol_index (hnames : (parameters S .defmethod clauses).Nodup)
    (hn : uniformArity clauses = some c.params.length) (hp : c.params[i]? = some p)
    (hq : c.params[j]? = some q)
    (h : S.symbol .defmethod (paramSym clauses i) = S.symbol .defmethod (paramSym clauses j)) :
    i = j := by
  rw [parameters, hn] at hnames
  have hi : ((lambdaList .defmethod clauses c.params.length).map (S.symbol .defmethod))[i]? =
      some (S.symbol .defmethod (paramSym clauses i)) := by
    rw [List.getElem?_map, lambdaList_defmethod_get hp]
    rfl
  have hj : ((lambdaList .defmethod clauses c.params.length).map (S.symbol .defmethod))[j]? =
      some (S.symbol .defmethod (paramSym clauses j)) := by
    rw [List.getElem?_map, lambdaList_defmethod_get hq]
    rfl
  rw [h] at hi
  obtain ⟨hi', hi''⟩ := List.getElem?_eq_some_iff.mp hi
  obtain ⟨hj', hj''⟩ := List.getElem?_eq_some_iff.mp hj
  exact (List.Nodup.getElem_inj_iff hnames).mp (hi''.trans hj''.symm)

/-- A parameter under the name that all clauses give it. -/
theorem shared_symbol (h : p.symbolName = some (paramSym clauses i)) (hx : x ∈ p.vars) :
    p = .symbol x ∧ paramSym clauses i = .variable x := by
  cases p with
  | symbol y =>
    obtain rfl : x = y := by simpa [Pattern.vars] using hx
    exact ⟨rfl, (Option.some.inj h).symm⟩
  | wildcard => cases hx
  | vector elems marks => cases h
  | dict keys whole wholeFirst => cases h

/-- A method's list gives a variable its component, unless its parameter has been overtaken. -/
theorem enterClause_method (hc : c ∈ clauses) (hvars : c.vars.Nodup) (hx : x ∈ c.vars)
    (hnames : (parameters S .defmethod clauses).Nodup)
    (hn : uniformArity clauses = some c.params.length) :
    enterClause S .defmethod clauses c (enter S .defmethod clauses level env) (.variable x) =
      bindArguments τ (arguments level clauses c) x ↔ ¬ Overtaken S .defmethod clauses c x := by
  have hlist : clauseBindings .defmethod clauses c = unboundParams clauses c.params := by
    unfold clauseBindings
    rw [hn]
  obtain ⟨j, q, hq, hxq⟩ := (param_or_rest hx).resolve_right (by simp [(uniformArity_eq hc hn).2])
  have hnodup : ((unboundParams clauses c.params).flatMap (·.1.vars)).Nodup :=
    hlist ▸ (vars_clauseBindings_sublist hc).nodup hvars
  have hreads : ∀ {i : Nat} {p : Pattern X K}, c.params[i]? = some p →
    p.symbolName ≠ some (paramSym clauses i) →
      enter S .defmethod clauses level env (.variable (S.a i)) = .arg level i := by
    intro i p hp hne
    have hname : (lambdaList .defmethod clauses c.params.length)[i]? = some (.root (.param i)) :=
      (lambdaList_defmethod_get hp).trans (congrArg some (paramSym_of_ne hc hp hne))
    exact enter_fixed hnames hn hname
  rw [enterClause, hlist, bindArguments_param hvars hq hxq, argument, hn]
  by_cases hbound : q.symbolName = some (paramSym clauses j)
  · -- the lambda list binds the variable
    obtain ⟨rfl, hsym⟩ := shared_symbol hbound hxq
    have hother : ∀ y ∈ (unboundParams clauses c.params).flatMap (·.1.vars),
    Name.variable x ≠ .variable y := by
      rintro y hy ⟨⟩
      obtain ⟨⟨p, a⟩, hp, hxp⟩ := List.mem_flatMap.mp hy
      obtain ⟨i, hi, hne, -⟩ := mem_unboundParams.mp hp
      obtain rfl := param_unique hvars hi hq hxp hxq
      rw [hq] at hi
      cases hi
      exact hne hbound
    rw [bindLetStar_not_mem hother]
    constructor
    · rintro - ⟨-, -, i, j', p, q', -, -, hq', -, hxq', hne⟩
      obtain rfl := param_unique hvars hq' hq hxq' hxq
      rw [hq] at hq'
      cases hq'
      exact hne hbound
    · intro _
      have hname : (lambdaList .defmethod clauses c.params.length)[j]? = some (.variable x) :=
        (lambdaList_defmethod_get hq).trans (congrArg some hsym)
      exact enter_fixed hnames hn hname
  · obtain ⟨before, after, hsplit, hbefore⟩ := unboundParams_split hq hbound
    rw [hsplit] at hnodup ⊢
    rw [bindLetStar_split hnodup hxq, partOf_inj]
    constructor
    · rintro heq ⟨-, -, i, j', p, q', hlt, hp, hq', hsym, hxq', hne⟩
      obtain rfl := param_unique hvars hq' hq hxq' hxq
      have hunbound : p.symbolName ≠ some (paramSym clauses i) := by
        intro hshared
        have hsame :
          S.symbol .defmethod (paramSym clauses i) = S.symbol .defmethod (paramSym clauses j') := by
          rw [(shared_symbol hshared hsym).2, paramSym_of_ne hc hq' hne]
          rfl
        exact absurd (symbol_index hnames hn hp hq' hsame) (by omega)
      have hroots : ∀ p a, (p, a) ∈ before → ∃ i, i < j' ∧ a = .value (.param i) ∧ ∃ m, m < j' ∧
          (enter S .defmethod clauses level env (.variable (S.a i))).argOf = some m := by
        intro p' a hmem
        obtain ⟨i', hi', hp', hne', rfl⟩ := (hbefore p' a).mp hmem
        exact ⟨i', hi', rfl, i', hi', by rw [hreads hp' hne']; rfl⟩
      have hover :=
        argOf_overtaken hroots (.inl ⟨p, _, (hbefore p _).mpr ⟨i, hlt, hp, hunbound, rfl⟩, hsym⟩)
      obtain ⟨m, hm, hread⟩ := hover
      have hsome : some m = some j' := by
        rw [← hread]
        exact congrArg Value.argOf heq
      exact absurd (Option.some.inj hsome) (by omega)
    · intro hnot
      have hclear : ∀ y ∈ before.flatMap (·.1.vars), Name.variable (S.a j) ≠ .variable y := by
        rintro y hy ⟨⟩
        obtain ⟨⟨p, a⟩, hmem, hp⟩ := List.mem_flatMap.mp hy
        obtain ⟨i, hlt, hi, -, -⟩ := (hbefore p a).mp hmem
        exact hnot ⟨rfl, by simp [hn], i, j, p, q, hlt, hi, hq, hp, hxq, hbound⟩
      exact (bindLetStar_not_mem hclear).trans (hreads hq hbound)

/-- A variable of a clause is its component, unless its parameter has been overtaken. -/
theorem enterClause_eq_iff (hc : c ∈ clauses) (hvars : c.vars.Nodup) (hx : x ∈ c.vars)
    (hnames : (parameters S form clauses).Nodup) :
    enterClause S form clauses c (enter S form clauses level env) (.variable x) =
      bindArguments τ (arguments level clauses c) x ↔ ¬ Overtaken S form clauses c x := by
  cases hn : uniformArity clauses with
  | none =>
    refine ⟨?_, fun _ => enterClause_rest hc hvars hx hn⟩
    rintro - ⟨-, huniform, -⟩
    simp [hn] at huniform
  | some n =>
    obtain rfl := (uniformArity_eq hc hn).1
    cases form with
    | fn =>
      refine ⟨?_, fun _ => enterClause_fixed hc hvars hx hnames hn⟩
      rintro - ⟨hform, -⟩
      cases hform
    | defmethod => exact enterClause_method hc hvars hx hnames hn

/-- The test of a clause reads its arguments. -/
theorem tested_eq (hc : c ∈ clauses) (hnames : (parameters S form clauses).Nodup)
    (hi : i < c.params.length) :
    tested S form clauses (enter S form clauses level env) i = argument level clauses i := by
  unfold tested argument
  cases hn : uniformArity clauses with
  | none => exact congrArg (Value.nth · i) (enter_rest hn)
  | some n =>
    obtain rfl := (uniformArity_eq hc hn).1
    have hlength : i < (lambdaList form clauses c.params.length).length := by
      simpa [lambdaList] using hi
    have hget := List.getElem?_eq_getElem hlength
    simp only [List.getD_eq_getElem?_getD, List.getElem?_map, hget, Option.map_some,
      Option.getD_some]
    exact enter_fixed hnames hn hget

end Dispatchers

/-! ## §6 Every program -/

section Programs

variable [DecidableEq X] {S : Interning X}

omit [DecidableEq X] in
/-- The predicates of a clause are what they are around it. -/
theorem predicates_iff {hook : Bool} {env : Scope X} {τ : X → Value X} {predicates : List X} :
    predicates.map (predicate hook env) = predicates.map τ ↔
      (∀ x ∈ (if hook then predicates else []), env (.variable x) = τ x) ∧
        ∀ x ∈ (if hook then [] else predicates), τ x = .global x := by
  cases hook with
  | true => simp [predicate]
  | false => simp [predicate, eq_comm]

mutual

/-- The emitted code reads a program as it stands if its free variables are what they are around it,
the functions it calls are no variables, and none of the variables inside is captured. -/
theorem emitted_iff :
    ∀ (e : Expr X K O) (hook : Bool) (level : Nat) (env : Scope X) (τ : X → Value X),
    Distinct e → (∀ x, (τ x).Below level) →
    (emitted S hook level env e = nameless level τ e ↔
      (∀ x ∈ free hook e, env (.variable x) = τ x) ∧
      (∀ x ∈ called hook e, τ x = .global x) ∧ Uncaptured S hook e)
  | .var x, hook, level, env, τ, _, _ => by simp [emitted, nameless, free, called, Uncaptured]
  | .form op kids, hook, level, env, τ, hdistinct, hτ => by
    have ih := emittedList_iff kids hook level env τ hdistinct hτ
    simpa [emitted, nameless, free, called, Uncaptured] using ih
  | .scope op isFn names kids, hook, level, env, τ, hdistinct, hτ => by
    have ih := emittedList_iff kids (hook || isFn) (level + 1) (fun name =>
      match name with
      | .variable x => bindSlots level names (fun y => env (.variable y)) x
      | name => env name) (bindSlots level names τ) hdistinct (bindSlots_below hτ names)
    simp only [emitted, nameless, free, called, Uncaptured, Tree.scope.injEq, true_and, ih,
      bindSlots_global, forall_and]
    have hread : (∀ x ∈ freeList (hook || isFn) kids,
        bindSlots level names (fun y => env (.variable y)) x = bindSlots level names τ x) ↔
        ∀ x ∈ (freeList (hook || isFn) kids).filter (· ∉ names), env (.variable x) = τ x := by
      refine ⟨fun h x hx => ?_, fun h x hx => ?_⟩
      · obtain ⟨hx, hnames⟩ := List.mem_filter.mp hx
        simpa [bindSlots, of_decide_eq_true hnames] using h x hx
      · by_cases hnames : x ∈ names
        · simp [bindSlots, hnames]
        · simpa [bindSlots, hnames] using h x (List.mem_filter.mpr ⟨hx, decide_eq_true hnames⟩)
    rw [hread]
    tauto
  | .dispatcher form clauses, hook, level, env, τ, hdistinct, hτ => by
    rw [emitted, nameless, free, called, Uncaptured]
    by_cases hnames : (parameters S form (clauses.map (·.1))).Nodup
    · have ih :=
        emittedClauses_iff clauses (hook || form == .fn) form (clauses.map (·.1)) level env τ
        (fun q hq => List.mem_map_of_mem hq) hnames hdistinct hτ
      simp [hnames, ih]
    · simp [hnames]

theorem emittedList_iff : ∀ (es : List (Expr X K O)) (hook : Bool) (level : Nat) (env : Scope X)
    (τ : X → Value X), DistinctList es → (∀ x, (τ x).Below level) →
    (emittedList S hook level env es = namelessList level τ es ↔
      (∀ x ∈ freeList hook es, env (.variable x) = τ x) ∧
      (∀ x ∈ calledList hook es, τ x = .global x) ∧
        UncapturedList S hook es)
  | [], _, _, _, _, _, _ => by
      simp [emittedList, namelessList, freeList, calledList, UncapturedList]
  | e :: es, hook, level, env, τ, hdistinct, hτ => by
    have ihe := emitted_iff e hook level env τ hdistinct.1 hτ
    have ihes := emittedList_iff es hook level env τ hdistinct.2 hτ
    simp only [emittedList, namelessList, freeList, calledList, UncapturedList, List.cons.injEq,
      ihe, ihes, List.mem_append, or_imp, forall_and]
    tauto

theorem emittedClauses_iff :
    ∀ (cs : List (Clause X K × List X × List (Expr X K O) × List (Expr X K O)))
    (hook : Bool) (form : Form) (all : List (Clause X K)) (level : Nat) (env : Scope X)
    (τ : X → Value X),
    (∀ q ∈ cs, q.1 ∈ all) → (parameters S form all).Nodup → DistinctClauses cs →
    (∀ x, (τ x).Below level) →
    (emittedClauses S hook level form all (enter S form all level env) cs =
      namelessClauses level τ all cs ↔
      (∀ x ∈ freeClauses hook cs, env (.variable x) = τ x) ∧
      (∀ x ∈ calledClauses hook cs, τ x = .global x) ∧
        UncapturedClauses S hook form all cs)
  | [], _, _, _, _, _, _, _, _, _, _ => by
    simp [emittedClauses, namelessClauses, freeClauses, calledClauses, UncapturedClauses]
  | (c, predicates, tests, body) :: cs, hook, form, all, level, env, τ, hmem, hnames, hdistinct,
      hτ => by
    obtain ⟨hvars, htests, hbody, hclauses⟩ := hdistinct
    have hc : c ∈ all := hmem _ List.mem_cons_self
    have ihtests := emittedList_iff tests hook (level + 1) (enter S form all level env) τ htests
      fun x => (hτ x).mono (Nat.le_succ level)
    have ihbody :=
      emittedList_iff body hook (level + 1) (enterClause S form all c (enter S form all level env))
      (bindArguments τ (arguments level all c)) hbody
      (bindArguments_below arguments_below fun x => (hτ x).mono (Nat.le_succ level))
    have ihclauses :=
      emittedClauses_iff cs hook form all level env τ
      (fun q hq => hmem q (List.mem_cons_of_mem _ hq))
      hnames hclauses hτ
    have htested :
      (List.range c.params.length).map (tested S form all (enter S form all level env)) =
        (List.range c.params.length).map (argument level all) :=
      List.map_congr_left fun i hi => tested_eq hc hnames (List.mem_range.mp hi)
    have hfree : ∀ x, (enter S form all level env (.variable x) = τ x ↔
        .variable x ∉ parameters S form all ∧ env (.variable x) = τ x) :=
        fun x => enter_eq_iff (hτ x)
    have hglobal :
      ∀ x, (bindArguments τ (arguments level all c) x = .global x ↔
        x ∉ c.vars ∧ τ x = .global x) := by
      intro x
      rw [bindArguments_global arguments_ne_global, vars_arguments]
    have hinside : ∀ x, (enterClause S form all c (enter S form all level env) (.variable x) =
        bindArguments τ (arguments level all c) x ↔ ¬ Overtaken S form all c x ∧
          (x ∉ c.vars → .variable x ∉ parameters S form all ∧ env (.variable x) = τ x)) := by
      intro x
      by_cases hx : x ∈ c.vars
      · simp [enterClause_eq_iff hc hvars hx hnames, hx]
      · have hnever : ¬ Overtaken S form all c x := by
          rintro ⟨-, -, -, j, -, q, -, -, hq, -, hxq, -⟩
          exact hx (List.mem_append_left _ (List.mem_flatMap.mpr ⟨q, List.mem_of_getElem? hq, hxq⟩))
        rw [enterClause_not_mem hc hx, bindArguments_not_mem (by rw [vars_arguments]; exact hx),
          hfree x]
        simp [hnever, hx]
    simp only [emittedClauses, namelessClauses, freeClauses, calledClauses, UncapturedClauses,
      List.cons.injEq, Prod.mk.injEq, true_and, htested, predicates_iff, ihtests, ihbody, ihclauses,
      hfree, hinside, hglobal,
      List.mem_append, List.mem_filter, decide_eq_true_eq, or_imp, forall_and, and_imp]
    grind

end

/-- No name of a scope is around a program; the other names are not read. -/
def globals : Scope X
  | .variable x => .global x
  | _ => .args 0

/-- What CL makes of a program. -/
def emittedMeaning (S : Interning X) (e : Expr X K O) : Tree X K O := emitted S false 0 globals e

/-- The program itself. -/
def meaning (e : Expr X K O) : Tree X K O := nameless 0 .global e

theorem emittedMeaning_iff {e : Expr X K O} (h : Distinct e) :
    emittedMeaning S e = meaning e ↔ Uncaptured S false e := by
  rw [emittedMeaning, meaning, emitted_iff e false 0 globals .global h fun _ => trivial]
  simp [globals]

end Programs

/-- The symbols of a package. -/
inductive Symbol where
  | a (i : Nat)
  | args
  | other (name : String)
deriving DecidableEq

def package : Interning Symbol := ⟨.a, .args, fun _ _ h => Symbol.a.inj h⟩

/-- `(fn [v] (fn ([x] v) ([x y] v)))`. -/
def constantly (v : Symbol) : Expr Symbol String String :=
  .scope "FN" true [v] [.dispatcher .fn
    [(⟨[.symbol (.other "X")], none⟩, [], [], [.var v]),
      (⟨[.symbol (.other "X"), .symbol (.other "Y")], none⟩, [], [], [.var v])]]

theorem constantly_distinct (v : Symbol) : Distinct (constantly v) := by
  simp [constantly, Distinct, DistinctList, DistinctClauses, Clause.vars, Pattern.vars]

end Fol.Capture
