/-
Fol.Emit.Destructuring — the binding lists of `emit-single-param-binding`, and what their consumers
make of them.

The list of a vector or dict pattern begins with a temporary, and its other bindings read the
temporary. A variable after `&` or `:as` in a vector is pushed in front of it. `emit-bind-chain` and
`compile-defmethod-clauses` evaluate a list in sequence, `compile-fn-fixed-arity` and
`compile-fn-rest-args` all its forms before any is bound.

The parameters that the dispatchers intern and the gensyms are told apart from the variables of the
program: what a variable of the same name captures is not a matter of this module.

  §1 Patterns   — `Pattern`, `Clause`.
  §2 Emission   — `emitSingleParamBinding`, `emitParamBindings`, `emitRestParamBinding`.
  §3 Consumers  — `paramSyms`, `emitClause`, `emitBindChain`.
  §4 Evaluation — `evalLet`, `evalLetStar`, `runClause`, `runBind`.
  §5 Components — `Fits`, `Designates`, `Binds`.
  §6 Names      — what a list binds.
  §7 Order      — lists that read a temporary too early.
  §8 Sequence   — lists that are evaluated to the components.
  §9 Every list — `destructuring_binds_iff`.
-/
import Mathlib.Data.List.Flatten
import Mathlib.Data.List.Nodup

namespace Fol.Destructuring

/-! ## §1 Patterns -/

/-- `& x` or `:as x` in a vector pattern; no variable for `_`. -/
inductive Mark (X : Type) where
  | rest (name : Option X)
  | whole (name : Option X)

mutual

/-- A pattern of variables `X` and keywords `K`. The elements of a vector end at the first mark, as
they do for `filter-as-bindings`. In a dict `wholeFirst` says whether `:as` is listed before
`:keys`. -/
inductive Pattern (X K : Type) where
  | symbol (name : X)
  | wildcard
  | vector (elems : Elements X K) (marks : List (Mark X))
  | dict (keys : Keys X K) (whole : Option X) (wholeFirst : Bool)

inductive Elements (X K : Type) where
  | nil
  | cons (p : Pattern X K) (elems : Elements X K)

/-- The elements of `:keys`: `name` or `(field name)`, and `(field dict)`. -/
inductive Keys (X K : Type) where
  | nil
  | field (key : K) (name : X) (keys : Keys X K)
  | nested (key : K) (inner : Keys X K) (whole : Option X) (wholeFirst : Bool) (keys : Keys X K)

end

/-- The stripped parameters of a clause, and what follows `&`: a variable, or none for `_`. -/
structure Clause (X K : Type) where
  params : List (Pattern X K)
  restParam : Option (Option X)

variable {X K V : Type}

def Mark.name : Mark X → Option X
  | .rest name => name
  | .whole name => name

def Elements.length : Elements X K → Nat
  | .nil => 0
  | .cons _ elems => elems.length + 1

/-! ## §2 Emission -/

/-- The parameter of a rest dispatcher, or the value of a `bind`; the parameters of a fixed-arity
dispatcher; the temporaries. -/
inductive Root where
  | args
  | param (i : Nat)
  | temp (n : Nat)
deriving DecidableEq

inductive Name (X : Type) where
  | variable (x : X)
  | wildcard
  | root (r : Root)
deriving DecidableEq

/-- The forms that are bound: a value as it is, `(elt r i)` or `(nth i r)`, `(nthcdr i r)` and
`(get r key)`. -/
inductive Access (K : Type) where
  | value (r : Root)
  | elt (r : Root) (i : Nat)
  | nthcdr (i : Nat) (r : Root)
  | get (r : Root) (key : K)

def Access.root : Access K → Root
  | .value r => r
  | .elt r _ => r
  | .nthcdr _ r => r
  | .get r _ => r

abbrev Binding (X K : Type) := Name X × Access K

/-- `(unless (wildcard-param-p elem) …)`. -/
def named (name : Option X) (a : Access K) : List (Binding X K) :=
  match name with
  | some x => [(.variable x, a)]
  | none => []

/-- The end of the loop over a vector. The position counts the marks, and the bindings are
pushed. -/
def emitMarks (t : Root) : List (Mark X) → Nat → List (Binding X K) → List (Binding X K)
  | [], _, bindings => bindings
  | .rest name :: marks, i, bindings =>
      emitMarks t marks (i + 2) (named name (.nthcdr (i + 1) t) ++ bindings)
  | .whole name :: marks, i, bindings =>
      emitMarks t marks (i + 2) (named name (.value t) ++ bindings)

/-- The bindings of a dict pattern around those of its `:keys`. -/
def aroundKeys (a : Access K) (n : Nat) (whole : Option X) (wholeFirst : Bool)
    (emit : List (Binding X K) → List (Binding X K) × Nat) : List (Binding X K) × Nat :=
  let whole := named whole (.value (.temp n))
  let emitted := emit ((.root (.temp n), a) :: (if wholeFirst then whole else []))
  (emitted.1 ++ (if wholeFirst then [] else whole), emitted.2)

mutual

/-- `emit-single-param-binding`, with the number of the next gensym. -/
def emitSingleParamBinding : Pattern X K → Access K → Nat → List (Binding X K) × Nat
  | .wildcard, _, n => ([], n)
  | .symbol x, a, n => ([(.variable x, a)], n)
  | .vector elems marks, a, n =>
    let emitted := emitElements elems (.temp n) 0 [(.root (.temp n), a)] (n + 1)
    (emitMarks (.temp n) marks elems.length emitted.1, emitted.2)
  | .dict keys whole wholeFirst, a, n =>
    aroundKeys a n whole wholeFirst fun bindings => emitKeys keys (.temp n) bindings (n + 1)

/-- The loop over the elements of a vector. -/
def emitElements : Elements X K → Root → Nat → List (Binding X K) → Nat → List (Binding X K) × Nat
  | .nil, _, _, bindings, n => (bindings, n)
  | .cons p elems, t, i, bindings, n =>
    let emitted := emitSingleParamBinding p (.elt t i) n
    emitElements elems t (i + 1) (bindings ++ emitted.1) emitted.2

/-- The loop over `:keys`. -/
@[grind =] def emitKeys : Keys X K → Root → List (Binding X K) → Nat → List (Binding X K) × Nat
  | .nil, _, bindings, n => (bindings, n)
  | .field key x keys, t, bindings, n => emitKeys keys t (bindings ++ [(.variable x, .get t key)]) n
  | .nested key inner whole wholeFirst keys, t, bindings, n =>
    let emitted := aroundKeys (.get t key) n whole wholeFirst fun bindings =>
      emitKeys inner (.temp n) bindings (n + 1)
    emitKeys keys t (bindings ++ emitted.1) emitted.2

end

/-- The loop over parameters with their access expressions. -/
def emitEach : List (Pattern X K × Access K) → Nat → List (Binding X K) × Nat
  | [], n => ([], n)
  | (p, a) :: ps, n =>
    let emitted := emitSingleParamBinding p a n
    let others := emitEach ps emitted.2
    (emitted.1 ++ others.1, others.2)

def paramAccess (params : List (Pattern X K)) : List (Pattern X K × Access K) :=
  params.zipIdx.map fun q => (q.1, .value (.param q.2))

/-- `emit-fixed-arity-param-bindings`. -/
def emitFixedArityParamBindings (params : List (Pattern X K)) : List (Binding X K) :=
  (emitEach (paramAccess params) 0).1

def argAccess (params : List (Pattern X K)) : List (Pattern X K × Access K) :=
  params.zipIdx.map fun q => (q.1, .elt .args q.2)

/-- `emit-param-bindings`. -/
def emitParamBindings (params : List (Pattern X K)) : List (Binding X K) :=
  (emitEach (argAccess params) 0).1

/-- `emit-rest-param-binding`. -/
def emitRestParamBinding (restParam : Option (Option X)) (arity : Nat) : List (Binding X K) :=
  named restParam.join (.nthcdr arity .args)

/-! ## §3 Consumers -/

/-- The arity that all clauses have, if none has a rest parameter. -/
def uniformArity : List (Clause X K) → Option Nat
  | [] => none
  | c :: cs =>
    if (c :: cs).all fun c' => c'.restParam.isNone && c'.params.length = c.params.length
    then some c.params.length else none

def Pattern.symbolName : Pattern X K → Option (Name X)
  | .symbol x => some (.variable x)
  | .wildcard => some .wildcard
  | _ => none

inductive Form where
  | fn
  | defmethod
deriving DecidableEq

section Runs

variable [DecidableEq X]

/-- The name all clauses give the parameter, or the one that is interned. -/
def paramSym (clauses : List (Clause X K)) (i : Nat) : Name X :=
  match (clauses.head?.bind fun c => c.params[i]?).bind Pattern.symbolName with
  | some name =>
    if clauses.all fun c => (c.params[i]?).bind Pattern.symbolName = some name then name
      else .root (.param i)
  | none => .root (.param i)

/-- The parameters of the clause that the lambda list does not bind. -/
def unboundParams (clauses : List (Clause X K)) (params : List (Pattern X K)) :
    List (Pattern X K × Access K) :=
  (params.zipIdx.filter fun q => q.1.symbolName ≠ some (paramSym clauses q.2)).map fun q =>
    (q.1, .value (.param q.2))

/-- The binding list of a clause: `compile-fn-fixed-arity`, `compile-fn-rest-args` and the two cases
of `compile-defmethod-clauses`. -/
def emitClause (form : Form) (clauses : List (Clause X K)) (c : Clause X K) : List (Binding X K) :=
  match form, uniformArity clauses with
  | .fn, some _ => emitFixedArityParamBindings c.params
  | .defmethod, some _ => (emitEach (unboundParams clauses c.params) 0).1
  | _, none => emitParamBindings c.params ++ emitRestParamBinding c.restParam c.params.length

/-- The parameters of the lambda or method. -/
def lambdaList (form : Form) (clauses : List (Clause X K)) (arity : Nat) : List (Name X) :=
  (List.range arity).map fun i =>
    match form with
    | .fn => .root (.param i)
    | .defmethod => paramSym clauses i

/-! ## §4 Evaluation -/

/-- The values: the elements of a sequence of any kind, which may be one of Common Lisp and a list
of it or not, as a `<vector>` and a `<list>` are not, and the fields of a dict. No value is an
error. -/
structure Values (V K : Type) where
  items : V → Option (List V)
  isSequence : V → Bool
  isList : V → Bool
  list : List V → V
  get : V → K → Option V
  items_list (vs : List V) : items (list vs) = some vs
  isSequence_list (vs : List V) : isSequence (list vs) = true
  isList_list (vs : List V) : isList (list vs) = true

namespace Values

variable (M : Values V K)

def item (v : V) (i : Nat) : Option V := (M.items v).bind (·[i]?)

/-- The list of the elements after `i`. -/
def rest (i : Nat) (v : V) : Option V := (M.items v).map fun vs => M.list (vs.drop i)

/-- `(elt v i)`, which is `cl:elt`. -/
def elt (v : V) (i : Nat) : Option V := if M.isSequence v then M.item v i else none

/-- `(nthcdr i v)`. -/
def nthcdr (i : Nat) (v : V) : Option V := if M.isList v then M.rest i v else none

variable {M}

theorem elt_list {vs : List V} {i : Nat} {v : V} (h : vs[i]? = some v) :
    M.elt (M.list vs) i = some v := by
  rw [elt, if_pos (M.isSequence_list vs), item, M.items_list]
  exact h

theorem nthcdr_list (i : Nat) (vs : List V) :
    M.nthcdr i (M.list vs) = some (M.list (vs.drop i)) := by
  rw [nthcdr, if_pos (M.isList_list vs), rest, M.items_list]
  rfl

theorem elt_eq_some_iff {v u : V} {i : Nat} :
    M.elt v i = some u ↔ M.isSequence v = true ∧ M.item v i = some u := by
  rw [elt, Option.ite_none_right_eq_some]

end Values

abbrev Env (X V : Type) := Name X → Option V

/-- The value of a form; none where its root is not bound. -/
def evalAccess (M : Values V K) (env : Env X V) : Access K → Option V
  | .value r => env (.root r)
  | .elt r i => (env (.root r)).bind (M.elt · i)
  | .nthcdr i r => (env (.root r)).bind (M.nthcdr i)
  | .get r key => (env (.root r)).bind (M.get · key)

def Env.set (env : Env X V) (name : Name X) (v : V) : Env X V :=
  fun name' => if name' = name then some v else env name'

/-- `(let* bindings …)`. -/
def evalLetStar (M : Values V K) : List (Binding X K) → Env X V → Option (Env X V)
  | [], env => some env
  | (name, a) :: bindings, env => (evalAccess M env a).bind fun v =>
      evalLetStar M bindings (env.set name v)

/-- `(let bindings …)` inside `outer`. -/
def evalLet (M : Values V K) (outer : Env X V) : List (Binding X K) → Env X V → Option (Env X V)
  | [], env => some env
  | (name, a) :: bindings, env => (evalAccess M outer a).bind fun v =>
      evalLet M outer bindings (env.set name v)

/-- The parameters bound to the arguments. A lambda list that names a parameter twice is an
error. -/
def lambdaEnv (names : List (Name X)) (args : List V) : Option (Env X V) :=
  if names.Nodup then some fun name => (names.zip args).lookup name else none

/-- Bound is only the root `args`. -/
def argsEnv (v : V) : Env X V := fun name => if name = .root .args then some v else none

/-- What is bound for the body of the clause. -/
def runClause (M : Values V K) (form : Form) (clauses : List (Clause X K)) (c : Clause X K)
    (args : List V) :
    Option (Env X V) := do
  let env ← match uniformArity clauses with
    | some arity => lambdaEnv (lambdaList form clauses arity) args
    | none => some (argsEnv (M.list args))
  match form with
  | .fn => evalLet M env (emitClause form clauses c) env
  | .defmethod => evalLetStar M (emitClause form clauses c) env

/-- A binding of `emit-bind-chain` on the value of its form. A dict pattern stands in the place of a
variable, which is an error. -/
def runBind (M : Values V K) (p : Pattern X K) (v : V) : Option (Env X V) :=
  match p with
  | .vector elems marks =>
    evalLetStar M (emitSingleParamBinding (.vector elems marks) (.value .args) 0).1 (argsEnv v)
  | .symbol x => some ((argsEnv v).set (.variable x) v)
  | .wildcard => some ((argsEnv v).set .wildcard v)
  | .dict _ _ _ => none

/-! ## §5 Components -/

mutual

def Pattern.vars : Pattern X K → List X
  | .symbol x => [x]
  | .wildcard => []
  | .vector elems marks => elems.vars ++ marks.filterMap Mark.name
  | .dict keys whole _ => keys.vars ++ whole.toList

def Elements.vars : Elements X K → List X
  | .nil => []
  | .cons p elems => p.vars ++ elems.vars

def Keys.vars : Keys X K → List X
  | .nil => []
  | .field _ x keys => x :: keys.vars
  | .nested _ inner whole _ keys => (inner.vars ++ whole.toList) ++ keys.vars

end

def Clause.vars (c : Clause X K) : List X :=
  c.params.flatMap Pattern.vars ++ c.restParam.join.toList

/-- The component of `v` for the variable of a mark after `k` elements. -/
def Mark.component (M : Values V K) (k : Nat) (v : V) : Mark X → Option V
  | .rest _ => M.rest k v
  | .whole _ => some v

mutual

/-- The value has the components that the pattern takes. -/
def Pattern.Fits (M : Values V K) : Pattern X K → V → Prop
  | .symbol _, _ => True
  | .wildcard, _ => True
  | .vector elems marks, v =>
    elems.Fits M v 0 ∧ ∀ mark ∈ marks, mark.name.isSome → (mark.component M elems.length v).isSome
  | .dict keys _ _, v => keys.Fits M v

def Elements.Fits (M : Values V K) : Elements X K → V → Nat → Prop
  | .nil, _, _ => True
  | .cons p elems, v, i => (∃ u, M.item v i = some u ∧ p.Fits M u) ∧ elems.Fits M v (i + 1)

def Keys.Fits (M : Values V K) : Keys X K → V → Prop
  | .nil, _ => True
  | .field key _ keys, v => (M.get v key).isSome ∧ keys.Fits M v
  | .nested key inner _ _ keys, v => (∃ u, M.get v key = some u ∧ inner.Fits M u) ∧ keys.Fits M v

end

mutual

/-- The pattern gives the variable the component `w` of the value. -/
def Pattern.Designates (M : Values V K) (x : X) (w : V) : Pattern X K → V → Prop
  | .symbol y, v => y = x ∧ v = w
  | .wildcard, _ => False
  | .vector elems marks, v =>
    elems.Designates M x w v 0 ∨ ∃ mark ∈ marks, mark.name = some x ∧
      mark.component M elems.length v = some w
  | .dict keys whole _, v => keys.Designates M x w v ∨ (whole = some x ∧ v = w)

def Elements.Designates (M : Values V K) (x : X) (w : V) : Elements X K → V → Nat → Prop
  | .nil, _, _ => False
  | .cons p elems, v, i =>
    (∃ u, M.item v i = some u ∧ p.Designates M x w u) ∨ elems.Designates M x w v (i + 1)

def Keys.Designates (M : Values V K) (x : X) (w : V) : Keys X K → V → Prop
  | .nil, _ => False
  | .field key y keys, v => (y = x ∧ M.get v key = some w) ∨ keys.Designates M x w v
  | .nested key inner whole _ keys, v =>
    (∃ u, M.get v key = some u ∧ (inner.Designates M x w u ∨ (whole = some x ∧ u = w))) ∨
      keys.Designates M x w v

end

/-- The arguments are those of a call that the clause accepts. -/
structure Clause.Fits (M : Values V K) (c : Clause X K) (args : List V) : Prop where
  length_le : c.params.length ≤ args.length
  length_eq : c.restParam = none → args.length = c.params.length
  each : ∀ (i : Nat) (p : Pattern X K) (v : V), c.params[i]? = some p → args[i]? = some v →
    p.Fits M v

/-- A parameter takes its components from its argument, the rest parameter is the list of the other
arguments. -/
def Clause.Designates (M : Values V K) (c : Clause X K) (args : List V) (x : X) (w : V) : Prop :=
  (∃ (i : Nat) (p : Pattern X K) (v : V), c.params[i]? = some p ∧ args[i]? = some v ∧
    p.Designates M x w v) ∨
    (c.restParam = some (some x) ∧ w = M.list (args.drop c.params.length))

/-- A clause is evaluated and each variable bound to its component. -/
def Clause.Binds (M : Values V K) (form : Form) (clauses : List (Clause X K)) (c : Clause X K)
    (args : List V) : Prop :=
  ∃ env, runClause M form clauses c args = some env ∧
    ∀ x ∈ c.vars, ∃ w, c.Designates M args x w ∧ env (.variable x) = some w

/-- The same of a pattern of a `bind`. -/
def Pattern.Binds (M : Values V K) (p : Pattern X K) (v : V) : Prop :=
  ∃ env, runBind M p v = some env ∧ ∀ x ∈ p.vars, ∃ w, p.Designates M x w v ∧
  env (.variable x) = some w

end Runs

/-! ## §6 Names -/

section Lists

variable {M : Values V K} {env env' : Env X V} {bs cs : List (Binding X K)} {xs ys : List X}
  {name : Name X} {v w : V} {t : Root} {n n' k : Nat}

/-- The list binds variables among `xs` and temporaries from `n` on before `n'`. -/
def NamesIn (bs : List (Binding X K)) (xs : List X) (n n' : Nat) : Prop :=
  ∀ name ∈ bs.map Prod.fst,
    (∃ x ∈ xs, name = .variable x) ∨ ∃ m, n ≤ m ∧ m < n' ∧ name = .root (.temp m)

theorem NamesIn.mono (h : NamesIn bs xs n n') {k k' : Nat} (hxs : xs ⊆ ys) (hn : k ≤ n)
    (hn' : n' ≤ k') :
    NamesIn bs ys k k' := by
  intro name hname
  rcases h name hname with ⟨x, hx, rfl⟩ | ⟨m, hm, hm', rfl⟩
  · exact .inl ⟨x, hxs hx, rfl⟩
  · exact .inr ⟨m, by omega, by omega, rfl⟩

theorem NamesIn.append (h : NamesIn bs xs n n') (h' : NamesIn cs xs n n') :
    NamesIn (bs ++ cs) xs n n' := by
  intro name hname
  rw [List.map_append, List.mem_append] at hname
  exact hname.elim (h name) (h' name)

theorem NamesIn.cons {b : Binding X K} (h : NamesIn [b] xs n n') (h' : NamesIn bs xs n n') :
    NamesIn (b :: bs) xs n n' := h.append h'

theorem namesIn_nil : NamesIn ([] : List (Binding X K)) xs n n' := by
  intro name hname
  cases hname

theorem namesIn_named {a : Access K} {o : Option X} (hx : o.toList ⊆ xs) :
    NamesIn (named o a) xs n n' := by
  cases o with
  | none => exact namesIn_nil
  | some x =>
    intro name hname
    exact .inl ⟨x, hx (by simp), by simpa [named] using hname⟩

theorem mem_named {a : Access K} {o : Option X} {b : Binding X K} (hb : b ∈ named o a) :
    b.2 = a := by
  cases o with
  | none => cases hb
  | some x => rw [List.mem_singleton.mp hb]

theorem namesIn_temp {a : Access K} (hn : n < n') : NamesIn [(.root (.temp n), a)] xs n n' := by
  intro name hname
  exact .inr ⟨n, Nat.le_refl n, hn, by simpa using hname⟩

theorem NamesIn.variable_not_mem (h : NamesIn bs xs n n') {x : X} (hx : x ∉ xs) :
    .variable x ∉ bs.map Prod.fst := by
  intro hmem
  rcases h _ hmem with ⟨y, hy, heq⟩ | ⟨m, -, -, heq⟩
  · exact hx (Name.variable.inj heq ▸ hy)
  · cases heq

theorem NamesIn.root_not_mem (h : NamesIn bs xs n n') (ht : ∀ m, n ≤ m → m < n' → t ≠ .temp m) :
    .root t ∉ bs.map Prod.fst := by
  intro hmem
  rcases h _ hmem with ⟨y, -, heq⟩ | ⟨m, hm, hm', heq⟩
  · cases heq
  · exact ht m hm hm' (Name.root.inj heq)

end Lists

section Emission

variable {elems : Elements X K} {keys : Keys X K} {t : Root} {i n : Nat}
    {bindings : List (Binding X K)}

/-- The loop over a vector adds to the bindings. -/
theorem emitElements_eq :
    ∀ (elems : Elements X K) (t : Root) (i : Nat) (bindings : List (Binding X K)) (n : Nat),
    emitElements elems t i bindings n =
      (bindings ++ (emitElements elems t i [] n).1, (emitElements elems t i [] n).2)
  | .nil, _, _, _, _ => by simp [emitElements]
  | .cons p elems, t, i, bindings, n => by
    rw [emitElements, emitElements_eq elems, emitElements,
      emitElements_eq elems t (i + 1) ([] ++ _)]
    simp

theorem emitElements_cons {p : Pattern X K} :
    emitElements (.cons p elems) t i [] n =
      ((emitSingleParamBinding p (.elt t i) n).1 ++
          (emitElements elems t (i + 1) [] (emitSingleParamBinding p (.elt t i) n).2).1,
        (emitElements elems t (i + 1) [] (emitSingleParamBinding p (.elt t i) n).2).2) := by
  rw [emitElements, emitElements_eq]
  simp

theorem emitKeys_nested {key : K} {inner : Keys X K} {whole : Option X} {wholeFirst : Bool} :
    emitKeys (.nested key inner whole wholeFirst keys) t bindings n =
      emitKeys keys t
      (bindings ++ (emitSingleParamBinding (.dict inner whole wholeFirst) (.get t key) n).1)
        (emitSingleParamBinding (.dict inner whole wholeFirst) (.get t key) n).2 := by
  rw [emitKeys, emitSingleParamBinding]

/-- The loop over `:keys` adds to the bindings. -/
theorem emitKeys_eq : ∀ (keys : Keys X K) (t : Root) (bindings : List (Binding X K)) (n : Nat),
    emitKeys keys t bindings n = (bindings ++ (emitKeys keys t [] n).1, (emitKeys keys t [] n).2)
  | .nil, _, _, _ => by simp [emitKeys]
  | .field key x keys, t, bindings, n => by
    rw [emitKeys, emitKeys_eq keys, emitKeys, emitKeys_eq keys t ([] ++ _)]
    simp
  | .nested key inner whole wholeFirst keys, t, bindings, n => by
    rw [emitKeys_nested, emitKeys_eq keys, emitKeys_nested, emitKeys_eq keys t ([] ++ _)]
    simp

theorem emitKeys_field {key : K} {x : X} :
    emitKeys (.field key x keys) t [] n =
      ((.variable x, .get t key) :: (emitKeys keys t [] n).1, (emitKeys keys t [] n).2) := by
  rw [emitKeys, emitKeys_eq]
  simp

theorem emitKeys_nested_nil {key : K} {inner : Keys X K} {whole : Option X} {wholeFirst : Bool} :
    emitKeys (.nested key inner whole wholeFirst keys) t [] n =
      ((emitSingleParamBinding (.dict inner whole wholeFirst) (.get t key) n).1 ++
          (emitKeys keys t []
            (emitSingleParamBinding (.dict inner whole wholeFirst) (.get t key) n).2).1,
        (emitKeys keys t []
          (emitSingleParamBinding (.dict inner whole wholeFirst) (.get t key) n).2).2) := by
  rw [emitKeys_nested, emitKeys_eq]
  simp

theorem emitSingleParamBinding_dict {whole : Option X} {wholeFirst : Bool} {a : Access K} :
    emitSingleParamBinding (.dict keys whole wholeFirst) a n =
      ([(.root (.temp n), a)] ++ (if wholeFirst then named whole (.value (.temp n)) else []) ++
          (emitKeys keys (.temp n) [] (n + 1)).1 ++
          (if wholeFirst then [] else named whole (.value (.temp n))),
        (emitKeys keys (.temp n) [] (n + 1)).2) := by
  rw [emitSingleParamBinding, aroundKeys, emitKeys_eq]
  simp

/-- The bindings of the marks are in front, and read the temporary. -/
theorem emitMarks_eq (marks : List (Mark X)) (i : Nat) (bindings : List (Binding X K)) :
    ∃ front, emitMarks t marks i bindings = front ++ bindings ∧ (∀ b ∈ front, b.2.root = t) ∧
      (front = [] ↔ ∀ mark ∈ marks, mark.name = none) ∧
      ∀ m m', NamesIn front (marks.filterMap Mark.name) m m' := by
  induction marks generalizing i bindings with
  | nil => exact ⟨[], rfl, by simp, by simp, fun _ _ => namesIn_nil⟩
  | cons mark marks ih =>
    obtain ⟨a, ha, heq⟩ : ∃ a : Access K, a.root = t ∧
        emitMarks t (mark :: marks) i bindings =
        emitMarks t marks (i + 2) (named mark.name a ++ bindings) := by
      cases mark with
      | rest name => exact ⟨.nthcdr (i + 1) t, rfl, rfl⟩
      | whole name => exact ⟨.value t, rfl, rfl⟩
    obtain ⟨front, hfront, hroot, hnil, hnames⟩ := ih (i + 2) (named mark.name a ++ bindings)
    refine ⟨front ++ named mark.name a, by rw [heq, hfront, List.append_assoc], ?_, ?_, ?_⟩
    · intro b hb
      rcases List.mem_append.mp hb with hb | hb
      · exact hroot b hb
      · cases hname : mark.name with
        | none => rw [hname] at hb; cases hb
        | some x =>
          rw [hname] at hb
          rw [List.mem_singleton.mp hb]
          exact ha
    · cases hname : mark.name with
      | none => simp [named, hname, hnil]
      | some x => simp [named, hname]
    · intro m m'
      refine .append ((hnames m m').mono ?_ (Nat.le_refl _) (Nat.le_refl _)) (namesIn_named ?_)
      · intro x hx
        cases hname : mark.name <;> simp_all
      · intro x hx
        cases hname : mark.name <;> simp_all

theorem emitSingleParamBinding_vector (elems : Elements X K) (marks : List (Mark X)) (a : Access K)
    (n : Nat) :
    ∃ front, emitSingleParamBinding (.vector elems marks) a n =
        (front ++ ((.root (.temp n), a) :: (emitElements elems (.temp n) 0 [] (n + 1)).1),
          (emitElements elems (.temp n) 0 [] (n + 1)).2) ∧
      (∀ b ∈ front, b.2.root = .temp n) ∧ (front = [] ↔ ∀ mark ∈ marks, mark.name = none) ∧
      ∀ m m', NamesIn front (marks.filterMap Mark.name) m m' := by
  rw [emitSingleParamBinding, emitElements_eq]
  obtain ⟨front, hfront, h⟩ := emitMarks_eq (t := .temp n) marks elems.length
    ([(.root (.temp n), a)] ++ (emitElements elems (.temp n) 0 [] (n + 1)).1)
  exact ⟨front, by rw [hfront]; rfl, h⟩

end Emission

theorem dict_names (keys : Keys X K) (whole : Option X) (wholeFirst : Bool) (a : Access K) (n : Nat)
    (h : n + 1 ≤ (emitKeys keys (.temp n) [] (n + 1)).2 ∧
      NamesIn (emitKeys keys (.temp n) [] (n + 1)).1 keys.vars (n + 1)
      (emitKeys keys (.temp n) [] (n + 1)).2) :
    n ≤ (emitSingleParamBinding (.dict keys whole wholeFirst) a n).2 ∧
      NamesIn (emitSingleParamBinding (.dict keys whole wholeFirst) a n).1
        (Pattern.vars (.dict keys whole wholeFirst)) n
        (emitSingleParamBinding (.dict keys whole wholeFirst) a n).2 := by
  have hwhole : ∀ m m', NamesIn (named whole (.value (.temp n)) : List (Binding X K))
      (Pattern.vars (.dict keys whole wholeFirst)) m m' :=
      fun _ _ => namesIn_named (by simp [Pattern.vars])
  rw [emitSingleParamBinding_dict]
  refine ⟨by dsimp only; omega, ((namesIn_temp (by omega)).append ?_).append ?_ |>.append ?_⟩
  · cases wholeFirst with
    | true => exact hwhole _ _
    | false => exact namesIn_nil
  · exact h.2.mono (by simp [Pattern.vars]) (by omega) (Nat.le_refl _)
  · cases wholeFirst with
    | true => exact namesIn_nil
    | false => exact hwhole _ _

mutual

theorem emitSingleParamBinding_names : ∀ (p : Pattern X K) (a : Access K) (n : Nat),
    n ≤ (emitSingleParamBinding p a n).2 ∧
      NamesIn (emitSingleParamBinding p a n).1 p.vars n (emitSingleParamBinding p a n).2
  | .symbol x, a, n => by
    rw [emitSingleParamBinding]
    exact ⟨Nat.le_refl n, namesIn_named (o := some x) (by simp [Pattern.vars])⟩
  | .wildcard, a, n => by
    rw [emitSingleParamBinding]
    exact ⟨Nat.le_refl n, namesIn_nil⟩
  | .vector elems marks, a, n => by
    obtain ⟨hle, hnames⟩ := emitElements_names elems (.temp n) 0 (n + 1)
    obtain ⟨front, hemit, -, -, hmarks⟩ := emitSingleParamBinding_vector elems marks a n
    rw [hemit]
    refine ⟨by dsimp only; omega, .append ?_ (.cons ?_ ?_)⟩
    · exact (hmarks n _).mono (by simp [Pattern.vars]) (Nat.le_refl n) (Nat.le_refl _)
    · exact namesIn_temp (by omega)
    · exact hnames.mono (by simp [Pattern.vars]) (by omega) (Nat.le_refl _)
  | .dict keys whole wholeFirst, a, n =>
      dict_names keys whole wholeFirst a n (emitKeys_names keys (.temp n) (n + 1))

theorem emitElements_names : ∀ (elems : Elements X K) (t : Root) (i n : Nat),
    n ≤ (emitElements elems t i [] n).2 ∧
      NamesIn (emitElements elems t i [] n).1 elems.vars n (emitElements elems t i [] n).2
  | .nil, _, _, n => by
    rw [emitElements]
    exact ⟨Nat.le_refl n, namesIn_nil⟩
  | .cons p elems, t, i, n => by
    obtain ⟨hle, hnames⟩ := emitSingleParamBinding_names p (.elt t i) n
    obtain ⟨hle', hnames'⟩ :=
      emitElements_names elems t (i + 1) (emitSingleParamBinding p (.elt t i) n).2
    rw [emitElements_cons]
    refine ⟨by dsimp only; omega, .append ?_ ?_⟩
    · exact hnames.mono (by simp [Elements.vars]) (Nat.le_refl n) hle'
    · exact hnames'.mono (by simp [Elements.vars]) hle (Nat.le_refl _)

theorem emitKeys_names : ∀ (keys : Keys X K) (t : Root) (n : Nat),
    n ≤ (emitKeys keys t [] n).2 ∧
    NamesIn (emitKeys keys t [] n).1 keys.vars n (emitKeys keys t [] n).2
  | .nil, _, n => by
    rw [emitKeys]
    exact ⟨Nat.le_refl n, namesIn_nil⟩
  | .field key x keys, t, n => by
    obtain ⟨hle, hnames⟩ := emitKeys_names keys t n
    rw [emitKeys_field]
    refine ⟨hle, .cons ?_ (hnames.mono (by simp [Keys.vars]) (Nat.le_refl n) (Nat.le_refl _))⟩
    exact namesIn_named (o := some x) (by simp [Keys.vars])
  | .nested key inner whole wholeFirst keys, t, n => by
    obtain ⟨hle, hnames⟩ :=
      dict_names inner whole wholeFirst (.get t key) n (emitKeys_names inner (.temp n) (n + 1))
    obtain ⟨hle', hnames'⟩ :=
      emitKeys_names keys t (emitSingleParamBinding (.dict inner whole wholeFirst) (.get t key) n).2
    rw [emitKeys_nested_nil]
    refine ⟨by dsimp only; omega, .append ?_ ?_⟩
    · exact hnames.mono (by simp [Keys.vars, Pattern.vars]) (Nat.le_refl n) hle'
    · exact hnames'.mono (by simp [Keys.vars]) hle (Nat.le_refl _)

end

theorem emitEach_names (ps : List (Pattern X K × Access K)) (n : Nat) :
    n ≤ (emitEach ps n).2 ∧
    NamesIn (emitEach ps n).1 (ps.flatMap (·.1.vars)) n (emitEach ps n).2 := by
  induction ps generalizing n with
  | nil => exact ⟨Nat.le_refl n, namesIn_nil⟩
  | cons q ps ih =>
    obtain ⟨p, a⟩ := q
    obtain ⟨hle, hnames⟩ := emitSingleParamBinding_names p a n
    obtain ⟨hle', hnames'⟩ := ih (emitSingleParamBinding p a n).2
    rw [emitEach]
    refine ⟨by dsimp only; omega, .append ?_ ?_⟩
    · exact hnames.mono (by simp) (Nat.le_refl n) hle'
    · exact hnames'.mono (by simp) hle (Nat.le_refl _)

/-! ## §7 Order -/

mutual

/-- No vector in the pattern has a variable for `&` or `:as`. -/
def Pattern.Plain : Pattern X K → Prop
  | .symbol _ => True
  | .wildcard => True
  | .vector elems marks => elems.Plain ∧ ∀ mark ∈ marks, mark.name = none
  | .dict _ _ _ => True

def Elements.Plain : Elements X K → Prop
  | .nil => True
  | .cons p elems => p.Plain ∧ elems.Plain

end

mutual

/-- A vector pattern with an element other than `_` stands for a sequence of Common Lisp. -/
def Pattern.Readable (M : Values V K) : Pattern X K → V → Prop
  | .vector elems _, v => elems.Readable M v 0
  | _, _ => True

def Elements.Readable (M : Values V K) : Elements X K → V → Nat → Prop
  | .nil, _, _ => True
  | .cons p elems, v, i =>
    (p ≠ .wildcard → M.isSequence v = true ∧ ∀ u, M.item v i = some u → p.Readable M u) ∧
      elems.Readable M v (i + 1)

end

def Elements.Blank : Elements X K → Prop
  | .nil => True
  | .cons p elems => p = .wildcard ∧ elems.Blank

/-- A variable, or a pattern that takes nothing from its value. -/
def Pattern.Flat : Pattern X K → Prop
  | .symbol _ => True
  | .wildcard => True
  | .vector elems marks => elems.Blank ∧ ∀ mark ∈ marks, mark.name = none
  | .dict keys whole _ => keys = .nil ∧ whole = none

theorem Elements.Blank.plain : ∀ {elems : Elements X K}, elems.Blank → elems.Plain
  | .nil, _ => trivial
  | .cons _ _, ⟨rfl, h⟩ => ⟨trivial, h.plain⟩

theorem Elements.Blank.readable {M : Values V K} {v : V} :
    ∀ {elems : Elements X K} {i : Nat}, elems.Blank →
    elems.Readable M v i
  | .nil, _, _ => trivial
  | .cons _ _, _, ⟨rfl, h⟩ => ⟨fun hne => absurd rfl hne, h.readable⟩

theorem Pattern.Flat.readable {M : Values V K} {p : Pattern X K} (h : p.Flat) (v : V) :
    p.Readable M v := by
  cases p with
  | symbol x => trivial
  | wildcard => trivial
  | vector elems marks => exact h.1.readable
  | dict keys whole wholeFirst => trivial

theorem Pattern.Flat.plain {p : Pattern X K} (h : p.Flat) : p.Plain := by
  cases p with
  | symbol x => trivial
  | wildcard => trivial
  | vector elems marks => exact ⟨h.1.plain, h.2⟩
  | dict keys whole wholeFirst => trivial

section Reads

variable {a : Access K} {n : Nat} {t : Root} {p : Pattern X K} {ps : List (Pattern X K × Access K)}

/-- A plain pattern other than `_` reads its access expression first. -/
theorem emit_head (hp : p ≠ .wildcard) (hplain : p.Plain) :
    ∃ name bs, (emitSingleParamBinding p a n).1 = (name, a) :: bs := by
  cases p with
  | symbol x => exact ⟨.variable x, [], rfl⟩
  | wildcard => exact absurd rfl hp
  | vector elems marks =>
    obtain ⟨front, hemit, -, hnil, -⟩ := emitSingleParamBinding_vector elems marks a n
    rw [hemit, hnil.mpr hplain.2]
    exact ⟨_, _, rfl⟩
  | dict keys whole wholeFirst =>
    rw [emitSingleParamBinding_dict]
    exact ⟨_, _, rfl⟩

/-- A pattern other than `_` reads its access expression. -/
theorem reads_access (hp : p ≠ .wildcard) : ∃ b ∈ (emitSingleParamBinding p a n).1, b.2 = a := by
  cases p with
  | symbol x => exact ⟨(.variable x, a), by simp [emitSingleParamBinding], rfl⟩
  | wildcard => exact absurd rfl hp
  | vector elems marks =>
    refine ⟨(.root (.temp n), a), ?_, rfl⟩
    obtain ⟨front, hemit, -⟩ := emitSingleParamBinding_vector elems marks a n
    simp [hemit]
  | dict keys whole wholeFirst =>
    refine ⟨(.root (.temp n), a), ?_, rfl⟩
    rw [emitSingleParamBinding_dict]
    simp

theorem reads_element : ∀ {elems : Elements X K} {i n : Nat}, ¬ elems.Blank →
    ∃ b ∈ (emitElements elems t i [] n).1, b.2.root = t
  | .nil, _, _, h => absurd trivial h
  | .cons p elems, i, n, h => by
    rw [emitElements_cons]
    by_cases hp : p = .wildcard
    · obtain ⟨b, hb, hroot⟩ :=
        reads_element (i := i + 1) (n := (emitSingleParamBinding p (.elt t i) n).2)
        fun hblank => h ⟨hp, hblank⟩
      exact ⟨b, List.mem_append_right _ hb, hroot⟩
    · obtain ⟨b, hb, hread⟩ := reads_access (a := .elt t i) (n := n) hp
      exact ⟨b, List.mem_append_left _ hb, by rw [hread]; rfl⟩

theorem reads_key {keys : Keys X K} (h : keys ≠ .nil) :
    ∃ b ∈ (emitKeys keys t [] n).1, b.2.root = t := by
  cases keys with
  | nil => exact absurd rfl h
  | field key x keys =>
    rw [emitKeys_field]
    exact ⟨(.variable x, .get t key), List.mem_cons_self, rfl⟩
  | nested key inner whole wholeFirst keys =>
    rw [emitKeys_nested_nil]
    obtain ⟨b, hb, hread⟩ :=
      reads_access (p := .dict inner whole wholeFirst) (a := .get t key) (n := n) (by simp)
    exact ⟨b, List.mem_append_left _ hb, by rw [hread]; rfl⟩

/-- A pattern that is not flat reads its temporary. -/
theorem reads_temp (h : ¬ p.Flat) : ∃ b ∈ (emitSingleParamBinding p a n).1, b.2.root = .temp n := by
  cases p with
  | symbol x => exact absurd trivial h
  | wildcard => exact absurd trivial h
  | vector elems marks =>
    obtain ⟨front, hemit, hroot, hnil, -⟩ := emitSingleParamBinding_vector elems marks a n
    rw [hemit]
    by_cases hmarks : ∀ mark ∈ marks, mark.name = none
    · obtain ⟨b, hb, hread⟩ := reads_element (t := .temp n) (i := 0) (n := n + 1) fun hblank =>
        h ⟨hblank, hmarks⟩
      exact ⟨b, by simp [hb], hread⟩
    · obtain ⟨b, hb⟩ := List.exists_mem_of_ne_nil front (mt hnil.mp hmarks)
      exact ⟨b, List.mem_append_left _ hb, hroot b hb⟩
  | dict keys whole wholeFirst =>
    rw [emitSingleParamBinding_dict]
    by_cases hkeys : keys = .nil
    · cases whole with
      | none => exact absurd ⟨hkeys, rfl⟩ h
      | some x =>
        refine ⟨(.variable x, .value (.temp n)), ?_, rfl⟩
        cases wholeFirst <;> simp [named]
    · obtain ⟨b, hb, hread⟩ := reads_key (t := .temp n) (n := n + 1) hkeys
      exact ⟨b, by simp [hb], hread⟩

theorem emitElements_blank : ∀ {elems : Elements X K} {t : Root} {i n : Nat}, elems.Blank →
    (emitElements elems t i [] n).1 = []
  | .nil, _, _, _, _ => rfl
  | .cons _ elems, t, i, n, ⟨rfl, h⟩ => by
    rw [emitElements_cons]
    exact emitElements_blank h

/-- A flat pattern reads nothing but its access expression. -/
theorem mem_flat_emit (hp : p.Flat) {b : Binding X K}
    (hb : b ∈ (emitSingleParamBinding p a n).1) : b.2 = a := by
  cases p with
  | symbol x =>
    rw [emitSingleParamBinding] at hb
    rw [List.mem_singleton.mp hb]
  | wildcard =>
    rw [emitSingleParamBinding] at hb
    cases hb
  | vector elems marks =>
    obtain ⟨front, hemit, -, hnil, -⟩ := emitSingleParamBinding_vector elems marks a n
    rw [hemit, hnil.mpr hp.2, emitElements_blank hp.1] at hb
    rw [List.mem_singleton.mp hb]
  | dict keys whole wholeFirst =>
    obtain ⟨rfl, rfl⟩ := hp
    rw [emitSingleParamBinding_dict] at hb
    cases wholeFirst <;> simp [named, emitKeys] at hb <;> rw [hb]

theorem mem_flat_emitEach (hflat : ∀ q ∈ ps, q.1.Flat) {b : Binding X K}
    (hb : b ∈ (emitEach ps n).1) :
    ∃ q ∈ ps, b.2 = q.2 := by
  induction ps generalizing n with
  | nil => cases hb
  | cons q ps ih =>
    obtain ⟨p, a⟩ := q
    rcases List.mem_append.mp hb with hb | hb
    · exact ⟨(p, a), List.mem_cons_self, mem_flat_emit (hflat _ List.mem_cons_self) hb⟩
    · obtain ⟨q, hq, hread⟩ := ih (fun q hq => hflat q (List.mem_cons_of_mem _ hq)) hb
      exact ⟨q, List.mem_cons_of_mem _ hq, hread⟩

theorem mem_emitEach {q : Pattern X K × Access K} (hq : q ∈ ps) :
    ∃ m, (emitSingleParamBinding q.1 q.2 m).1 ⊆ (emitEach ps n).1 := by
  induction ps generalizing n with
  | nil => cases hq
  | cons q' ps ih =>
    obtain ⟨p, a⟩ := q'
    rcases List.mem_cons.mp hq with rfl | hq
    · exact ⟨n, fun b hb => List.mem_append_left _ hb⟩
    · obtain ⟨m, hm⟩ := ih (n := (emitSingleParamBinding p a n).2) hq
      exact ⟨m, fun b hb => List.mem_append_right _ (hm hb)⟩

end Reads

section Order

variable [DecidableEq X] {M : Values V K} {env env' outer : Env X V} {bs cs : List (Binding X K)}
    {xs ys : List X}
  {name : Name X} {v w : V} {t : Root} {n n' k : Nat} {ps : List (Pattern X K × Access K)}

theorem evalLetStar_append :
    evalLetStar M (bs ++ cs) env = (evalLetStar M bs env).bind (evalLetStar M cs) := by
  induction bs generalizing env with
  | nil => rfl
  | cons b bs ih =>
    obtain ⟨name, a⟩ := b
    simp only [List.cons_append, evalLetStar]
    cases evalAccess M env a with
    | none => rfl
    | some v => exact ih

/-- A name that is not bound keeps its value. -/
theorem evalLetStar_keeps (h : evalLetStar M bs env = some env') (hname : name ∉ bs.map Prod.fst) :
    env' name = env name := by
  induction bs generalizing env with
  | nil => rw [Option.some.inj h]
  | cons b bs ih =>
    obtain ⟨bound, a⟩ := b
    rw [List.map_cons, List.mem_cons, not_or] at hname
    obtain ⟨v, -, hrest⟩ := Option.bind_eq_some_iff.mp h
    rw [ih hrest hname.2]
    exact if_neg hname.1

omit [DecidableEq X] in
theorem evalAccess_unbound {a : Access K} (h : env (.root a.root) = none) :
    evalAccess M env a = none := by
  cases a <;> simp_all [evalAccess, Access.root]

/-- No temporary from `n` on is bound. -/
def Fresh (env : Env X V) (n : Nat) : Prop := ∀ m, n ≤ m → env (.root (.temp m)) = none

theorem Fresh.after (h : Fresh env n) (hnames : NamesIn bs xs n n') (hn : n ≤ n')
    (heval : evalLetStar M bs env = some env') : Fresh env' n' := by
  intro m hm
  rw [evalLetStar_keeps heval (hnames.root_not_mem fun k _ hk => by simp; omega)]
  exact h m (by omega)

theorem evalLet_fails {b : Binding X K} (hb : b ∈ bs) (h : evalAccess M outer b.2 = none) :
    evalLet M outer bs env = none := by
  induction bs generalizing env with
  | nil => cases hb
  | cons b' bs ih =>
    obtain ⟨name, a⟩ := b'
    rw [evalLet, Option.bind_eq_none_iff]
    intro v hv
    rcases List.mem_cons.mp hb with rfl | hb
    · rw [h] at hv
      cases hv
    · exact ih hb

/-- A `let` of a pattern that is not flat reads a temporary that is not bound. -/
theorem evalLet_emitEach_fails {q : Pattern X K × Access K} (hq : q ∈ ps) (hflat : ¬ q.1.Flat)
    (hfresh : Fresh outer 0) (hsub : (emitEach ps n).1 ⊆ bs) : evalLet M outer bs env = none := by
  obtain ⟨m, hm⟩ := mem_emitEach (n := n) hq
  obtain ⟨b, hb, hroot⟩ := reads_temp (a := q.2) (n := m) hflat
  exact evalLet_fails (hsub (hm hb)) (evalAccess_unbound (hroot ▸ hfresh m (Nat.zero_le m)))

mutual

/-- A `let*` of a pattern that is not plain reads a temporary before it is bound. -/
theorem evalLetStar_fails :
    ∀ (p : Pattern X K) (a : Access K) (n : Nat) (env : Env X V), ¬ p.Plain →
    Fresh env n → evalLetStar M (emitSingleParamBinding p a n).1 env = none
  | .symbol _, _, _, _, h, _ => absurd trivial h
  | .wildcard, _, _, _, h, _ => absurd trivial h
  | .dict _ _ _, _, _, _, h, _ => absurd trivial h
  | .vector elems marks, a, n, env, h, hfresh => by
    obtain ⟨front, hemit, hroot, hnil, -⟩ := emitSingleParamBinding_vector elems marks a n
    rw [hemit]
    cases front with
    | cons b front =>
      have hread : evalAccess M env b.2 = none :=
        evalAccess_unbound (hroot b List.mem_cons_self ▸ hfresh n (Nat.le_refl n))
      rw [List.cons_append, evalLetStar, hread]
      rfl
    | nil =>
      have hmarks := hnil.mp rfl
      rw [List.nil_append, evalLetStar, Option.bind_eq_none_iff]
      intro v _
      refine evalLetStar_elements_fails elems (.temp n) 0 (n + 1) _
        (fun helems => h ⟨helems, hmarks⟩) ?_
      intro m hm
      exact (if_neg (by simp; omega)).trans (hfresh m (by omega))

theorem evalLetStar_elements_fails :
    ∀ (elems : Elements X K) (t : Root) (i n : Nat) (env : Env X V),
    ¬ elems.Plain → Fresh env n → evalLetStar M (emitElements elems t i [] n).1 env = none
  | .nil, _, _, _, _, h, _ => absurd trivial h
  | .cons p elems, t, i, n, env, h, hfresh => by
    rw [emitElements_cons, evalLetStar_append]
    obtain ⟨hle, hnames⟩ := emitSingleParamBinding_names p (.elt t i) n
    by_cases hp : p.Plain
    · rw [Option.bind_eq_none_iff]
      intro env' henv
      exact evalLetStar_elements_fails elems t (i + 1) _ env' (fun helems => h ⟨hp, helems⟩)
        (hfresh.after hnames hle henv)
    · rw [evalLetStar_fails p (.elt t i) n env hp hfresh]
      rfl

end

theorem evalLetStar_keeps_root (h : evalLetStar M bs env = some env') (hnames : NamesIn bs xs n n')
    (ht : ∀ m, n ≤ m → t ≠ .temp m) : env' (.root t) = env (.root t) :=
  evalLetStar_keeps h (hnames.root_not_mem fun m hm _ => ht m hm)

omit [DecidableEq X] in
theorem evalAccess_congr {a : Access K} (h : env' (.root a.root) = env (.root a.root)) :
    evalAccess M env' a = evalAccess M env a := by
  cases a <;> simp_all [evalAccess, Access.root]

mutual

/-- A plain pattern that is evaluated reads its elements from sequences. -/
theorem readable_pattern :
    ∀ (p : Pattern X K) (a : Access K) (n : Nat) (env env' : Env X V) (v : V), p.Plain →
    evalAccess M env a = some v → evalLetStar M (emitSingleParamBinding p a n).1 env = some env' →
    p.Readable M v
  | .symbol _, _, _, _, _, _, _, _, _ => trivial
  | .wildcard, _, _, _, _, _, _, _, _ => trivial
  | .dict _ _ _, _, _, _, _, _, _, _, _ => trivial
  | .vector elems marks, a, n, env, env', v, hplain, ha, heval => by
    obtain ⟨front, hemit, -, hnil, -⟩ := emitSingleParamBinding_vector elems marks a n
    rw [hemit, hnil.mpr hplain.2, List.nil_append, evalLetStar, ha] at heval
    exact readable_elements elems (.temp n) 0 (n + 1) _ env' v hplain.1 (if_pos rfl)
      (by simp; omega) heval

theorem readable_elements :
    ∀ (elems : Elements X K) (t : Root) (i n : Nat) (env env' : Env X V) (v : V),
    elems.Plain → env (.root t) = some v → (∀ m, n ≤ m → t ≠ .temp m) →
    evalLetStar M (emitElements elems t i [] n).1 env = some env' → elems.Readable M v i
  | .nil, _, _, _, _, _, _, _, _, _, _ => trivial
  | .cons p elems, t, i, n, env, env', v, hplain, ht, htemp, heval => by
    obtain ⟨hle, hnames⟩ := emitSingleParamBinding_names p (.elt t i) n
    rw [emitElements_cons, evalLetStar_append] at heval
    obtain ⟨env₁, heval₁, heval⟩ := Option.bind_eq_some_iff.mp heval
    refine ⟨fun hp => ?_, ?_⟩
    · obtain ⟨name, bs, hhead⟩ := emit_head (a := .elt t i) (n := n) hp hplain.1
      have hfirst := heval₁
      rw [hhead, evalLetStar] at hfirst
      obtain ⟨u, hu, -⟩ := Option.bind_eq_some_iff.mp hfirst
      have helt : M.elt v i = some u := by simpa [evalAccess, ht] using hu
      obtain ⟨hseq, hitem⟩ := Values.elt_eq_some_iff.mp helt
      refine ⟨hseq, fun u' hu' => ?_⟩
      obtain rfl : u = u' := Option.some.inj (hitem.symm.trans hu')
      exact readable_pattern p (.elt t i) n env env₁ u hplain.1 hu heval₁
    · refine readable_elements elems t (i + 1) _ env₁ env' v hplain.2 ?_
        (fun m hm => htemp m (by omega)) heval
      rw [evalLetStar_keeps_root heval₁ hnames htemp, ht]

end

theorem readable_emitEach (hplain : ∀ q ∈ ps, q.1.Plain) (hroot : ∀ q ∈ ps, ∀ m, q.2.root ≠ .temp m)
    (heval : evalLetStar M (emitEach ps n).1 env = some env') {q : Pattern X K × Access K}
    (hq : q ∈ ps)
    (hv : evalAccess M env q.2 = some v) : q.1.Readable M v := by
  induction ps generalizing n env with
  | nil => cases hq
  | cons q' ps ih =>
    obtain ⟨p, a⟩ := q'
    obtain ⟨-, hnames⟩ := emitSingleParamBinding_names p a n
    rw [emitEach, evalLetStar_append] at heval
    obtain ⟨env₁, heval₁, heval⟩ := Option.bind_eq_some_iff.mp heval
    rcases List.mem_cons.mp hq with rfl | hq
    · exact readable_pattern p a n env env₁ v (hplain _ List.mem_cons_self) hv heval₁
    · refine ih (fun q hq => hplain q (List.mem_cons_of_mem _ hq))
        (fun q hq => hroot q (List.mem_cons_of_mem _ hq)) heval hq ?_
      rwa [evalAccess_congr (evalLetStar_keeps_root heval₁ hnames fun m _ =>
        hroot q (List.mem_cons_of_mem _ hq) m)]

theorem evalLetStar_emitEach_fails {q : Pattern X K × Access K} (hq : q ∈ ps) (hplain : ¬ q.1.Plain)
    (hfresh : Fresh env n) : evalLetStar M (emitEach ps n).1 env = none := by
  induction ps generalizing n env with
  | nil => cases hq
  | cons q' ps ih =>
    obtain ⟨p, a⟩ := q'
    obtain ⟨hle, hnames⟩ := emitSingleParamBinding_names p a n
    rw [emitEach, evalLetStar_append]
    rcases List.mem_cons.mp hq with rfl | hq
    · rw [evalLetStar_fails p a n env hplain hfresh]
      rfl
    · rw [Option.bind_eq_none_iff]
      intro env' henv
      exact ih hq (hfresh.after hnames hle henv)

end Order

/-! ## §8 Sequence -/

section Sequence

variable [DecidableEq X] {M : Values V K} {env env' : Env X V} {bs cs : List (Binding X K)}
    {xs ys : List X}
  {v w : V} {t : Root} {n n' k : Nat} {D D' : X → V → Prop} {a : Access K}

/-- The list is evaluated, and each variable of `xs` has the value that `D` demands. -/
def Gives (M : Values V K) (bs : List (Binding X K)) (env : Env X V) (xs : List X)
    (D : X → V → Prop) : Prop :=
  ∃ env', evalLetStar M bs env = some env' ∧ ∀ x ∈ xs, ∃ w, D x w ∧ env' (.variable x) = some w

theorem gives_nil : Gives M ([] : List (Binding X K)) env [] D := ⟨env, rfl, by simp⟩

theorem Gives.mono (h : Gives M bs env xs D) (hD : ∀ x w, D x w → D' x w) :
    Gives M bs env xs D' := by
  obtain ⟨env', heval, hxs⟩ := h
  refine ⟨env', heval, fun x hx => ?_⟩
  obtain ⟨w, hw, hx'⟩ := hxs x hx
  exact ⟨w, hD x w hw, hx'⟩

/-- One list after another that binds none of its variables. -/
theorem Gives.append (h : Gives M bs env xs D)
    (h' : ∀ env', evalLetStar M bs env = some env' → Gives M cs env' ys D)
    (hxs : ∀ x ∈ xs, .variable x ∉ cs.map Prod.fst) : Gives M (bs ++ cs) env (xs ++ ys) D := by
  obtain ⟨env', heval, hvars⟩ := h
  obtain ⟨env'', heval', hvars'⟩ := h' env' heval
  refine ⟨env'', by rw [evalLetStar_append, heval]; exact heval', ?_⟩
  intro x hx
  rcases List.mem_append.mp hx with hx | hx
  · rw [evalLetStar_keeps heval' (hxs x hx)]
    exact hvars x hx
  · exact hvars' x hx

theorem gives_variable {x : X} (h : evalAccess M env a = some v) (hD : D x v) :
    Gives M [(.variable x, a)] env [x] D := by
  refine ⟨env.set (.variable x) v, by simp [evalLetStar, h], ?_⟩
  intro y hy
  rw [List.mem_singleton.mp hy]
  exact ⟨v, hD, if_pos rfl⟩

theorem gives_named {o : Option X} (h : evalAccess M env a = some v)
    (hD : ∀ x, o = some x → D x v) :
    Gives M (named o a) env o.toList D := by
  cases o with
  | none => exact gives_nil
  | some x => exact gives_variable h (hD x rfl)

/-- A temporary before the list that reads it. -/
theorem gives_temp (h : evalAccess M env a = some v)
    (hbs : Gives M bs (env.set (.root (.temp n)) v) xs D) :
    Gives M ((.root (.temp n), a) :: bs) env xs D := by
  obtain ⟨env', heval, hxs⟩ := hbs
  exact ⟨env', by rw [evalLetStar, h]; exact heval, hxs⟩

theorem gives_dict {keys : Keys X K} {whole : Option X} {wholeFirst : Bool}
    (hvars : (Pattern.vars (.dict keys whole wholeFirst)).Nodup) (ha : evalAccess M env a = some v)
    (hkeys : ∀ env' : Env X V, env' (.root (.temp n)) = some v →
      Gives M (emitKeys keys (.temp n) [] (n + 1)).1 env' keys.vars fun x w =>
      keys.Designates M x w v) :
    Gives M (emitSingleParamBinding (.dict keys whole wholeFirst) a n).1 env
      (Pattern.vars (.dict keys whole wholeFirst))
      fun x w => Pattern.Designates M x w (.dict keys whole wholeFirst) v := by
  obtain ⟨-, hnames⟩ := emitKeys_names keys (.temp n) (n + 1)
  have hdisj : ∀ x ∈ keys.vars, x ∉ whole.toList := fun x hx hx' =>
    (List.nodup_append.mp hvars).2.2 x hx x hx' rfl
  have hnamed :
    NamesIn (named whole (.value (.temp n)) : List (Binding X K)) whole.toList (n + 1) (n + 1) :=
    namesIn_named (List.Subset.refl _)
  have hwhole : ∀ env' : Env X V, env' (.root (.temp n)) = some v →
      Gives M (named whole (.value (.temp n))) env' whole.toList
        fun x w => Pattern.Designates M x w (.dict keys whole wholeFirst) v :=
    fun env' henv => gives_named (v := v) henv fun x hx => .inr ⟨hx, rfl⟩
  have hkeys' : ∀ env' : Env X V, env' (.root (.temp n)) = some v →
      Gives M (emitKeys keys (.temp n) [] (n + 1)).1 env' keys.vars
        fun x w => Pattern.Designates M x w (.dict keys whole wholeFirst) v :=
    fun env' henv => (hkeys env' henv).mono fun _ _ => .inl
  have hset : (env.set (.root (.temp n)) v) (.root (.temp n)) = some v := if_pos rfl
  rw [emitSingleParamBinding_dict]
  cases wholeFirst with
  | true =>
    obtain ⟨env', heval, hall⟩ := gives_temp ha <| (hwhole _ hset).append
      (fun env' henv => hkeys' env'
        (by rw [evalLetStar_keeps_root henv hnamed (t := .temp n) (by simp; omega)]; exact hset))
      (fun x hx => hnames.variable_not_mem fun hx' => hdisj x hx' hx)
    refine ⟨env', by simpa using heval, fun x hx => hall x ?_⟩
    rw [Pattern.vars] at hx
    simpa [or_comm] using hx
  | false =>
    obtain ⟨env', heval, hall⟩ := gives_temp ha <| (hkeys' _ hset).append
      (fun env' henv => hwhole env'
        (by rw [evalLetStar_keeps_root henv hnames (t := .temp n) (by simp; omega)]; exact hset))
      (fun x hx => hnamed.variable_not_mem fun hx' => hdisj x hx hx')
    exact ⟨env', by simpa using heval, hall⟩

mutual

/-- A plain pattern in sequence: its variables get their components. -/
theorem gives_pattern :
    ∀ (p : Pattern X K) (a : Access K) (n : Nat) (env : Env X V) (v : V), p.Plain →
    p.Readable M v → p.Fits M v → p.vars.Nodup → evalAccess M env a = some v →
    Gives M (emitSingleParamBinding p a n).1 env p.vars fun x w => p.Designates M x w v
  | .symbol x, a, n, env, v, _, _, _, _, ha => by
    rw [emitSingleParamBinding]
    exact gives_variable ha ⟨rfl, rfl⟩
  | .wildcard, a, n, env, v, _, _, _, _, _ => by
    rw [emitSingleParamBinding]
    exact gives_nil
  | .vector elems marks, a, n, env, v, hplain, hread, hfits, hvars, ha => by
    obtain ⟨front, hemit, -, hnil, -⟩ := emitSingleParamBinding_vector elems marks a n
    have hmarks : marks.filterMap Mark.name = [] := List.filterMap_eq_nil_iff.mpr hplain.2
    have hnames : Pattern.vars (.vector elems marks) = elems.vars := by
      rw [Pattern.vars, hmarks, List.append_nil]
    rw [hemit, hnil.mpr hplain.2, hnames]
    refine gives_temp ha
      ((gives_elements elems (.temp n) 0 (n + 1) _ v hplain.1 hread hfits.1 (hnames ▸ hvars)
      (if_pos rfl) (by simp; omega)).mono ?_)
    exact fun _ _ => .inl
  | .dict keys whole wholeFirst, a, n, env, v, _, _, hfits, hvars, ha => by
    refine gives_dict hvars ha fun env' henv => ?_
    exact gives_keys keys (.temp n) (n + 1) env' v hfits (List.nodup_append.mp hvars).1
      henv (by simp; omega)

theorem gives_elements :
    ∀ (elems : Elements X K) (t : Root) (i n : Nat) (env : Env X V) (v : V), elems.Plain →
    elems.Readable M v i → elems.Fits M v i → elems.vars.Nodup →
    env (.root t) = some v → (∀ m, n ≤ m → t ≠ .temp m) →
    Gives M (emitElements elems t i [] n).1 env elems.vars fun x w => elems.Designates M x w v i
  | .nil, _, _, _, _, _, _, _, _, _, _, _ => by
    rw [emitElements]
    exact gives_nil
  | .cons p elems, t, i, n, env, v, hplain, hread, hfits, hvars, ht, htemp => by
    obtain ⟨u, hu, hp⟩ := hfits.1
    obtain ⟨hle, hnames⟩ := emitSingleParamBinding_names p (.elt t i) n
    obtain ⟨-, hnames'⟩ :=
      emitElements_names elems t (i + 1) (emitSingleParamBinding p (.elt t i) n).2
    obtain ⟨hnodup, hnodup', hdisj⟩ := List.nodup_append.mp hvars
    rw [emitElements_cons]
    have hfirst : Gives M (emitSingleParamBinding p (.elt t i) n).1 env p.vars fun x w =>
      p.Designates M x w u := by
      by_cases hne : p = .wildcard
      · subst hne
        rw [emitSingleParamBinding]
        exact gives_nil
      · obtain ⟨hseq, hread'⟩ := hread.1 hne
        have helt : evalAccess M env (.elt t i) = some u := by
          simpa [evalAccess, ht] using Values.elt_eq_some_iff.mpr ⟨hseq, hu⟩
        exact gives_pattern p (.elt t i) n env u hplain.1 (hread' u hu) hp hnodup helt
    refine (hfirst.mono ?_).append ?_ ?_
    · exact fun _ _ hw => .inl ⟨u, hu, hw⟩
    · intro env' henv
      have ht' : env' (.root t) = some v := by rw [evalLetStar_keeps_root henv hnames htemp, ht]
      refine (gives_elements elems t (i + 1) _ env' v hplain.2 hread.2 hfits.2 hnodup' ht'
        ?_).mono ?_
      · exact fun m hm => htemp m (by omega)
      · exact fun _ _ => .inr
    · exact fun x hx => hnames'.variable_not_mem fun hx' => hdisj x hx x hx' rfl

theorem gives_keys :
    ∀ (keys : Keys X K) (t : Root) (n : Nat) (env : Env X V) (v : V), keys.Fits M v →
    keys.vars.Nodup → env (.root t) = some v → (∀ m, n ≤ m → t ≠ .temp m) →
    Gives M (emitKeys keys t [] n).1 env keys.vars fun x w => keys.Designates M x w v
  | .nil, _, _, _, _, _, _, _, _ => by
    rw [emitKeys]
    exact gives_nil
  | .field key y keys, t, n, env, v, hfits, hvars, ht, htemp => by
    obtain ⟨u, hu⟩ := Option.isSome_iff_exists.mp hfits.1
    obtain ⟨-, hnames⟩ := emitKeys_names keys t n
    obtain ⟨hy, hnodup⟩ := List.nodup_cons.mp hvars
    have hread : evalAccess M env (.get t key) = some u := by simp [evalAccess, ht, hu]
    rw [emitKeys_field]
    have hfirst : Gives M [(.variable y, .get t key)] env [y]
        fun x w => (y = x ∧ M.get v key = some w) ∨ keys.Designates M x w v :=
      gives_variable hread (.inl ⟨rfl, hu⟩)
    refine hfirst.append ?_ ?_
    · intro env' henv
      have ht' : env' (.root t) = some v := by
        rw [evalLetStar_keeps henv (by simp), ht]
      exact (gives_keys keys t n env' v hfits.2 hnodup ht' htemp).mono fun _ _ => .inr
    · intro x hx
      rw [List.mem_singleton.mp hx]
      exact hnames.variable_not_mem hy
  | .nested key inner whole wholeFirst keys, t, n, env, v, hfits, hvars, ht, htemp => by
    obtain ⟨u, hu, hinner⟩ := hfits.1
    obtain ⟨hle, hnames⟩ :=
      emitSingleParamBinding_names (.dict inner whole wholeFirst) (.get t key) n
    obtain ⟨-, hnames'⟩ :=
      emitKeys_names keys t (emitSingleParamBinding (.dict inner whole wholeFirst) (.get t key) n).2
    obtain ⟨hnodup, hnodup', hdisj⟩ := List.nodup_append.mp hvars
    have hread : evalAccess M env (.get t key) = some u := by simp [evalAccess, ht, hu]
    rw [emitKeys_nested_nil]
    have hdict :
      Gives M (emitSingleParamBinding (.dict inner whole wholeFirst) (.get t key) n).1 env
        (inner.vars ++ whole.toList) fun x w =>
        Pattern.Designates M x w (.dict inner whole wholeFirst) u :=
      gives_dict hnodup hread fun env' henv =>
        gives_keys inner (.temp n) (n + 1) env' u hinner (List.nodup_append.mp hnodup).1
          henv (by simp; omega)
    refine (hdict.mono ?_).append ?_ ?_
    · exact fun _ _ hw => .inl ⟨u, hu, hw⟩
    · intro env' henv
      have ht' : env' (.root t) = some v := by rw [evalLetStar_keeps_root henv hnames htemp, ht]
      refine (gives_keys keys t _ env' v hfits.2 hnodup' ht' ?_).mono ?_
      · exact fun m hm => htemp m (by omega)
      · exact fun _ _ => .inr
    · exact fun x hx => hnames'.variable_not_mem fun hx' => hdisj x hx x hx' rfl

end

/-- The parameters of a clause in sequence; the roots they read are no temporaries. -/
theorem gives_emitEach {ps : List (Pattern X K × Access K)} (hplain : ∀ q ∈ ps, q.1.Plain)
    (hroot : ∀ q ∈ ps, ∀ m, q.2.root ≠ .temp m)
    (hfits : ∀ q ∈ ps, ∃ v, evalAccess M env q.2 = some v ∧ q.1.Readable M v ∧ q.1.Fits M v)
    (hvars : (ps.flatMap (·.1.vars)).Nodup) :
    Gives M (emitEach ps n).1 env (ps.flatMap (·.1.vars)) fun x w =>
      ∃ q ∈ ps, ∃ v, evalAccess M env q.2 = some v ∧ q.1.Designates M x w v := by
  induction ps generalizing n env with
  | nil => exact gives_nil
  | cons q ps ih =>
    obtain ⟨p, a⟩ := q
    obtain ⟨v, ha, hread, hv⟩ := hfits _ List.mem_cons_self
    obtain ⟨-, hnames⟩ := emitSingleParamBinding_names p a n
    obtain ⟨-, hnames'⟩ := emitEach_names ps (emitSingleParamBinding p a n).2
    rw [List.flatMap_cons] at hvars ⊢
    obtain ⟨hnodup, hnodup', hdisj⟩ := List.nodup_append.mp hvars
    rw [emitEach]
    refine ((gives_pattern p a n env v (hplain _ List.mem_cons_self) hread hv hnodup ha).mono
      ?_).append ?_ ?_
    · exact fun _ _ hw => ⟨(p, a), List.mem_cons_self, v, ha, hw⟩
    · intro env' henv
      have hsame : ∀ q ∈ ps, evalAccess M env' q.2 = evalAccess M env q.2 := by
        intro q hq
        refine evalAccess_congr (evalLetStar_keeps_root henv hnames fun m _ => ?_)
        exact hroot q (List.mem_cons_of_mem _ hq) m
      have hfits' : ∀ q ∈ ps, ∃ v, evalAccess M env' q.2 = some v ∧ q.1.Readable M v ∧
        q.1.Fits M v := by
        intro q hq
        rw [hsame q hq]
        exact hfits q (List.mem_cons_of_mem _ hq)
      refine (ih (fun q hq => hplain q (List.mem_cons_of_mem _ hq))
        (fun q hq => hroot q (List.mem_cons_of_mem _ hq)) hfits' hnodup').mono ?_
      rintro x w ⟨q, hq, v, hv, hw⟩
      exact ⟨q, List.mem_cons_of_mem _ hq, v, hsame q hq ▸ hv, hw⟩
    · exact fun x hx => hnames'.variable_not_mem fun hx' => hdisj x hx x hx' rfl

end Sequence

/-! ## §9 Every list -/

section Clauses

variable {M : Values V K} {form : Form} {clauses : List (Clause X K)} {c : Clause X K}
    {args : List V}
  {ps : List (Pattern X K × Access K)} {p : Pattern X K} {i n : Nat}

theorem uniformArity_eq (hc : c ∈ clauses) (h : uniformArity clauses = some n) :
    n = c.params.length ∧ c.restParam = none := by
  cases clauses with
  | nil => cases hc
  | cons c' cs =>
    rw [uniformArity] at h
    split at h
    · rename_i hall
      have hc' := List.all_eq_true.mp hall c hc
      simp only [Bool.and_eq_true, Option.isNone_iff_eq_none, decide_eq_true_eq] at hc'
      exact ⟨by rw [hc'.2, Option.some.inj h], hc'.1⟩
    · cases h

/-- The access expressions read the arguments, and no temporary. -/
def ReadsArgs (ps : List (Pattern X K × Access K)) (c : Clause X K) (read : Access K → Option V)
    (args : List V) : Prop :=
  ∀ q ∈ ps, (∀ m, q.2.root ≠ .temp m) ∧ ∃ (i : Nat) (v : V), c.params[i]? = some q.1 ∧
    args[i]? = some v ∧ read q.2 = some v

/-- The parameters read their elements from sequences. -/
def Clause.Readable (M : Values V K) (c : Clause X K) (args : List V) : Prop :=
  ∀ (i : Nat) (p : Pattern X K) (v : V), c.params[i]? = some p → args[i]? = some v → p.Readable M v

theorem exists_arg (hfits : c.Fits M args) (h : c.params[i]? = some p) :
    ∃ v, args[i]? = some v := by
  have hi := (List.getElem?_eq_some_iff.mp h).1
  have hle := hfits.length_le
  exact ⟨args[i], List.getElem?_eq_getElem (by omega)⟩

theorem mem_paramAccess {q : Pattern X K × Access K} {params : List (Pattern X K)} :
    q ∈ paramAccess params ↔ ∃ i, params[i]? = some q.1 ∧ q.2 = .value (.param i) := by
  simp only [paramAccess, List.mem_map, List.mem_zipIdx_iff_getElem?]
  constructor
  · rintro ⟨⟨p, i⟩, h, rfl⟩
    exact ⟨i, h, rfl⟩
  · rintro ⟨i, h, ha⟩
    exact ⟨(q.1, i), h, by rw [← ha]⟩

theorem mem_argAccess {q : Pattern X K × Access K} {params : List (Pattern X K)} :
    q ∈ argAccess params ↔ ∃ i, params[i]? = some q.1 ∧ q.2 = .elt .args i := by
  simp only [argAccess, List.mem_map, List.mem_zipIdx_iff_getElem?]
  constructor
  · rintro ⟨⟨p, i⟩, h, rfl⟩
    exact ⟨i, h, rfl⟩
  · rintro ⟨i, h, ha⟩
    exact ⟨(q.1, i), h, by rw [← ha]⟩

theorem vars_paramAccess (params : List (Pattern X K)) :
    (paramAccess params).flatMap (·.1.vars) = params.flatMap Pattern.vars := by
  rw [paramAccess, List.flatMap_map, ← List.flatMap_map (f := Prod.fst) (g := Pattern.vars),
    List.zipIdx_map_fst]

theorem vars_argAccess (params : List (Pattern X K)) :
    (argAccess params).flatMap (·.1.vars) = params.flatMap Pattern.vars := by
  rw [argAccess, List.flatMap_map, ← List.flatMap_map (f := Prod.fst) (g := Pattern.vars),
    List.zipIdx_map_fst]

variable [DecidableEq X] {env : Env X V}

theorem gives_params (hplain : ∀ q ∈ ps, q.1.Plain) (hreadable : c.Readable M args)
    (hreads : ReadsArgs ps c (evalAccess M env) args) (hfits : c.Fits M args)
    (hvars : (ps.flatMap (·.1.vars)).Nodup) :
    Gives M (emitEach ps n).1 env (ps.flatMap (·.1.vars)) (c.Designates M args) := by
  refine (gives_emitEach hplain (fun q hq => (hreads q hq).1) ?_ hvars).mono ?_
  · intro q hq
    obtain ⟨-, i, v, hp, hv, hread⟩ := hreads q hq
    exact ⟨v, hread, hreadable i q.1 v hp hv, hfits.each i q.1 v hp hv⟩
  · rintro x w ⟨q, hq, v, hread, hw⟩
    obtain ⟨-, i, v', hp, hv, hread'⟩ := hreads q hq
    rw [hread] at hread'
    cases hread'
    exact .inl ⟨i, q.1, v, hp, hv, hw⟩

/-- In a list in which no form reads a name that it binds, the order does not matter. -/
theorem evalLet_eq_evalLetStar {outer : Env X V} {bs : List (Binding X K)}
    (hbs : ∀ b ∈ bs, ∀ b' ∈ bs, b'.1 ≠ .root b.2.root)
    (henv : ∀ b ∈ bs, env (.root b.2.root) = outer (.root b.2.root)) :
    evalLet M outer bs env = evalLetStar M bs env := by
  induction bs generalizing env with
  | nil => rfl
  | cons b bs ih =>
    obtain ⟨name, a⟩ := b
    rw [evalLet, evalLetStar, evalAccess_congr (henv (name, a) List.mem_cons_self)]
    congr 1
    funext v
    refine ih (fun b hb b' hb' => hbs b (List.mem_cons_of_mem _ hb) b' (List.mem_cons_of_mem _ hb'))
      ?_
    intro b hb
    have hne : .root b.2.root ≠ name :=
      (hbs b (List.mem_cons_of_mem _ hb) (name, a) List.mem_cons_self).symm
    exact (if_neg hne).trans (henv b (List.mem_cons_of_mem _ hb))

theorem zip_lookup {names : List (Name X)} {name : Name X} {v : V} (hnames : names.Nodup)
    (hname : names[i]? = some name) (hv : args[i]? = some v) :
    (names.zip args).lookup name = some v := by
  induction names generalizing args i with
  | nil => cases hname
  | cons name' names ih =>
    cases args with
    | nil => cases hv
    | cons v' args =>
      obtain ⟨hnew, hnodup⟩ := List.nodup_cons.mp hnames
      cases i with
      | zero =>
        cases hname
        cases hv
        simp
      | succ i =>
        have hne : (name == name') = false := by
          simpa using fun h : name = name' => hnew (h ▸ List.mem_of_getElem? hname)
        rw [List.zip_cons_cons, List.lookup_cons, hne]
        exact ih hnodup hname hv

theorem zip_lookup_none {names : List (Name X)} {name : Name X} (h : name ∉ names) :
    (names.zip args).lookup name = none := by
  rw [List.lookup_eq_none_iff]
  intro q hq
  have hmem : q.1 ∈ names := (List.of_mem_zip hq).1
  simpa using fun heq : name = q.1 => h (heq ▸ hmem)

theorem paramSym_ne_temp {m : Nat} : paramSym clauses i ≠ .root (.temp m) := by
  unfold paramSym
  split
  · rename_i name hname
    split
    · obtain ⟨p, -, hp⟩ := Option.bind_eq_some_iff.mp hname
      cases p <;> simp [Pattern.symbolName] at hp <;> simp [← hp]
    · simp
  · simp

/-- A parameter that is not the name of all clauses has a name of the dispatcher. -/
theorem paramSym_of_ne (hc : c ∈ clauses) (hp : c.params[i]? = some p)
    (hne : p.symbolName ≠ some (paramSym clauses i)) : paramSym clauses i = .root (.param i) := by
  unfold paramSym at hne ⊢
  split
  · rename_i name hname
    rw [hname] at hne
    split
    · rename_i hall
      dsimp only at hne
      rw [if_pos hall] at hne
      have hsame := List.all_eq_true.mp hall c hc
      rw [hp] at hsame
      exact absurd (by simpa using hsame) hne
    · rfl
  · rfl

theorem lambdaList_get (h : c.params[i]? = some p) :
    (lambdaList form clauses c.params.length)[i]? =
      some (match form with | .fn => .root (.param i) | .defmethod => paramSym clauses i) := by
  have hi := (List.getElem?_eq_some_iff.mp h).1
  rw [lambdaList, List.getElem?_map, List.getElem?_range hi]
  cases form <;> rfl

theorem lambdaList_fn_nodup {arity : Nat} : (lambdaList .fn clauses arity).Nodup :=
  List.nodup_range.map fun i j h => by simpa using h

theorem temp_not_mem_lambdaList {arity m : Nat} :
    .root (.temp m) ∉ lambdaList form clauses arity := by
  intro hmem
  obtain ⟨i, -, hi⟩ := List.mem_map.mp hmem
  cases form with
  | fn => cases hi
  | defmethod => exact paramSym_ne_temp hi

theorem mem_unboundParams {q : Pattern X K × Access K} {params : List (Pattern X K)} :
    q ∈ unboundParams clauses params ↔
      ∃ i, params[i]? = some q.1 ∧ q.1.symbolName ≠ some (paramSym clauses i) ∧
      q.2 = .value (.param i) := by
  simp only [unboundParams, List.mem_map, List.mem_filter, List.mem_zipIdx_iff_getElem?,
    decide_eq_true_eq]
  constructor
  · rintro ⟨⟨p, i⟩, ⟨h, hne⟩, rfl⟩
    exact ⟨i, h, hne, rfl⟩
  · rintro ⟨i, h, hne, ha⟩
    exact ⟨(q.1, i), ⟨h, hne⟩, by rw [← ha]⟩

theorem vars_unboundParams_sublist (params : List (Pattern X K)) :
    ((unboundParams clauses params).flatMap (·.1.vars)).Sublist (params.flatMap Pattern.vars) := by
  rw [unboundParams, List.flatMap_map, ← vars_paramAccess, paramAccess, List.flatMap_map]
  exact List.filter_sublist.flatMap _

/-- The form of the clauses evaluates the list of this one: a `fn` has only variables and patterns
that take nothing, a method only plain ones that read sequences of Common Lisp, and the names that
the clauses share are distinct. -/
def Clause.Bindable (M : Values V K) (form : Form) (clauses : List (Clause X K)) (c : Clause X K)
    (args : List V) :
    Prop :=
  match form with
  | .fn => ∀ p ∈ c.params, p.Flat
  | .defmethod => ((∀ p ∈ c.params, p.Plain) ∧ c.Readable M args) ∧
      ((uniformArity clauses).isSome → (lambdaList .defmethod clauses c.params.length).Nodup)

/-- `emit-bind-chain` knows a vector pattern from a variable, and a dict pattern from neither. -/
def Pattern.Bindable : Pattern X K → Prop
  | .dict _ _ _ => False
  | p => p.Plain

end Clauses

section Setups

variable [DecidableEq X] {M : Values V K} {form : Form} {clauses : List (Clause X K)}
    {c : Clause X K}
  {args : List V} {ps : List (Pattern X K × Access K)} {env : Env X V}

/-- The list of a clause that binds the parameters in `ps`. -/
def clauseList (ps : List (Pattern X K × Access K)) (c : Clause X K) : List (Binding X K) :=
  (emitEach ps 0).1 ++ emitRestParamBinding c.restParam c.params.length

/-- The environment in which a dispatcher evaluates the list: what the list leaves out is bound
already. -/
structure Setup (M : Values V K) (c : Clause X K) (args : List V)
    (ps : List (Pattern X K × Access K)) (env : Env X V) : Prop where
  fresh : Fresh env 0
  reads : ReadsArgs ps c (evalAccess M env) args
  patterns : ∀ (i : Nat) (p : Pattern X K) (v : V), c.params[i]? = some p → args[i]? = some v →
    p.symbolName = none → ∃ a, (p, a) ∈ ps ∧ evalAccess M env a = some v
  sublist : (ps.flatMap (·.1.vars)).Sublist (c.params.flatMap Pattern.vars)
  bound : ∀ x ∈ c.params.flatMap Pattern.vars, x ∉ ps.flatMap (·.1.vars) →
    ∃ w, c.Designates M args x w ∧ env (.variable x) = some w
  rest : c.restParam ≠ none → env (.root .args) = some (M.list args)

omit [DecidableEq X] in
theorem Pattern.symbolName_of_not_flat {p : Pattern X K} (h : ¬ p.Flat) : p.symbolName = none := by
  cases p with
  | symbol x => exact absurd trivial h
  | wildcard => exact absurd trivial h
  | vector elems marks => rfl
  | dict keys whole wholeFirst => rfl

omit [DecidableEq X] in
theorem Setup.exists_mem (h : Setup M c args ps env) (hfits : c.Fits M args) {p : Pattern X K}
    (hp : p ∈ c.params) (hflat : ¬ p.Flat) : ∃ a, (p, a) ∈ ps := by
  obtain ⟨i, hi⟩ := List.mem_iff_getElem?.mp hp
  obtain ⟨v, hv⟩ := exists_arg hfits hi
  obtain ⟨a, ha, -⟩ := h.patterns i p v hi hv (p.symbolName_of_not_flat hflat)
  exact ⟨a, ha⟩

theorem Setup.sequence_fails (h : Setup M c args ps env) (hfits : c.Fits M args) {p : Pattern X K}
    (hp : p ∈ c.params) (hplain : ¬ p.Plain) : evalLetStar M (clauseList ps c) env = none := by
  obtain ⟨a, ha⟩ := h.exists_mem hfits hp (mt Pattern.Flat.plain hplain)
  rw [clauseList, evalLetStar_append, evalLetStar_emitEach_fails ha hplain h.fresh]
  rfl

theorem Setup.parallel_fails (h : Setup M c args ps env) (hfits : c.Fits M args) {p : Pattern X K}
    (hp : p ∈ c.params) (hflat : ¬ p.Flat) : evalLet M env (clauseList ps c) env = none := by
  obtain ⟨a, ha⟩ := h.exists_mem hfits hp hflat
  exact evalLet_emitEach_fails ha hflat h.fresh (List.subset_append_left _ _)

/-- A list of plain patterns that is evaluated reads its elements from sequences. -/
theorem Setup.readable (h : Setup M c args ps env) (hplain : ∀ q ∈ ps, q.1.Plain) {env' : Env X V}
    (heval : evalLetStar M (clauseList ps c) env = some env') : c.Readable M args := by
  rw [clauseList, evalLetStar_append] at heval
  obtain ⟨env₁, heval₁, -⟩ := Option.bind_eq_some_iff.mp heval
  intro i p v hp hv
  cases hname : p.symbolName with
  | some name =>
    cases p with
    | symbol x => trivial
    | wildcard => trivial
    | vector elems marks => cases hname
    | dict keys whole wholeFirst => trivial
  | none =>
    obtain ⟨a, ha, hread⟩ := h.patterns i p v hp hv hname
    exact readable_emitEach hplain (fun q hq => (h.reads q hq).1) heval₁ ha hread

/-- A list of flat patterns reads only the parameters of the dispatcher. -/
theorem Setup.parallel_eq (h : Setup M c args ps env) (hflat : ∀ q ∈ ps, q.1.Flat) :
    evalLet M env (clauseList ps c) env = evalLetStar M (clauseList ps c) env := by
  refine evalLet_eq_evalLetStar ?_ fun _ _ => rfl
  have hroot : ∀ b ∈ clauseList ps c, ∀ m, b.2.root ≠ .temp m := by
    intro b hb
    rcases List.mem_append.mp hb with hb | hb
    · obtain ⟨q, hq, hread⟩ := mem_flat_emitEach hflat hb
      exact hread ▸ (h.reads q hq).1
    · rw [mem_named hb]
      simp [Access.root]
  have hnames :
    NamesIn (clauseList ps c) (ps.flatMap (·.1.vars) ++ c.restParam.join.toList) 0
    (emitEach ps 0).2 := by
    refine .append ?_ (namesIn_named (by simp))
    exact (emitEach_names ps 0).2.mono (by simp) (Nat.le_refl 0) (Nat.le_refl _)
  intro b hb b' hb' heq
  refine hnames.root_not_mem (fun m _ _ => hroot b hb m) ?_
  rw [← heq]
  exact List.mem_map_of_mem hb'

/-- A list of plain patterns in sequence binds every variable of the clause to its component. -/
theorem Setup.gives (h : Setup M c args ps env) (hplain : ∀ q ∈ ps, q.1.Plain)
    (hreadable : c.Readable M args) (hfits : c.Fits M args) (hvars : c.vars.Nodup) :
    Gives M (clauseList ps c) env c.vars (c.Designates M args) := by
  obtain ⟨hnodup, -, hdisj⟩ := List.nodup_append.mp hvars
  obtain ⟨-, hnames⟩ := emitEach_names ps 0
  have hrest : NamesIn (emitRestParamBinding c.restParam c.params.length : List (Binding X K))
      c.restParam.join.toList 0 (emitEach ps 0).2 := namesIn_named (List.Subset.refl _)
  have hparams := gives_params (n := 0) hplain hreadable h.reads hfits (h.sublist.nodup hnodup)
  have hothers : ∀ env', evalLetStar M (emitEach ps 0).1 env = some env' →
      Gives M (emitRestParamBinding c.restParam c.params.length) env' c.restParam.join.toList
        (c.Designates M args) := by
    intro env' henv
    cases hr : c.restParam.join with
    | none =>
      rw [emitRestParamBinding, hr]
      exact gives_nil
    | some x =>
      have hname : c.restParam = some (some x) := Option.join_eq_some_iff.mp hr
      have hargs : env' (.root .args) = some (M.list args) := by
        rw [evalLetStar_keeps_root henv hnames (by simp)]
        exact h.rest (by simp [hname])
      rw [emitRestParamBinding, hr]
      refine gives_named (v := M.list (args.drop c.params.length)) ?_ ?_
      · simp [evalAccess, hargs, Values.nthcdr_list]
      · rintro y ⟨⟩
        exact .inr ⟨hname, rfl⟩
  obtain ⟨env', heval, hall⟩ := hparams.append hothers fun x hx =>
    hrest.variable_not_mem fun hx' => hdisj x (h.sublist.subset hx) x hx' rfl
  refine ⟨env', heval, fun x hx => ?_⟩
  by_cases hx' : x ∈ ps.flatMap (·.1.vars) ++ c.restParam.join.toList
  · exact hall x hx'
  · rw [List.mem_append, not_or] at hx'
    have hkeep : .variable x ∉ (clauseList ps c).map Prod.fst := by
      rw [clauseList, List.map_append, List.mem_append, not_or]
      exact ⟨hnames.variable_not_mem hx'.1, hrest.variable_not_mem hx'.2⟩
    rw [evalLetStar_keeps heval hkeep]
    exact h.bound x ((List.mem_append.mp hx).resolve_right hx'.2) hx'.1

theorem setup_fixed (hc : c ∈ clauses) (hn : uniformArity clauses = some c.params.length)
    (hfits : c.Fits M args) :
    Setup M c args (paramAccess c.params)
      fun name => ((lambdaList .fn clauses c.params.length).zip args).lookup name where
  fresh := fun m _ => zip_lookup_none temp_not_mem_lambdaList
  reads := by
    intro q hq
    obtain ⟨i, hp, ha⟩ := mem_paramAccess.mp hq
    obtain ⟨v, hv⟩ := exists_arg hfits hp
    refine ⟨by simp [ha, Access.root], i, v, hp, hv, ?_⟩
    rw [ha]
    exact zip_lookup lambdaList_fn_nodup (lambdaList_get hp) hv
  patterns := by
    intro i p v hi hv _
    exact ⟨.value (.param i), mem_paramAccess.mpr ⟨i, hi, rfl⟩,
      zip_lookup lambdaList_fn_nodup (lambdaList_get hi) hv⟩
  sublist := vars_paramAccess c.params ▸ List.Sublist.refl _
  bound := fun x hx hx' => absurd (vars_paramAccess c.params ▸ hx) hx'
  rest := fun h => absurd (uniformArity_eq hc hn).2 h

theorem setup_rest (hfits : c.Fits M args) :
    Setup M c args (argAccess c.params) (argsEnv (M.list args)) where
  fresh := fun m _ => if_neg (by simp)
  reads := by
    intro q hq
    obtain ⟨i, hp, ha⟩ := mem_argAccess.mp hq
    obtain ⟨v, hv⟩ := exists_arg hfits hp
    refine ⟨by simp [ha, Access.root], i, v, hp, hv, ?_⟩
    simp [ha, evalAccess, argsEnv, Values.elt_list hv]
  patterns := by
    intro i p v hi hv _
    exact ⟨.elt .args i, mem_argAccess.mpr ⟨i, hi, rfl⟩, by
      simp [evalAccess, argsEnv, Values.elt_list hv]⟩
  sublist := vars_argAccess c.params ▸ List.Sublist.refl _
  bound := fun x hx hx' => absurd (vars_argAccess c.params ▸ hx) hx'
  rest := fun _ => if_pos rfl

/-- A parameter that the lambda list binds under the name all clauses share. -/
theorem setup_method (hc : c ∈ clauses) (hn : uniformArity clauses = some c.params.length)
    (hfits : c.Fits M args) (hnames : (lambdaList .defmethod clauses c.params.length).Nodup) :
    Setup M c args (unboundParams clauses c.params)
      fun name => ((lambdaList .defmethod clauses c.params.length).zip args).lookup name where
  fresh := fun m _ => zip_lookup_none temp_not_mem_lambdaList
  reads := by
    intro q hq
    obtain ⟨i, hp, hne, ha⟩ := mem_unboundParams.mp hq
    obtain ⟨v, hv⟩ := exists_arg hfits hp
    refine ⟨by simp [ha, Access.root], i, v, hp, hv, ?_⟩
    rw [ha]
    exact zip_lookup hnames
      ((lambdaList_get hp).trans (congrArg some (paramSym_of_ne hc hp hne))) hv
  patterns := by
    intro i p v hi hv hnone
    have hne : p.symbolName ≠ some (paramSym clauses i) := by simp [hnone]
    refine ⟨.value (.param i), mem_unboundParams.mpr ⟨i, hi, hne, rfl⟩, ?_⟩
    exact zip_lookup hnames
      ((lambdaList_get hi).trans (congrArg some (paramSym_of_ne hc hi hne))) hv
  sublist := vars_unboundParams_sublist c.params
  bound := by
    intro x hx hx'
    obtain ⟨p, hp, hxp⟩ := List.mem_flatMap.mp hx
    obtain ⟨i, hi⟩ := List.mem_iff_getElem?.mp hp
    obtain ⟨v, hv⟩ := exists_arg hfits hi
    by_cases hsym : p.symbolName = some (paramSym clauses i)
    · cases p with
      | symbol y =>
        obtain rfl : x = y := by simpa [Pattern.vars] using hxp
        refine ⟨v, .inl ⟨i, .symbol x, v, hi, hv, rfl, rfl⟩, ?_⟩
        exact zip_lookup hnames
          ((lambdaList_get hi).trans (congrArg some (Option.some.inj hsym).symm)) hv
      | wildcard => cases hxp
      | vector elems marks => cases hsym
      | dict keys whole wholeFirst => cases hsym
    · exact absurd
        (List.mem_flatMap.mpr ⟨(p, .value (.param i)), mem_unboundParams.mpr ⟨i, hi, hsym, rfl⟩,
          hxp⟩) hx'
  rest := fun h => absurd (uniformArity_eq hc hn).2 h

omit [DecidableEq X] in
theorem plain_of_mem {ps : List (Pattern X K × Access K)} {P : Pattern X K → Prop}
    (hall : ∀ p ∈ c.params, P p) {read : Access K → Option V} (hreads : ReadsArgs ps c read args) :
    ∀ q ∈ ps, P q.1 := by
  intro q hq
  obtain ⟨-, i, v, hp, -, -⟩ := hreads q hq
  exact hall q.1 (List.mem_of_getElem? hp)

theorem Setup.parallel_iff (h : Setup M c args ps env) (hfits : c.Fits M args)
    (hvars : c.vars.Nodup) :
    (∃ env', evalLet M env (clauseList ps c) env = some env' ∧
        ∀ x ∈ c.vars, ∃ w, c.Designates M args x w ∧ env' (.variable x) = some w) ↔
      ∀ p ∈ c.params, p.Flat := by
  constructor
  · rintro ⟨env', heval, -⟩ p hp
    by_contra hflat
    rw [h.parallel_fails hfits hp hflat] at heval
    cases heval
  · intro hflat
    rw [h.parallel_eq (plain_of_mem hflat h.reads)]
    refine h.gives (plain_of_mem (fun p hp => (hflat p hp).plain) h.reads) (fun i p v hp _ =>
      ?_) hfits hvars
    exact (hflat p (List.mem_of_getElem? hp)).readable v

theorem Setup.sequence_iff (h : Setup M c args ps env) (hfits : c.Fits M args)
    (hvars : c.vars.Nodup) :
    (∃ env', evalLetStar M (clauseList ps c) env = some env' ∧
        ∀ x ∈ c.vars, ∃ w, c.Designates M args x w ∧ env' (.variable x) = some w) ↔
      (∀ p ∈ c.params, p.Plain) ∧ c.Readable M args := by
  constructor
  · rintro ⟨env', heval, -⟩
    have hplain : ∀ p ∈ c.params, p.Plain := by
      intro p hp
      by_contra hplain
      rw [h.sequence_fails hfits hp hplain] at heval
      cases heval
    exact ⟨hplain, h.readable (plain_of_mem hplain h.reads) heval⟩
  · rintro ⟨hplain, hreadable⟩
    exact h.gives (plain_of_mem hplain h.reads) hreadable hfits hvars

theorem emitClause_rest (h : uniformArity clauses = none) :
    emitClause form clauses c = clauseList (argAccess c.params) c := by
  unfold emitClause
  rw [h]
  cases form <;> rfl

theorem emitClause_fixed (hc : c ∈ clauses) (h : uniformArity clauses = some c.params.length) :
    emitClause form clauses c =
      clauseList (match form with
        | .fn => paramAccess c.params
        | .defmethod => unboundParams clauses c.params) c := by
  have hrest : emitRestParamBinding c.restParam c.params.length = ([] : List (Binding X K)) := by
    rw [(uniformArity_eq hc h).2]
    rfl
  unfold emitClause
  rw [h, clauseList, hrest]
  cases form <;> exact (List.append_nil _).symm

theorem binds_clause_iff (hc : c ∈ clauses) (hvars : c.vars.Nodup) (hfits : c.Fits M args) :
    c.Binds M form clauses args ↔ c.Bindable M form clauses args := by
  cases hn : uniformArity clauses with
  | none =>
    have h := setup_rest hfits
    cases form with
    | fn =>
      rw [Clause.Bindable, ← h.parallel_iff hfits hvars, Clause.Binds, runClause, hn,
        emitClause_rest hn]
      rfl
    | defmethod =>
      rw [Clause.Bindable, ← h.sequence_iff hfits hvars, Clause.Binds, runClause, hn,
        emitClause_rest hn]
      simp
  | some n =>
    obtain rfl := (uniformArity_eq hc hn).1
    cases form with
    | fn =>
      have h := setup_fixed hc hn hfits
      rw [Clause.Bindable, ← h.parallel_iff hfits hvars, Clause.Binds, runClause, hn,
        emitClause_fixed hc hn]
      simp only [lambdaEnv, if_pos lambdaList_fn_nodup]
      rfl
    | defmethod =>
      rw [Clause.Bindable, Clause.Binds, runClause, hn, emitClause_fixed hc hn]
      by_cases hnames : (lambdaList .defmethod clauses c.params.length).Nodup
      · have h := setup_method hc hn hfits hnames
        rw [← h.sequence_iff hfits hvars]
        simp [lambdaEnv, hnames]
      · simp [lambdaEnv, hnames]

theorem binds_bind_iff {p : Pattern X K} {v : V} (hvars : p.vars.Nodup) (hfits : p.Fits M v) :
    p.Binds M v ↔ p.Bindable ∧ p.Readable M v := by
  cases p with
  | symbol x =>
    refine ⟨fun _ => ⟨trivial, trivial⟩, fun _ => ⟨_, rfl, fun y hy => ?_⟩⟩
    obtain rfl : y = x := by simpa [Pattern.vars] using hy
    exact ⟨v, ⟨rfl, rfl⟩, if_pos rfl⟩
  | wildcard => exact ⟨fun _ => ⟨trivial, trivial⟩, fun _ => ⟨_, rfl, fun y hy => by cases hy⟩⟩
  | vector elems marks =>
    constructor
    · rintro ⟨env, heval, -⟩
      have hplain : Pattern.Plain (.vector elems marks) := by
        by_contra hplain
        rw [runBind, evalLetStar_fails _ _ 0 _ hplain fun m _ => if_neg (by simp)] at heval
        cases heval
      exact ⟨hplain, readable_pattern _ (.value .args) 0 (argsEnv v) env v hplain
        (show argsEnv v (.root .args) = some v from if_pos rfl) heval⟩
    · rintro ⟨hplain, hreadable⟩
      exact gives_pattern (.vector elems marks) (.value .args) 0 (argsEnv v) v hplain hreadable hfits
        hvars (show argsEnv v (.root .args) = some v from if_pos rfl)
  | dict keys whole wholeFirst =>
    constructor
    · rintro ⟨env, heval, -⟩
      cases heval
    · exact fun h => h.1.elim

end Setups

/-- The variables of a `bind` pattern get their components if and only if the pattern is no dict, no
vector in it has a variable for `&` or `:as`, and each that takes an element stands for a sequence
of Common Lisp; those of a clause under the same condition on vectors in a method, and in a `fn`
with clauses only if no parameter takes anything from its argument. -/
theorem destructuring_binds_iff [DecidableEq X] (M : Values V K) :
    (∀ (p : Pattern X K) (v : V), p.vars.Nodup → p.Fits M v →
      (p.Binds M v ↔ p.Bindable ∧ p.Readable M v)) ∧
      ∀ (form : Form) (clauses : List (Clause X K)) (c : Clause X K) (args : List V), c ∈ clauses →
      c.vars.Nodup →
        c.Fits M args → (c.Binds M form clauses args ↔ c.Bindable M form clauses args) :=
  ⟨fun _ _ hvars hfits => binds_bind_iff hvars hfits,
    fun _ _ _ _ hc hvars hfits => binds_clause_iff hc hvars hfits⟩

inductive Datum where
  | atom (n : Nat)
  | list (elems : List Datum)
  | vector (elems : List Datum)

/-- Atoms, lists of Common Lisp and the vectors of the language, and no dicts. -/
def datumValues : Values Datum String where
  items
    | .atom _ => none
    | .list elems => some elems
    | .vector elems => some elems
  isSequence
    | .list _ => true
    | _ => false
  isList
    | .list _ => true
    | _ => false
  list := .list
  get _ _ := none
  items_list _ := rfl
  isSequence_list _ := rfl
  isList_list _ := rfl

/-- `[a b]`. -/
def pairPattern : Pattern Nat String := .vector (.cons (.symbol 0) (.cons (.symbol 1) .nil)) []

def pairElems : List Datum := [.atom 1, .atom 2]

theorem pairPattern_fits {v : Datum} (hv : datumValues.items v = some pairElems) :
    pairPattern.Fits datumValues v := by
  refine ⟨⟨⟨.atom 1, ?_, trivial⟩, ⟨.atom 2, ?_, trivial⟩, trivial⟩, by simp⟩
    <;> rw [Values.item, hv] <;> rfl

theorem pairClause_fits : Clause.Fits datumValues ⟨[pairPattern], none⟩ [.list pairElems] where
  length_le := Nat.le_refl 1
  length_eq _ := rfl
  each
    | 0, _, _, rfl, rfl => pairPattern_fits rfl

theorem destructuring_binds_pair :
    (pairPattern.Binds datumValues (.list pairElems) ↔
      pairPattern.Bindable ∧ pairPattern.Readable datumValues (.list pairElems)) ∧
      ∀ form, Clause.Binds datumValues form [⟨[pairPattern], none⟩, ⟨[.wildcard], none⟩]
      ⟨[pairPattern], none⟩
          [.list pairElems] ↔
        Clause.Bindable datumValues form [⟨[pairPattern], none⟩, ⟨[.wildcard], none⟩]
        ⟨[pairPattern], none⟩
          [.list pairElems] :=
  ⟨(destructuring_binds_iff datumValues).1 pairPattern _ (by decide) (pairPattern_fits rfl),
    fun form => (destructuring_binds_iff datumValues).2 form _ _ _ List.mem_cons_self (by decide)
    pairClause_fits⟩

/-- `[a & r]`. -/
def restPattern : Pattern Nat String := .vector (.cons (.symbol 0) .nil) [.rest (some 1)]

theorem restPattern_fits : restPattern.Fits datumValues (.list pairElems) :=
  ⟨⟨⟨.atom 1, rfl, trivial⟩, trivial⟩, by simp [Mark.component, Values.rest, datumValues]⟩

/-- `(bind [[a b] [1 2]] (+ a b))` takes `cl:elt` of a vector of the language, and `[a & r]`, on a
list of Common Lisp too, reads the temporary before it is bound. -/
theorem not_binds_pair :
    (pairPattern.vars.Nodup ∧ pairPattern.Fits datumValues (.vector pairElems) ∧
        ¬ pairPattern.Binds datumValues (.vector pairElems)) ∧
      restPattern.vars.Nodup ∧ restPattern.Fits datumValues (.list pairElems) ∧
        ¬ restPattern.Binds datumValues (.list pairElems) := by
  refine ⟨⟨by decide, pairPattern_fits rfl, fun hbinds => ?_⟩, by decide, restPattern_fits,
    fun hbinds => ?_⟩
  · have hread := ((binds_bind_iff (by decide) (pairPattern_fits rfl)).mp hbinds).2
    exact absurd (hread.1 (by simp)).1 Bool.false_ne_true
  · have hplain : restPattern.Plain := ((binds_bind_iff (by decide) restPattern_fits).mp hbinds).1
    exact absurd (hplain.2 (.rest (some 1)) List.mem_cons_self) (by simp [Mark.name])

end Fol.Destructuring
