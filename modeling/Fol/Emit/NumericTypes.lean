/-
Fol.Emit.NumericTypes — the numeric types `compiler.lisp` infers for the variables of a
loop, and the rewriting of generic operators to CL operators that rests on them.

A type is `none` where the source has NIL, "not proven a number". An environment is a
function, so the absent key and the key mapped to NIL are one; the source never tells
them apart. `recurSites` lists the recur forms in the order `%num-collect-recur-types`
meets them, `recurType` is what its table holds for a position at the end. The emission
of the rewritten body is not here.
-/
import Fol.Escape.Ast

namespace Fol.Numeric

open Fol.Escape

/-! ## §1 Types -/

inductive NumType where
  | integer
  | single
  | double
  | number
deriving DecidableEq

structure TypeEnv where
  get : Symbol → Option NumType

instance : CoeFun TypeEnv fun _ => Symbol → Option NumType := ⟨TypeEnv.get⟩

/-- `(setf (gethash s env) t)`. -/
def TypeEnv.set (env : TypeEnv) (s : Symbol) (t : Option NumType) : TypeEnv :=
  ⟨fun s' => if s' = s then t else env s'⟩

def TypeEnv.empty : TypeEnv := ⟨fun _ => none⟩

@[simp] theorem TypeEnv.empty_get (s : Symbol) : TypeEnv.empty s = none := rfl

@[simp] theorem TypeEnv.set_get (env : TypeEnv) (s : Symbol) (t : Option NumType) (s' : Symbol) :
    env.set s t s' = if s' = s then t else env s' := rfl

/-- `%num-type-of-literal`. -/
def numTypeOfLiteral : Literal → Option NumType
  | .float double _ _ => if double then some .double else some .single
  | .num _ => some .integer
  | .ratio _ _ => some .number
  | .complex _ _ => some .number
  | _ => none

/-- `%num-contagion`. -/
def numContagion (a b : Option NumType) : Option NumType :=
  if a = none ∨ b = none then none
  else if a = some .number ∨ b = some .number then some .number
  else if a = some .double ∨ b = some .double then some .double
  else if a = some .single ∨ b = some .single then some .single
  else some .integer

/-- `%num-div`. -/
def numDiv (a b : Option NumType) : Option NumType :=
  if a = none ∨ b = none then none
  else if a = some .number ∨ b = some .number then some .number
  else if a = some .double ∨ b = some .double then some .double
  else if a = some .single ∨ b = some .single then some .single
  else some .number

/-- `%num-lub`. -/
def numLub (a b : Option NumType) : Option NumType :=
  if a = b then a else if a = none ∨ b = none then none else some .number

/-- `(reduce f ts)` on a non-empty list. -/
def reduceTypes (f : Option NumType → Option NumType → Option NumType) :
    List (Option NumType) → Option NumType
  | [] => none
  | t :: ts => ts.foldl f t

/-! ## §2 Inference -/

/-- `+num-value-ops+`. -/
def numValueOps : List String := ["+", "-", "*", "/", "INC", "DEC"]

/-- The type of a call of `op` on arguments of types `ts`. -/
def numCall (op : Symbol) (ts : List (Option NumType)) : Option NumType :=
  if op.name = "INC" ∨ op.name = "DEC" then (ts.head?).getD none
  else if op.name ∈ numValueOps then
    if ts = [] then (if op.name = "/" then none else some .integer)
    else if op.name = "/" then reduceTypes numDiv ts
    else reduceTypes numContagion ts
  else none

/-- A pattern that is a symbol gets the type, a destructuring pattern leaves all as it was. -/
def bindType (env : TypeEnv) (p : Pattern) (t : Option NumType) : TypeEnv :=
  match p with
  | .symbol s => env.set s t
  | .tree _ _ => env

mutual

/-- `%num-infer`. -/
def numInfer (env : TypeEnv) : Ast → Option NumType
  | .literal v => numTypeOfLiteral v
  | .symbolRef s => env s
  | .call (.symbolRef op) args => numCall op (numInferList env args)
  | .bind bindings body => numInferLast (numScope env bindings) body
  | .doNode body => numInferLast env body
  | _ => none

def numInferList (env : TypeEnv) : List Ast → List (Option NumType)
  | [] => []
  | n :: ns => numInfer env n :: numInferList env ns

/-- `(%num-infer (car (last body)) env)`. -/
def numInferLast (env : TypeEnv) : List Ast → Option NumType
  | [] => none
  | [n] => numInfer env n
  | _ :: ns => numInferLast env ns

/-- The copy of the environment after the bindings of a `bind`. -/
def numScope (env : TypeEnv) : List (Pattern × Ast) → TypeEnv
  | [] => env
  | (p, init) :: bs => numScope (bindType env p (numInfer env init)) bs

end

mutual

/-- The argument types of each recur form `%num-collect-recur-types` meets. -/
def recurSites (env : TypeEnv) : Ast → List (List (Option NumType))
  | .literal _ => []
  | .symbolRef _ => []
  | .call op args => recurSites env op ++ recurSitesList env args
  | .ifNode test thn els => recurSites env test ++ recurSites env thn ++ recurSitesList env els
  | .doNode body => recurSitesList env body
  | .bind bindings body => recurSitesList (numScope env bindings) body
  | .letfn bindings body => recurSitesFns env bindings ++ recurSitesList env body
  | .fn _ _ => []
  | .loop _ _ => []
  | .recur args => [numInferList env args]
  | .case expr clauses => recurSites env expr ++ recurSitesCases env clauses
  | .cond clauses => recurSitesConds env clauses
  | .threadFirst forms => recurSitesList env forms
  | .vector elements => recurSitesList env elements
  | .set elements => recurSitesList env elements
  | .dict entries => recurSitesEntries env entries
  | .quote _ => []
  | .other kids => recurSitesKids env kids

def recurSitesList (env : TypeEnv) : List Ast → List (List (Option NumType))
  | [] => []
  | n :: ns => recurSites env n ++ recurSitesList env ns

def recurSitesClauses (env : TypeEnv) : List (Params × List Ast) → List (List (Option NumType))
  | [] => []
  | (_, body) :: cs => recurSitesList env body ++ recurSitesClauses env cs

def recurSitesFns (env : TypeEnv) :
    List (Symbol × List (Params × List Ast)) → List (List (Option NumType))
  | [] => []
  | (_, clauses) :: fs => recurSitesClauses env clauses ++ recurSitesFns env fs

def recurSitesCases (env : TypeEnv) : List (List Literal × List Ast) → List (List (Option NumType))
  | [] => []
  | (_, body) :: cs => recurSitesList env body ++ recurSitesCases env cs

def recurSitesConds (env : TypeEnv) : List (Ast × List Ast) → List (List (Option NumType))
  | [] => []
  | (test, body) :: cs => recurSites env test ++ recurSitesList env body ++ recurSitesConds env cs

def recurSitesEntries (env : TypeEnv) : List (Ast × Ast) → List (List (Option NumType))
  | [] => []
  | (k, v) :: es => recurSites env k ++ recurSites env v ++ recurSitesEntries env es

def recurSitesKids (env : TypeEnv) :
    List (Bool × List Symbol × Ast) → List (List (Option NumType))
  | [] => []
  | (_, _, n) :: ks => recurSites env n ++ recurSitesKids env ks

end

/-- The types of the `k`-th argument, over the recur forms that have one. -/
def argTypes (sites : List (List (Option NumType))) (k : Nat) : List (Option NumType) :=
  sites.filterMap (·[k]?)

/-- `(gethash k acc)`, `none` where the key is absent. -/
def recurType (sites : List (List (Option NumType))) (k : Nat) : Option (Option NumType) :=
  match argTypes sites k with
  | [] => none
  | t :: ts => some (ts.foldl numLub t)

/-- A loop whose variables are symbols. -/
structure Loop where
  bindings : List (Symbol × Ast)
  body : List Ast

def Loop.names (l : Loop) : List Symbol := l.bindings.map (·.1)

/-- The environment after the initialisers, one after the other. -/
def initEnv (env : TypeEnv) : List (Symbol × Ast) → TypeEnv
  | [] => env
  | (s, init) :: bs => initEnv (env.set s (numInfer env init)) bs

/-- The type a round gives the variable in position `k`. -/
def roundType (inits : TypeEnv) (sites : List (List (Option NumType))) (s : Symbol) (k : Nat) :
    Option NumType :=
  match recurType sites k with
  | some t => numLub (inits s) t
  | none => inits s

/-- The variables from position `k` on; the flag is `changed`. -/
def roundStep (inits : TypeEnv) (sites : List (List (Option NumType))) :
    List Symbol → Nat → TypeEnv × Bool → TypeEnv × Bool
  | [], _, acc => acc
  | s :: ss, k, (env, changed) =>
    if roundType inits sites s k = env s then roundStep inits sites ss (k + 1) (env, changed)
    else roundStep inits sites ss (k + 1) (env.set s (roundType inits sites s k), true)

/-- One turn of the `dotimes`. -/
def numRound (l : Loop) (env : TypeEnv) : TypeEnv × Bool :=
  roundStep (initEnv .empty l.bindings) (recurSitesList env l.body) l.names 0 (env, false)

/-- `(dotimes (_ n) …)`, left when a turn changes nothing. -/
def numRounds (l : Loop) : Nat → TypeEnv → TypeEnv
  | 0, env => env
  | n + 1, env => if (numRound l env).2 then numRounds l n (numRound l env).1
      else (numRound l env).1

/-- `%num-infer-loop-env`. -/
def numInferLoopEnv (l : Loop) : TypeEnv := numRounds l 16 (initEnv .empty l.bindings)

/-! ## §3 Rewriting -/

/-- `+cl-num-op+`. -/
def clNumOp : List (String × String) :=
  [("+", "+"), ("-", "-"), ("*", "*"), ("/", "/"), ("<", "<"), (">", ">"), ("<=", "<="),
    (">=", ">="), ("=", "="), ("/=", "/="), ("INC", "1+"), ("DEC", "1-")]

/-- The CL operator a call of `op` is rewritten to, if it is. -/
def rewrites (env : TypeEnv) (op : Symbol) (args : List Ast) : Option Symbol :=
  (clNumOp.lookup op.name).bind fun cl =>
    if args ≠ [] ∧ (numInferList env args).all Option.isSome then
      some ⟨cl, "COMMON-LISP"⟩
    else none

mutual

/-- `%num-specialize`. -/
def numSpecialize (env : TypeEnv) : Ast → Ast
  | .call (.symbolRef op) args =>
    match rewrites env op args with
    | some cl => .call (.symbolRef cl) (numSpecializeList env args)
    | none => .call (.symbolRef op) (numSpecializeList env args)
  | .call op args => .call (numSpecialize env op) (numSpecializeList env args)
  | .ifNode test thn els =>
    .ifNode (numSpecialize env test) (numSpecialize env thn) (numSpecializeList env els)
  | .doNode body => .doNode (numSpecializeList env body)
  | .bind bindings body =>
    .bind (numSpecializeBindings env bindings) (numSpecializeList (numScope env bindings) body)
  | .recur args => .recur (numSpecializeList env args)
  | .cond clauses => .cond (numSpecializeConds env clauses)
  | n => n

def numSpecializeList (env : TypeEnv) : List Ast → List Ast
  | [] => []
  | n :: ns => numSpecialize env n :: numSpecializeList env ns

def numSpecializeBindings (env : TypeEnv) : List (Pattern × Ast) → List (Pattern × Ast)
  | [] => []
  | (p, init) :: bs =>
    (p, numSpecialize env init) :: numSpecializeBindings (bindType env p (numInfer env init)) bs

def numSpecializeConds (env : TypeEnv) : List (Ast × List Ast) → List (Ast × List Ast)
  | [] => []
  | (test, body) :: cs =>
    (numSpecialize env test, numSpecializeList env body) :: numSpecializeConds env cs

end

/-- The type declarations of `%num-loop-decls`. -/
def numLoopDecls (l : Loop) (env : TypeEnv) : List (Symbol × NumType) :=
  l.names.filterMap fun s =>
    match env s with
    | some .number => none
    | some t => some (s, t)
    | none => none

/-! ## §4 Order -/

/-- The second type says no more than the first. -/
def Below (a b : Option NumType) : Prop := b = none ∨ a = b ∨ (b = some .number ∧ a ≠ none)

def TypeEnv.Below (E E' : TypeEnv) : Prop := ∀ s, Numeric.Below (E s) (E' s)

namespace Below

theorem refl (a : Option NumType) : Below a a := .inr (.inl rfl)

theorem trans {a b c : Option NumType} (h : Below a b) (h' : Below b c) : Below a c := by
  rcases h' with rfl | rfl | ⟨rfl, hb⟩
  · exact .inl rfl
  · exact h
  · rcases h with rfl | rfl | ⟨-, ha⟩
    · exact absurd rfl hb
    · exact .inr (.inr ⟨rfl, hb⟩)
    · exact .inr (.inr ⟨rfl, ha⟩)

theorem number (t : NumType) : Below (some t) (some .number) := .inr (.inr ⟨rfl, nofun⟩)

/-- What is not proven stays so. -/
theorem eq_none {b : Option NumType} (h : Below none b) : b = none := by
  rcases h with h | h | ⟨-, h⟩
  · exact h
  · exact h.symm
  · exact absurd rfl h

/-- Only the type `integer` is below `integer`. -/
theorem eq_integer {a : Option NumType} (h : Below a (some .integer)) : a = some .integer := by
  rcases h with h | h | ⟨h, -⟩
  · cases h
  · exact h
  · cases h

theorem isSome {a b : Option NumType} (h : Below a b) (hb : b ≠ none) : a ≠ none := by
  rintro rfl
  exact hb h.eq_none

/-- A strict operation that `number` absorbs is monotone. -/
theorem map₂ {f : Option NumType → Option NumType → Option NumType}
    (strict : ∀ a b, f a b = none ↔ a = none ∨ b = none)
    (left : ∀ b, b ≠ none → f (some .number) b = some .number)
    (right : ∀ a, a ≠ none → f a (some .number) = some .number)
    {a a' b b' : Option NumType} (ha : Below a a') (hb : Below b b') : Below (f a b) (f a' b') := by
  by_cases hnone : a' = none ∨ b' = none
  · exact .inl ((strict a' b').mpr hnone)
  · push Not at hnone
    have hne : f a b ≠ none := by
      rw [Ne, strict, not_or]
      exact ⟨ha.isSome hnone.1, hb.isSome hnone.2⟩
    rcases ha with h | rfl | ⟨rfl, -⟩
    · exact absurd h hnone.1
    · rcases hb with h | rfl | ⟨rfl, -⟩
      · exact absurd h hnone.2
      · exact refl _
      · exact .inr (.inr ⟨right a hnone.1, hne⟩)
    · exact .inr (.inr ⟨left b' hnone.2, hne⟩)

end Below

theorem numContagion_eq_none (a b : Option NumType) :
    numContagion a b = none ↔ a = none ∨ b = none := by
  unfold numContagion
  split_ifs <;> simp_all

theorem numDiv_eq_none (a b : Option NumType) : numDiv a b = none ↔ a = none ∨ b = none := by
  unfold numDiv
  split_ifs <;> simp_all

namespace Below

theorem contagion {a a' b b' : Option NumType} (ha : Below a a') (hb : Below b b') :
    Below (numContagion a b) (numContagion a' b') :=
  map₂ numContagion_eq_none (fun b hb => by simp [numContagion, hb])
    (fun a ha => by simp [numContagion, ha]) ha hb

theorem div {a a' b b' : Option NumType} (ha : Below a a') (hb : Below b b') :
    Below (numDiv a b) (numDiv a' b') :=
  map₂ numDiv_eq_none (fun b hb => by simp [numDiv, hb]) (fun a ha => by simp [numDiv, ha]) ha hb

theorem lub_left (a b : Option NumType) : Below a (numLub a b) := by
  unfold numLub Below
  split_ifs <;> simp_all

theorem lub_right (a b : Option NumType) : Below b (numLub a b) := by
  unfold numLub Below
  split_ifs <;> simp_all

end Below

/-- Lists of types, position by position. -/
abbrev BelowList (ts ts' : List (Option NumType)) : Prop := List.Forall₂ Below ts ts'

theorem foldl_below {f : Option NumType → Option NumType → Option NumType}
    (hf : ∀ {a a' b b'}, Below a a' → Below b b' → Below (f a b) (f a' b')) {ts ts'}
    (h : BelowList ts ts') : ∀ {t t'}, Below t t' → Below (ts.foldl f t) (ts'.foldl f t') := by
  induction h with
  | nil =>
    intro t t' ht
    exact ht
  | cons hu _ ih =>
    intro t t' ht
    exact ih (hf ht hu)

theorem reduceTypes_below {f : Option NumType → Option NumType → Option NumType}
    (hf : ∀ {a a' b b'}, Below a a' → Below b b' → Below (f a b) (f a' b')) {ts ts'}
    (h : BelowList ts ts') : Below (reduceTypes f ts) (reduceTypes f ts') := by
  cases h with
  | nil => exact .refl _
  | cons ht h => exact foldl_below hf h ht

theorem numCall_below (op : Symbol) {ts ts'} (h : BelowList ts ts') :
    Below (numCall op ts) (numCall op ts') := by
  have hnil : ts = [] ↔ ts' = [] := by cases h <;> simp
  unfold numCall
  split_ifs with hinc hmem hts hdiv hts' hts' hdiv <;> first | exact .refl _ | skip
  · cases h with
    | nil => exact .refl _
    | cons ht _ => exact ht
  all_goals first
    | exact absurd (hnil.mp ‹_›) ‹_›
    | exact absurd (hnil.mpr ‹_›) ‹_›
    | exact reduceTypes_below .div h
    | exact reduceTypes_below .contagion h

namespace TypeEnv.Below

theorem set {E E' : TypeEnv} (h : TypeEnv.Below E E') (s : Symbol) {t t'}
    (ht : Numeric.Below t t') :
    TypeEnv.Below (E.set s t) (E'.set s t') := by
  intro s'
  rw [TypeEnv.set_get, TypeEnv.set_get]
  split
  · exact ht
  · exact h s'

theorem bindType {E E' : TypeEnv} (h : TypeEnv.Below E E') (p : Pattern) {t t'}
    (ht : Numeric.Below t t') : TypeEnv.Below (bindType E p t) (bindType E' p t') := by
  cases p with
  | symbol s => exact h.set s ht
  | tree _ _ => exact h

end TypeEnv.Below

section

variable {E E' : TypeEnv}

/-- What `numInfer_below` says of a node, at every pair of environments. -/
def InferBelow (n : Ast) : Prop :=
  ∀ E E', TypeEnv.Below E E' → Below (numInfer E n) (numInfer E' n)

theorem numInferList_below {ns : List Ast} (h : ∀ n ∈ ns, InferBelow n)
    (hE : TypeEnv.Below E E') : BelowList (numInferList E ns) (numInferList E' ns) := by
  induction ns with
  | nil => exact .nil
  | cons n ns ih =>
    rw [List.forall_mem_cons] at h
    exact .cons (h.1 E E' hE) (ih h.2)

theorem numInferLast_below {ns : List Ast} (h : ∀ n ∈ ns, InferBelow n)
    (hE : TypeEnv.Below E E') : Below (numInferLast E ns) (numInferLast E' ns) := by
  induction ns with
  | nil => exact .refl _
  | cons n ns ih =>
    rw [List.forall_mem_cons] at h
    cases ns with
    | nil => exact h.1 E E' hE
    | cons m ns => exact ih h.2

theorem numScope_below {bs : List (Pattern × Ast)} (h : ∀ b ∈ bs, InferBelow b.2) :
    ∀ {E E' : TypeEnv}, TypeEnv.Below E E' → TypeEnv.Below (numScope E bs) (numScope E' bs) := by
  induction bs with
  | nil =>
    intro E E' hE
    exact hE
  | cons b bs ih =>
    intro E E' hE
    rw [List.forall_mem_cons] at h
    exact ih h.2 (hE.bindType b.1 (h.1 E E' hE))

end

/-- The inference is monotone. -/
theorem numInfer_below (n : Ast) : InferBelow n := by
  induction n with
  | symbolRef s =>
    intro E E' hE
    exact hE s
  | call op args _ ihargs =>
    intro E E' hE
    cases op with
    | symbolRef op => exact numCall_below op (numInferList_below ihargs hE)
    | _ => exact .refl _
  | bind bindings body ihb ih =>
    intro E E' hE
    exact numInferLast_below ih (numScope_below ihb hE)
  | doNode body ih =>
    intro E E' hE
    exact numInferLast_below ih hE
  | _ =>
    intro E E' _
    exact .refl _

end Fol.Numeric
