/-
Fol.Escape.Ast — the AST of `ast.lisp`, as far as the escape analysis looks at it,
and the traversals of `escape-analysis.lisp` over it.

A binding pattern is a symbol or a destructuring pattern. Of the second kind the
analysis sees the symbols `tree-contains-symbol-p` meets, which are not always the
symbols the pattern binds: the scan enters conses and CL vectors, not FOL vectors.
`other` stands for the node types the analysis descends through generically
(`node-children`); a child may be the operand of a threading form, and may have
variables bound over it.
-/
import Mathlib.Data.List.Basic

namespace Fol.Escape

/-! ## §1 Nodes -/

/-- A symbol: its name and the name of its home package. -/
structure Symbol where
  name : String
  package : String := "USER"
deriving DecidableEq

/-- The values of `literal-node`. -/
inductive Literal where
  | nil
  | bool (b : Bool)
  | num (n : Int)
  | ratio (num : Int) (den : Nat)
  | float (double : Bool) (mantissa exponent : Int)
  | complex (re im : Int)
  | str (s : String)
  | char (c : Char)
  | keyword (k : String)
deriving DecidableEq

inductive Pattern where
  | symbol (s : Symbol)
  | tree (mentions binds : List Symbol)
deriving DecidableEq

/-- `symbolp`. -/
def Pattern.symbol? : Pattern → Option Symbol
  | .symbol s => some s
  | .tree _ _ => none

/-- The symbols `tree-contains-symbol-p` finds. -/
def Pattern.mentions : Pattern → List Symbol
  | .symbol s => [s]
  | .tree mentions _ => mentions

def Pattern.binds : Pattern → List Symbol
  | .symbol s => [s]
  | .tree _ binds => binds

/-- The parameter vector of a clause: a FOL vector, which the scan does not enter, or
a CL vector. -/
structure Params where
  elems : List Pattern
  clVector : Bool := false
deriving DecidableEq

/-- `%param-names`. -/
def Params.names (ps : Params) : List (Option Symbol) := ps.elems.map Pattern.symbol?

def Params.mentions (ps : Params) : List Symbol :=
  if ps.clVector then ps.elems.flatMap Pattern.mentions else []

def Params.binds (ps : Params) : List Symbol := ps.elems.flatMap Pattern.binds

inductive Ast where
  | literal (value : Literal)
  | symbolRef (name : Symbol)
  | call (operator : Ast) (args : List Ast)
  | ifNode (test thn : Ast) (els : List Ast)
  | doNode (body : List Ast)
  | bind (bindings : List (Pattern × Ast)) (body : List Ast)
  | letfn (bindings : List (Symbol × List (Params × List Ast))) (body : List Ast)
  | fn (name : Option Symbol) (clauses : List (Params × List Ast))
  | loop (bindings : List (Pattern × Ast)) (body : List Ast)
  | recur (args : List Ast)
  | case (expr : Ast) (clauses : List (List Literal × List Ast))
  | cond (clauses : List (Ast × List Ast))
  | threadFirst (forms : List Ast)
  | vector (elements : List Ast)
  | set (elements : List Ast)
  | dict (entries : List (Ast × Ast))
  | quote (name : Option Symbol)
  | other (kids : List (Bool × List Symbol × Ast))

namespace Ast

/-- `operator-symbol`. -/
def operatorSymbol : Ast → Option Symbol
  | .call (.symbolRef s) _ => some s
  | _ => none

/-- `keyword-operator-p`. -/
def keywordOperatorP : Ast → Bool
  | .call (.literal (.keyword _)) _ => true
  | _ => false

/-- `symbol-ref-node-p` on the variable `s`. -/
def isRef (s : Symbol) : Ast → Bool
  | .symbolRef s' => s' = s
  | _ => false

/-- `symbol-ref-node-p` or `literal-node-p`. -/
def isRefOrLiteral : Ast → Bool
  | .symbolRef _ => true
  | .literal _ => true
  | _ => false

end Ast

/-! ## §2 Induction -/

/-- Induction over trees with one hypothesis for all children of a kind. -/
@[elab_as_elim, induction_eliminator]
theorem Ast.induction {motive : Ast → Prop}
    (literal : ∀ v, motive (.literal v))
    (symbolRef : ∀ s, motive (.symbolRef s))
    (call : ∀ op args, motive op → (∀ a ∈ args, motive a) → motive (.call op args))
    (ifNode : ∀ test thn els, motive test → motive thn → (∀ e ∈ els, motive e) →
      motive (.ifNode test thn els))
    (doNode : ∀ body, (∀ n ∈ body, motive n) → motive (.doNode body))
    (bind : ∀ bindings body, (∀ b ∈ bindings, motive b.2) → (∀ n ∈ body, motive n) →
      motive (.bind bindings body))
    (letfn : ∀ bindings body, (∀ b ∈ bindings, ∀ c ∈ b.2, ∀ n ∈ c.2, motive n) →
      (∀ n ∈ body, motive n) → motive (.letfn bindings body))
    (fn : ∀ name clauses, (∀ c ∈ clauses, ∀ n ∈ c.2, motive n) → motive (.fn name clauses))
    (loop : ∀ bindings body, (∀ b ∈ bindings, motive b.2) → (∀ n ∈ body, motive n) →
      motive (.loop bindings body))
    (recur : ∀ args, (∀ a ∈ args, motive a) → motive (.recur args))
    (case : ∀ expr clauses, motive expr → (∀ c ∈ clauses, ∀ n ∈ c.2, motive n) →
      motive (.case expr clauses))
    (cond : ∀ clauses, (∀ c ∈ clauses, motive c.1) → (∀ c ∈ clauses, ∀ n ∈ c.2, motive n) →
      motive (.cond clauses))
    (threadFirst : ∀ forms, (∀ f ∈ forms, motive f) → motive (.threadFirst forms))
    (vector : ∀ elements, (∀ e ∈ elements, motive e) → motive (.vector elements))
    (set : ∀ elements, (∀ e ∈ elements, motive e) → motive (.set elements))
    (dict : ∀ entries, (∀ e ∈ entries, motive e.1) → (∀ e ∈ entries, motive e.2) →
      motive (.dict entries))
    (quote : ∀ s, motive (.quote s))
    (other : ∀ kids, (∀ k ∈ kids, motive k.2.2) → motive (.other kids))
    (node : Ast) : motive node := by
  have nil {α : Type} (P : α → Prop) : ∀ a ∈ ([] : List α), P a :=
    fun _ ha => absurd ha List.not_mem_nil
  have cons {α : Type} {P : α → Prop} {a : α} {l : List α} (ha : P a) (hl : ∀ a ∈ l, P a) :
      ∀ a' ∈ a :: l, P a' := List.forall_mem_cons.mpr ⟨ha, hl⟩
  exact Ast.rec (motive_1 := motive) (motive_2 := fun ns => ∀ n ∈ ns, motive n)
    (motive_3 := fun bs => ∀ b ∈ bs, motive b.2)
    (motive_4 := fun fs => ∀ f ∈ fs, ∀ c ∈ f.2, ∀ n ∈ c.2, motive n)
    (motive_5 := fun cs => ∀ c ∈ cs, ∀ n ∈ c.2, motive n)
    (motive_6 := fun cs => ∀ c ∈ cs, ∀ n ∈ c.2, motive n)
    (motive_7 := fun cs => ∀ c ∈ cs, motive c.1 ∧ ∀ n ∈ c.2, motive n)
    (motive_8 := fun es => ∀ e ∈ es, motive e.1 ∧ motive e.2)
    (motive_9 := fun ks => ∀ k ∈ ks, motive k.2.2)
    (motive_10 := fun b => motive b.2)
    (motive_11 := fun f => ∀ c ∈ f.2, ∀ n ∈ c.2, motive n)
    (motive_12 := fun c => ∀ n ∈ c.2, motive n)
    (motive_13 := fun c => ∀ n ∈ c.2, motive n)
    (motive_14 := fun c => motive c.1 ∧ ∀ n ∈ c.2, motive n)
    (motive_15 := fun e => motive e.1 ∧ motive e.2)
    (motive_16 := fun k => motive k.2.2)
    (motive_17 := fun k => motive k.2)
    literal symbolRef call ifNode doNode bind letfn fn loop recur case
    (fun cs h => cond cs (fun c hc => (h c hc).1) fun c hc => (h c hc).2) threadFirst vector set
    (fun es h => dict es (fun e he => (h e he).1) fun e he => (h e he).2) quote other
    (nil _) (fun _ _ => cons (P := motive))
    (nil _) (fun _ _ => cons (P := fun b : Pattern × Ast => motive b.2))
    (nil _) (fun _ _ => cons (P := fun f : Symbol × List (Params × List Ast) =>
      ∀ c ∈ f.2, ∀ n ∈ c.2, motive n))
    (nil _) (fun _ _ => cons (P := fun c : Params × List Ast => ∀ n ∈ c.2, motive n))
    (nil _) (fun _ _ => cons (P := fun c : List Literal × List Ast => ∀ n ∈ c.2, motive n))
    (nil _) (fun _ _ => cons (P := fun c : Ast × List Ast => motive c.1 ∧ ∀ n ∈ c.2, motive n))
    (nil _) (fun _ _ => cons (P := fun e : Ast × Ast => motive e.1 ∧ motive e.2))
    (nil _) (fun _ _ => cons (P := fun k : Bool × List Symbol × Ast => motive k.2.2))
    (fun _ _ h => h) (fun _ _ h => h) (fun _ _ h => h) (fun _ _ h => h)
    (fun _ _ h₁ h₂ => ⟨h₁, h₂⟩) (fun _ _ h₁ h₂ => ⟨h₁, h₂⟩) (fun _ _ h => h) (fun _ _ h => h) node

/-! ## §3 Traversals -/

mutual

/-- The symbol references of a subtree, as `node-children` reaches them. -/
def symbolRefs : Ast → List Symbol
  | .literal _ => []
  | .symbolRef s => [s]
  | .call op args => symbolRefs op ++ symbolRefsList args
  | .ifNode test thn els => symbolRefs test ++ symbolRefs thn ++ symbolRefsList els
  | .doNode body => symbolRefsList body
  | .bind bindings body => symbolRefsBindings bindings ++ symbolRefsList body
  | .letfn bindings body => symbolRefsFns bindings ++ symbolRefsList body
  | .fn _ clauses => symbolRefsClauses clauses
  | .loop bindings body => symbolRefsBindings bindings ++ symbolRefsList body
  | .recur args => symbolRefsList args
  | .case expr clauses => symbolRefs expr ++ symbolRefsCases clauses
  | .cond clauses => symbolRefsConds clauses
  | .threadFirst forms => symbolRefsList forms
  | .vector elements => symbolRefsList elements
  | .set elements => symbolRefsList elements
  | .dict entries => symbolRefsEntries entries
  | .quote _ => []
  | .other kids => symbolRefsKids kids

def symbolRefsList : List Ast → List Symbol
  | [] => []
  | n :: ns => symbolRefs n ++ symbolRefsList ns

def symbolRefsBindings : List (Pattern × Ast) → List Symbol
  | [] => []
  | (_, init) :: bs => symbolRefs init ++ symbolRefsBindings bs

def symbolRefsClauses : List (Params × List Ast) → List Symbol
  | [] => []
  | (_, body) :: cs => symbolRefsList body ++ symbolRefsClauses cs

def symbolRefsFns : List (Symbol × List (Params × List Ast)) → List Symbol
  | [] => []
  | (_, clauses) :: fs => symbolRefsClauses clauses ++ symbolRefsFns fs

def symbolRefsCases : List (List Literal × List Ast) → List Symbol
  | [] => []
  | (_, body) :: cs => symbolRefsList body ++ symbolRefsCases cs

def symbolRefsConds : List (Ast × List Ast) → List Symbol
  | [] => []
  | (test, body) :: cs => symbolRefs test ++ symbolRefsList body ++ symbolRefsConds cs

def symbolRefsEntries : List (Ast × Ast) → List Symbol
  | [] => []
  | (k, v) :: es => symbolRefs k ++ symbolRefs v ++ symbolRefsEntries es

def symbolRefsKids : List (Bool × List Symbol × Ast) → List Symbol
  | [] => []
  | (_, _, n) :: ks => symbolRefs n ++ symbolRefsKids ks

end

/-- `%tr-symbol-ref-count`. -/
def symbolRefCount (node : Ast) (name : Symbol) : Nat := (symbolRefs node).count name

/-- `%tree-refs-name-p`. -/
def treeRefsName (node : Ast) (name : Symbol) : Bool := (symbolRefs node).contains name

mutual

/-- `%contains-recur-p`. -/
def containsRecur : Ast → Bool
  | .literal _ => false
  | .symbolRef _ => false
  | .call op args => containsRecur op || containsRecurList args
  | .ifNode test thn els => containsRecur test || containsRecur thn || containsRecurList els
  | .doNode body => containsRecurList body
  | .bind bindings body => containsRecurBindings bindings || containsRecurList body
  | .letfn bindings body => containsRecurFns bindings || containsRecurList body
  | .fn _ clauses => containsRecurClauses clauses
  | .loop bindings body => containsRecurBindings bindings || containsRecurList body
  | .recur _ => true
  | .case expr clauses => containsRecur expr || containsRecurCases clauses
  | .cond clauses => containsRecurConds clauses
  | .threadFirst forms => containsRecurList forms
  | .vector elements => containsRecurList elements
  | .set elements => containsRecurList elements
  | .dict entries => containsRecurEntries entries
  | .quote _ => false
  | .other kids => containsRecurKids kids

def containsRecurList : List Ast → Bool
  | [] => false
  | n :: ns => containsRecur n || containsRecurList ns

def containsRecurBindings : List (Pattern × Ast) → Bool
  | [] => false
  | (_, init) :: bs => containsRecur init || containsRecurBindings bs

def containsRecurClauses : List (Params × List Ast) → Bool
  | [] => false
  | (_, body) :: cs => containsRecurList body || containsRecurClauses cs

def containsRecurFns : List (Symbol × List (Params × List Ast)) → Bool
  | [] => false
  | (_, clauses) :: fs => containsRecurClauses clauses || containsRecurFns fs

def containsRecurCases : List (List Literal × List Ast) → Bool
  | [] => false
  | (_, body) :: cs => containsRecurList body || containsRecurCases cs

def containsRecurConds : List (Ast × List Ast) → Bool
  | [] => false
  | (test, body) :: cs => containsRecur test || containsRecurList body || containsRecurConds cs

def containsRecurEntries : List (Ast × Ast) → Bool
  | [] => false
  | (k, v) :: es => containsRecur k || containsRecur v || containsRecurEntries es

def containsRecurKids : List (Bool × List Symbol × Ast) → Bool
  | [] => false
  | (_, _, n) :: ks => containsRecur n || containsRecurKids ks

end

/-! ## §4 Scope -/

/-- The symbols a binding list puts over its body. -/
def bindingsBind (bindings : List (Pattern × Ast)) : List Symbol := bindings.flatMap (·.1.binds)

mutual

/-- The free variables of a subtree, one entry for each occurrence. `bind` is
sequential (`emit-bind-chain`), `loop` parallel (`emit-loop-1`). -/
@[grind =] def freeRefs : Ast → List Symbol
  | .literal _ => []
  | .symbolRef s => [s]
  | .call op args => freeRefs op ++ freeRefsList args
  | .ifNode test thn els => freeRefs test ++ freeRefs thn ++ freeRefsList els
  | .doNode body => freeRefsList body
  | .bind bindings body =>
      freeRefsBind bindings ++ (freeRefsList body).filter (· ∉ bindingsBind bindings)
  | .letfn bindings body =>
    (freeRefsFns bindings ++ freeRefsList body).filter (· ∉ bindings.map (·.1))
  | .fn name clauses => (freeRefsClauses clauses).filter (some · ≠ name)
  | .loop bindings body =>
    freeRefsInits bindings ++ (freeRefsList body).filter (· ∉ bindingsBind bindings)
  | .recur args => freeRefsList args
  | .case expr clauses => freeRefs expr ++ freeRefsCases clauses
  | .cond clauses => freeRefsConds clauses
  | .threadFirst forms => freeRefsList forms
  | .vector elements => freeRefsList elements
  | .set elements => freeRefsList elements
  | .dict entries => freeRefsEntries entries
  | .quote _ => []
  | .other kids => freeRefsKids kids

def freeRefsList : List Ast → List Symbol
  | [] => []
  | n :: ns => freeRefs n ++ freeRefsList ns

def freeRefsInits : List (Pattern × Ast) → List Symbol
  | [] => []
  | (_, init) :: bs => freeRefs init ++ freeRefsInits bs

def freeRefsBind : List (Pattern × Ast) → List Symbol
  | [] => []
  | (p, init) :: bs => freeRefs init ++ (freeRefsBind bs).filter (· ∉ p.binds)

def freeRefsClauses : List (Params × List Ast) → List Symbol
  | [] => []
  | (ps, body) :: cs => (freeRefsList body).filter (· ∉ ps.binds) ++ freeRefsClauses cs

def freeRefsFns : List (Symbol × List (Params × List Ast)) → List Symbol
  | [] => []
  | (_, clauses) :: fs => freeRefsClauses clauses ++ freeRefsFns fs

def freeRefsCases : List (List Literal × List Ast) → List Symbol
  | [] => []
  | (_, body) :: cs => freeRefsList body ++ freeRefsCases cs

def freeRefsConds : List (Ast × List Ast) → List Symbol
  | [] => []
  | (test, body) :: cs => freeRefs test ++ freeRefsList body ++ freeRefsConds cs

def freeRefsEntries : List (Ast × Ast) → List Symbol
  | [] => []
  | (k, v) :: es => freeRefs k ++ freeRefs v ++ freeRefsEntries es

def freeRefsKids : List (Bool × List Symbol × Ast) → List Symbol
  | [] => []
  | (_, binds, n) :: ks => (freeRefs n).filter (· ∉ binds) ++ freeRefsKids ks

end

end Fol.Escape
