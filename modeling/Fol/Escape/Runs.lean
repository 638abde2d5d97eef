/-
Fol.Escape.Runs — an operational semantics for what `returns-fresh-p` is about: which
roots a run allocates, and which of them the rest of the program gets hold of.

Values are roots. Literals, closures and calls whose summary returns fresh allocate; a
literal stores its elements, a closure what it captures, a fresh-summarised call the
arguments its summary shares or retains. Every other call may retain all its arguments, and
may return one of them, something the rest of the program holds, or a new root. What a
destructuring pattern binds is an element of a collection, which is stored, a new root, or
the value itself. Tests and clauses go either way. Local variables are never assigned.
-/
import Mathlib.Data.Set.Basic
import Fol.Escape.Infer

namespace Fol.Escape

/-! ## §1 Roots -/

abbrev Root := Nat

/-- The roots below `next` exist. The rest of the program has hold of the `kept` ones, and
of these some are bound to global variables. -/
structure Roots where
  next : Nat
  kept : Set Root
  globals : Set Root
  globals_kept : globals ⊆ kept
  kept_lt : ∀ r ∈ kept, r < next

namespace Roots

/-- Of what existed before, only roots of `X` come to be kept. -/
structure Keeps (X : Set Root) (σ σ' : Roots) : Prop where
  next_le : σ.next ≤ σ'.next
  kept_le : σ.kept ⊆ σ'.kept
  kept_new : ∀ r ∈ σ'.kept, r ∈ σ.kept ∨ r ∈ X ∨ σ.next ≤ r

/-- The roots of `X` are stored. -/
structure Stores (X : Set Root) (σ σ' : Roots) : Prop extends Keeps X σ σ' where
  stored : X ⊆ σ'.kept

/-- The root is allocated between the two, and nobody else has it. -/
structure New (σ σ' : Roots) (r : Root) : Prop where
  next_le : σ.next ≤ r
  lt_next : r < σ'.next
  not_kept : r ∉ σ'.kept

/-- The root is one of `X`, or the rest of the program has it, or it is new. -/
structure From (X : Set Root) (σ σ' : Roots) (r : Root) : Prop where
  lt_next : r < σ'.next
  source : r ∈ σ'.kept ∨ r ∈ X ∨ σ.next ≤ r

end Roots

def Effect.stores : Effect → Bool
  | .none => false
  | .invoked => false
  | .sharedWithResult => true
  | .retained => true

/-- The call is fresh-summarised. -/
def freshCall (Γ : Env) (operator : Option Symbol) : Bool :=
  ((operator.bind Γ.lookupSummary).map EscapeSummary.returnsFresh).getD false

/-- The call may retain the argument. -/
def mayKeep (Γ : Env) (operator : Option Symbol) (index : Nat) : Bool :=
  ((operator.bind Γ.lookupSummary).map fun s =>
    !s.returnsFresh || (effectForArg s index).stores).getD true

/-- A call with these arguments. -/
structure Roots.Calls (Γ : Env) (operator : Option Symbol) (args : List Root) (σ σ' : Roots)
    (r : Root) : Prop where
  keeps : Keeps {a | ∃ i, args[i]? = some a ∧ mayKeep Γ operator i = true} σ σ'
  fresh : freshCall Γ operator = true → New σ σ' r
  other : freshCall Γ operator = false → From {a | a ∈ args} σ σ' r

/-! ## §2 Runs -/

abbrev Locals := Symbol → Option Root

/-- The roots the variables free in a form hold. -/
def captured (ρ : Locals) (node : Ast) : Set Root := {r | ∃ s ∈ freeRefs node, ρ s = some r}

/-- What remains to be run, with values of type `α` where it has some: a loop with the values
its variables are to take, the steps of a threading form with the value threaded. -/
inductive Task (α : Type) where
  | node (n : Ast)
  | values (ns : List Ast)
  | body (ns : List Ast)
  | bind (bindings : List (Pattern × Ast)) (body : List Ast)
  | iterate (ps : List Pattern) (body : List Ast) (rs : List α)
  | conds (clauses : List (Ast × List Ast))
  | steps (r : α) (forms : List Ast)
  | kids (ks : List (Bool × List Symbol × Ast))

inductive Result where
  | value (r : Root)
  | again (rs : List Root)
  | values (rs : List Root)

/-- An operator is evaluated unless it is a symbol. -/
def calleeParts : Ast → List Ast
  | .symbolRef _ => []
  | op => [op]

def stepOperator : Ast → Ast
  | .call op _ => op
  | n => n

def stepArgs : Ast → List Ast
  | .call _ args => args
  | _ => []

/-- The patterns take the values: a symbol the value itself, the symbols of a destructuring
pattern what `From` allows. -/
structure Binds (bound : List (Pattern × Root)) (ρ : Locals) (σ : Roots) (ρ' : Locals)
    (σ' : Roots) : Prop where
  keeps : Roots.Keeps ∅ σ σ'
  symbols : ∀ x r, (.symbol x, r) ∈ bound → ρ' x = some r
  names : ∀ b ∈ bound, ∀ s ∈ b.1.binds, ∃ r, ρ' s = some r
  source : ∀ s r, (∃ b ∈ bound, s ∈ b.1.binds) → ρ' s = some r →
    Roots.From {v | ∃ b ∈ bound, s ∈ b.1.binds ∧ b.2 = v} σ σ' r
  others : ∀ s, (∀ b ∈ bound, s ∉ b.1.binds) → ρ' s = ρ s

/-- The names are put over a child of a node of another kind, or of a `letfn`. -/
structure BindsNew (names : List Symbol) (ρ : Locals) (σ : Roots) (ρ' : Locals) (σ' : Roots) :
    Prop where
  keeps : Roots.Keeps ∅ σ σ'
  source : ∀ s ∈ names, ∀ r, ρ' s = some r → Roots.From ∅ σ σ' r
  others : ∀ s, s ∉ names → ρ' s = ρ s

/-- `Eval Γ ρ σ t σ' res`: with the locals `ρ`, the task takes the roots from `σ` to `σ'`. -/
inductive Eval (Γ : Env) : Locals → Roots → Task Root → Roots → Result → Prop where
  | literal {ρ σ v σ' r} : Roots.Keeps ∅ σ σ' → Roots.New σ σ' r →
      Eval Γ ρ σ (.node (.literal v)) σ' (.value r)
  | quote {ρ σ v σ' r} : Roots.Keeps ∅ σ σ' → Roots.New σ σ' r →
      Eval Γ ρ σ (.node (.quote v)) σ' (.value r)
  | local {ρ σ s r} : ρ s = some r → Eval Γ ρ σ (.node (.symbolRef s)) σ (.value r)
  | global {ρ σ s r} : ρ s = none → r ∈ σ.globals → Eval Γ ρ σ (.node (.symbolRef s)) σ (.value r)
  | call {ρ σ op args σ₁ cs σ₂ rs σ' r} : Eval Γ ρ σ (.values (calleeParts op)) σ₁ (.values cs) →
      Eval Γ ρ σ₁ (.values args) σ₂ (.values rs) →
      Roots.Calls Γ (Ast.call op args).operatorSymbol rs σ₂ σ' r →
      Eval Γ ρ σ (.node (.call op args)) σ' (.value r)
  | ifThen {ρ σ test thn els σ₁ v σ' res} : Eval Γ ρ σ (.node test) σ₁ (.value v) →
      Eval Γ ρ σ₁ (.node thn) σ' res → Eval Γ ρ σ (.node (.ifNode test thn els)) σ' res
  | ifElse {ρ σ test thn els σ₁ v σ' res} : Eval Γ ρ σ (.node test) σ₁ (.value v) →
      Eval Γ ρ σ₁ (.body els) σ' res → Eval Γ ρ σ (.node (.ifNode test thn els)) σ' res
  | doNode {ρ σ body σ' res} : Eval Γ ρ σ (.body body) σ' res →
      Eval Γ ρ σ (.node (.doNode body)) σ' res
  | bindNode {ρ σ bindings body σ' res} : Eval Γ ρ σ (.bind bindings body) σ' res →
      Eval Γ ρ σ (.node (.bind bindings body)) σ' res
  | letfn {ρ σ bindings body σ₁ ρ' σ₂ σ' res} :
      Roots.Stores (captured ρ (.letfn bindings [])) σ σ₁ →
      BindsNew (bindings.map (·.1)) ρ σ₁ ρ' σ₂ → Eval Γ ρ' σ₂ (.body body) σ' res →
      Eval Γ ρ σ (.node (.letfn bindings body)) σ' res
  | fn {ρ σ name clauses σ' r} : Roots.Stores (captured ρ (.fn name clauses)) σ σ' →
      Roots.New σ σ' r → Eval Γ ρ σ (.node (.fn name clauses)) σ' (.value r)
  | loop {ρ σ bindings body σ₁ rs σ' res} :
      Eval Γ ρ σ (.values (bindings.map (·.2))) σ₁ (.values rs) →
      Eval Γ ρ σ₁ (.iterate (bindings.map (·.1)) body rs) σ' res →
      Eval Γ ρ σ (.node (.loop bindings body)) σ' res
  | recur {ρ σ args σ' rs} : Eval Γ ρ σ (.values args) σ' (.values rs) →
      Eval Γ ρ σ (.node (.recur args)) σ' (.again rs)
  | case {ρ σ expr clauses σ₁ v c σ' res} : Eval Γ ρ σ (.node expr) σ₁ (.value v) →
      c ∈ clauses → Eval Γ ρ σ₁ (.body c.2) σ' res →
      Eval Γ ρ σ (.node (.case expr clauses)) σ' res
  | caseNone {ρ σ expr clauses σ₁ v σ' r} : Eval Γ ρ σ (.node expr) σ₁ (.value v) →
      Roots.Keeps ∅ σ₁ σ' → Roots.New σ₁ σ' r →
      Eval Γ ρ σ (.node (.case expr clauses)) σ' (.value r)
  | cond {ρ σ clauses σ' res} : Eval Γ ρ σ (.conds clauses) σ' res →
      Eval Γ ρ σ (.node (.cond clauses)) σ' res
  | threadFirst {ρ σ f forms σ₁ v σ' res} : Eval Γ ρ σ (.node f) σ₁ (.value v) →
      Eval Γ ρ σ₁ (.steps v forms) σ' res → Eval Γ ρ σ (.node (.threadFirst (f :: forms))) σ' res
  | vector {ρ σ elements σ₁ rs σ' r} : Eval Γ ρ σ (.values elements) σ₁ (.values rs) →
      Roots.Stores {a | a ∈ rs} σ₁ σ' → Roots.New σ₁ σ' r →
      Eval Γ ρ σ (.node (.vector elements)) σ' (.value r)
  | set {ρ σ elements σ₁ rs σ' r} : Eval Γ ρ σ (.values elements) σ₁ (.values rs) →
      Roots.Stores {a | a ∈ rs} σ₁ σ' → Roots.New σ₁ σ' r →
      Eval Γ ρ σ (.node (.set elements)) σ' (.value r)
  | dict {ρ σ entries σ₁ rs σ' r} :
      Eval Γ ρ σ (.values (entries.flatMap fun e => [e.1, e.2])) σ₁ (.values rs) →
      Roots.Stores {a | a ∈ rs} σ₁ σ' → Roots.New σ₁ σ' r →
      Eval Γ ρ σ (.node (.dict entries)) σ' (.value r)
  | other {ρ σ ks σ' res} : Eval Γ ρ σ (.kids ks) σ' res → Eval Γ ρ σ (.node (.other ks)) σ' res
  -- forms for their values, from left to right
  | valuesNil {ρ σ} : Eval Γ ρ σ (.values []) σ (.values [])
  | valuesCons {ρ σ n ns σ₁ r σ' rs} : Eval Γ ρ σ (.node n) σ₁ (.value r) →
      Eval Γ ρ σ₁ (.values ns) σ' (.values rs) →
      Eval Γ ρ σ (.values (n :: ns)) σ' (.values (r :: rs))
  -- the forms of a body
  | bodyNil {ρ σ σ' r} : Roots.Keeps ∅ σ σ' → Roots.New σ σ' r →
      Eval Γ ρ σ (.body []) σ' (.value r)
  | bodyLast {ρ σ n σ' res} : Eval Γ ρ σ (.node n) σ' res → Eval Γ ρ σ (.body [n]) σ' res
  | bodyCons {ρ σ n m ns σ₁ r σ' res} : Eval Γ ρ σ (.node n) σ₁ (.value r) →
      Eval Γ ρ σ₁ (.body (m :: ns)) σ' res → Eval Γ ρ σ (.body (n :: m :: ns)) σ' res
  -- the bindings of a `bind`, one after the other
  | bindNil {ρ σ body σ' res} : Eval Γ ρ σ (.body body) σ' res →
      Eval Γ ρ σ (.bind [] body) σ' res
  | bindCons {ρ σ p init bs body σ₁ r ρ' σ₂ σ' res} : Eval Γ ρ σ (.node init) σ₁ (.value r) →
      Binds [(p, r)] ρ σ₁ ρ' σ₂ → Eval Γ ρ' σ₂ (.bind bs body) σ' res →
      Eval Γ ρ σ (.bind ((p, init) :: bs) body) σ' res
  -- the rounds of a `loop`
  | iterateDone {ρ σ ps body rs ρ' σ₁ σ' r} : ps.length = rs.length → Binds (ps.zip rs) ρ σ ρ' σ₁ →
      Eval Γ ρ' σ₁ (.body body) σ' (.value r) → Eval Γ ρ σ (.iterate ps body rs) σ' (.value r)
  | iterateAgain {ρ σ ps body rs ρ' σ₁ σ₂ rs' σ' res} : ps.length = rs.length →
      Binds (ps.zip rs) ρ σ ρ' σ₁ →
      Eval Γ ρ' σ₁ (.body body) σ₂ (.again rs') → Eval Γ ρ σ₂ (.iterate ps body rs') σ' res →
      Eval Γ ρ σ (.iterate ps body rs) σ' res
  -- the clauses of a `cond`
  | condNone {ρ σ σ' r} : Roots.Keeps ∅ σ σ' → Roots.New σ σ' r →
      Eval Γ ρ σ (.conds []) σ' (.value r)
  | condTaken {ρ σ test body cs σ₁ v σ' res} : Eval Γ ρ σ (.node test) σ₁ (.value v) →
      Eval Γ ρ σ₁ (.body body) σ' res → Eval Γ ρ σ (.conds ((test, body) :: cs)) σ' res
  | condNext {ρ σ test body cs σ₁ v σ' res} : Eval Γ ρ σ (.node test) σ₁ (.value v) →
      Eval Γ ρ σ₁ (.conds cs) σ' res → Eval Γ ρ σ (.conds ((test, body) :: cs)) σ' res
  -- the steps of a threading form
  | stepsNil {ρ σ v} : Eval Γ ρ σ (.steps v []) σ (.value v)
  | stepsCons {ρ σ v n ns σ₁ cs σ₂ rs σ₃ v' σ' res} :
      Eval Γ ρ σ (.values (calleeParts (stepOperator n))) σ₁ (.values cs) →
      Eval Γ ρ σ₁ (.values (stepArgs n)) σ₂ (.values rs) →
      Roots.Calls Γ (Ast.call (stepOperator n) (stepArgs n)).operatorSymbol (v :: rs) σ₂ σ₃ v' →
      Eval Γ ρ σ₃ (.steps v' ns) σ' res → Eval Γ ρ σ (.steps v (n :: ns)) σ' res
  -- the children of a node of another kind: each any number of times, under the names it
  -- puts over it, and its values may be retained
  | kidsDone {ρ σ ks σ' r} : Roots.Keeps ∅ σ σ' → Roots.From ∅ σ σ' r →
      Eval Γ ρ σ (.kids ks) σ' (.value r)
  | kidsSkip {ρ σ k ks σ' res} : Eval Γ ρ σ (.kids ks) σ' res → Eval Γ ρ σ (.kids (k :: ks)) σ' res
  | kidsRun {ρ σ step binds n ks ρ' σ₁ σ₂ r σ₃ σ' res} : BindsNew binds ρ σ ρ' σ₁ →
      Eval Γ ρ' σ₁ (.node n) σ₂ (.value r) → Roots.Keeps {r} σ₂ σ₃ →
      Eval Γ ρ σ₃ (.kids ((step, binds, n) :: ks)) σ' res →
      Eval Γ ρ σ (.kids ((step, binds, n) :: ks)) σ' res
  | kidsLast {ρ σ step binds n ks ρ' σ₁ σ' res} : BindsNew binds ρ σ ρ' σ₁ →
      Eval Γ ρ' σ₁ (.node n) σ' res → Eval Γ ρ σ (.kids ((step, binds, n) :: ks)) σ' res

/-- A run of a function that returns: its parameters take the arguments, and a `recur` of its
own enters it again. -/
inductive Returns (Γ : Env) (params : Params) (body : List Ast) :
    List Root → Roots → Roots → Root → Prop where
  | value {args σ ρ σ₁ σ' r} : (∀ a ∈ args, a < σ.next) →
      Binds (params.elems.zip args) (fun _ => none) σ ρ σ₁ →
      Eval Γ ρ σ₁ (.body body) σ' (.value r) → Returns Γ params body args σ σ' r
  | again {args σ ρ σ₁ σ₂ rs σ' r} : (∀ a ∈ args, a < σ.next) →
      Binds (params.elems.zip args) (fun _ => none) σ ρ σ₁ →
      Eval Γ ρ σ₁ (.body body) σ₂ (.again rs) → Returns Γ params body rs σ₂ σ' r →
      Returns Γ params body args σ σ' r

/-! ## §3 Bounds -/

/-- More roots exist, and none that was kept is let go. -/
structure Roots.Le (σ σ' : Roots) : Prop where
  next_le : σ.next ≤ σ'.next
  kept_le : σ.kept ⊆ σ'.kept

theorem Roots.Le.refl (σ : Roots) : σ.Le σ := ⟨le_rfl, Set.Subset.rfl⟩

theorem Roots.Le.trans {σ σ₁ σ' : Roots} (h : σ.Le σ₁) (h' : σ₁.Le σ') : σ.Le σ' :=
  ⟨h.next_le.trans h'.next_le, h.kept_le.trans h'.kept_le⟩

theorem Roots.Keeps.le {X : Set Root} {σ σ' : Roots} (h : Roots.Keeps X σ σ') : σ.Le σ' :=
  ⟨h.next_le, h.kept_le⟩

theorem Roots.Stores.le {X : Set Root} {σ σ' : Roots} (h : Roots.Stores X σ σ') : σ.Le σ' :=
  h.toKeeps.le

theorem Roots.Calls.le {Γ : Env} {o : Option Symbol} {args : List Root} {σ σ' : Roots} {r : Root}
    (h : Roots.Calls Γ o args σ σ' r) : σ.Le σ' := h.keeps.le

theorem Binds.le {bound : List (Pattern × Root)} {ρ ρ' : Locals} {σ σ' : Roots}
    (h : Binds bound ρ σ ρ' σ') : σ.Le σ' := h.keeps.le

theorem BindsNew.le {names : List Symbol} {ρ ρ' : Locals} {σ σ' : Roots}
    (h : BindsNew names ρ σ ρ' σ') : σ.Le σ' := h.keeps.le

theorem Eval.le {Γ : Env} {ρ : Locals} {σ σ' : Roots} {t : Task Root} {res : Result}
    (h : Eval Γ ρ σ t σ' res) : σ.Le σ' := by
  induction h <;>
    grind [Roots.Le.refl, → Roots.Le.trans, → Roots.Keeps.le, → Roots.Stores.le, → Roots.Calls.le,
      → Binds.le, → BindsNew.le]

/-- The values of the task and of the locals exist. -/
def Task.Below (n : Nat) : Task Root → Prop
  | .iterate _ _ rs => ∀ r ∈ rs, r < n
  | .steps r _ => r < n
  | _ => True

def Result.Below (n : Nat) : Result → Prop
  | .value r => r < n
  | .again rs => ∀ r ∈ rs, r < n
  | .values rs => ∀ r ∈ rs, r < n

def Locals.Below (n : Nat) (ρ : Locals) : Prop := ∀ s r, ρ s = some r → r < n

theorem Locals.Below.mono {n m : Nat} {ρ : Locals} (h : ρ.Below n) (hle : n ≤ m) : ρ.Below m :=
  fun s r hr => (h s r hr).trans_le hle

theorem Binds.below {bound : List (Pattern × Root)} {ρ ρ' : Locals} {σ σ' : Roots}
    (h : Binds bound ρ σ ρ' σ') (hρ : ρ.Below σ.next) : ρ'.Below σ'.next := by
  intro s r hr
  by_cases hs : ∃ b ∈ bound, s ∈ b.1.binds
  · exact (h.source s r hs hr).lt_next
  · push Not at hs
    rw [h.others s hs] at hr
    exact (hρ s r hr).trans_le h.le.next_le

theorem BindsNew.below {names : List Symbol} {ρ ρ' : Locals} {σ σ' : Roots}
    (h : BindsNew names ρ σ ρ' σ') (hρ : ρ.Below σ.next) : ρ'.Below σ'.next := by
  intro s r hr
  by_cases hs : s ∈ names
  · exact (h.source s hs r hr).lt_next
  · rw [h.others s hs] at hr
    exact (hρ s r hr).trans_le h.le.next_le

theorem Roots.Calls.lt_next {Γ : Env} {o : Option Symbol} {args : List Root} {σ σ' : Roots}
    {r : Root} (h : Roots.Calls Γ o args σ σ' r) : r < σ'.next := by
  cases hf : freshCall Γ o with
  | true => exact (h.fresh hf).lt_next
  | false => exact (h.other hf).lt_next

theorem Eval.lt_next {Γ : Env} {ρ : Locals} {σ σ' : Roots} {t : Task Root} {res : Result}
    (h : Eval Γ ρ σ t σ' res) (hρ : ρ.Below σ.next) (ht : t.Below σ.next) :
    res.Below σ'.next := by
  induction h with
  | literal _ hnew | quote _ hnew | bodyNil _ hnew | condNone _ hnew => exact hnew.lt_next
  | fn _ hnew => exact hnew.lt_next
  | caseNone _ _ hnew => exact hnew.lt_next
  | vector _ _ hnew | set _ _ hnew | dict _ _ hnew => exact hnew.lt_next
  | «local» hs => exact hρ _ _ hs
  | «global» _ hr => exact Roots.kept_lt _ _ (Roots.globals_kept _ hr)
  | call _ _ hcalls => exact hcalls.lt_next
  | ifThen htest _ _ ih => exact ih (hρ.mono htest.le.next_le) trivial
  | ifElse htest _ _ ih => exact ih (hρ.mono htest.le.next_le) trivial
  | doNode _ ih | bindNode _ ih | cond _ ih | other _ ih | bodyLast _ ih | bindNil _ ih
  | kidsSkip _ ih => exact ih hρ trivial
  | letfn hstores hbinds _ ih =>
    exact ih (hbinds.below (hρ.mono hstores.le.next_le)) trivial
  | loop hinits _ ihinits ih =>
    exact ih (hρ.mono hinits.le.next_le) (ihinits hρ trivial)
  | recur _ ih => exact ih hρ trivial
  | case hexpr _ _ _ ih => exact ih (hρ.mono hexpr.le.next_le) trivial
  | threadFirst hf _ ihf ih => exact ih (hρ.mono hf.le.next_le) (ihf hρ trivial)
  | valuesNil => exact fun _ hr => absurd hr List.not_mem_nil
  | valuesCons hn hns ihn ih =>
    have hr := (ihn hρ trivial : _ < _).trans_le hns.le.next_le
    exact List.forall_mem_cons.mpr ⟨hr, ih (hρ.mono hn.le.next_le) trivial⟩
  | bodyCons hn _ _ ih | condTaken hn _ _ ih | condNext hn _ _ ih =>
    exact ih (hρ.mono hn.le.next_le) trivial
  | bindCons hinit hbinds _ _ ih =>
    exact ih (hbinds.below (hρ.mono hinit.le.next_le)) trivial
  | iterateDone _ hbinds _ ih => exact ih (hbinds.below hρ) trivial
  | iterateAgain _ hbinds hbody _ ihbody ih =>
    have hρ' := hbinds.below hρ
    exact ih ((hρ.mono hbinds.le.next_le).mono hbody.le.next_le) (ihbody hρ' trivial)
  | stepsNil => exact ht
  | stepsCons hcs hrs hcalls _ _ _ ih =>
    have hle := (hcs.le.trans hrs.le).trans hcalls.le
    exact ih (hρ.mono hle.next_le) hcalls.lt_next
  | kidsDone _ hfrom => exact hfrom.lt_next
  | kidsRun hbinds hn hkeeps _ _ ih =>
    have hle := (hbinds.le.trans hn.le).trans hkeeps.le
    exact ih (hρ.mono hle.next_le) trivial
  | kidsLast hbinds _ ih => exact ih (hbinds.below hρ) trivial

end Fol.Escape
