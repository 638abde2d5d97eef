/-
Fol.Escape.LetChain — `try-let-chain-rw`, and what a folded recur does when it is evaluated.

A bind of chained temporaries around a recur is replaced by a recur with the whole chain in one of
its arguments. What the operators do is a parameter: a call of a silent operator neither looks at
the world nor changes it, any other call may do both. Calls and `->` forms are evaluated part by
part; the other nodes are what their free variables and the world make of them, without an effect
when all they call is silent.

  §1 Rewriting  — `tryLetChainRw`.
  §2 Silence    — `silentOp`, `silentNode`, `ticks`.
  §3 Evaluation — `Evaluator`, `eval`, `evalBind`.
  §4 Holes      — `ticksBefore`, `Spine`, `eval_inlineSubst`.
-/
import Fol.Escape.Classify

namespace Fol.Escape

/-! ## §1 Rewriting -/

section Rewriting

variable (chain : Ast → Symbol → Option ChainResult)

/-- The test of one recur position: the recur with the folded chain at `i`. -/
def letChainAt (qname : Symbol) (i : Nat) (bindings : List (Pattern × Ast)) (args : List Ast) :
    Option (Option Ast) :=
  match symbolBindings qname bindings with
  | none => some none
  | some bs => do
    let r ← foldLetChain chain bs qname
    return r.1.bind fun f =>
      if (args[i]?).any (Ast.isRef f.1) && symbolRefCount (.recur args) f.1 = 1 then
        some (.recur (args.set i f.2))
      else none

/-- The loop of `try-let-chain-rw` over the recur positions with a qualified name. -/
def letChainFrom (bindings : List (Pattern × Ast)) (args : List Ast) :
    Nat → List (Option Symbol) → Option (Option Ast)
  | _, [] => some none
  | i, none :: posNames => letChainFrom bindings args (i + 1) posNames
  | i, some qname :: posNames =>
    if i < args.length then do
      match ← letChainAt chain qname i bindings args with
      | some recur => return some recur
      | none => letChainFrom bindings args (i + 1) posNames
    else some none

/-- `try-let-chain-rw`: the recur it builds, which `rewrite-recur` then takes. -/
def tryLetChainRw (posNames : List (Option Symbol)) (bindings : List (Pattern × Ast))
    (body : List Ast) :
    Option (Option Ast) :=
  match bindings, body with
  | b :: bs, [.recur args] => letChainFrom chain (b :: bs) args 0 posNames
  | _, _ => some none

/-- The bindings of temporaries as those of a bind. -/
def patterns (bs : List (Symbol × Ast)) : List (Pattern × Ast) := bs.map fun b => (.symbol b.1, b.2)

/-- The last temporary. -/
def lastVar (var : Symbol) : List (Symbol × Ast) → Symbol
  | [] => var
  | b :: bs => lastVar b.1 bs

/-- Every initialiser after the first has one reference to the temporary before it. -/
def Linked (prev : Symbol) : List (Symbol × Ast) → Prop
  | [] => True
  | b :: bs => symbolRefCount b.2 prev = 1 ∧ Linked b.1 bs

theorem symbolBindings_eq_some {name : Symbol} {bindings : List (Pattern × Ast)}
    {bs : List (Symbol × Ast)} (h : symbolBindings name bindings = some bs) :
    bindings = patterns bs := by
  induction bindings generalizing bs with
  | nil =>
    cases h
    rfl
  | cons b bindings ih =>
    obtain ⟨p, init⟩ := b
    cases p with
    | tree mentions binds => cases h
    | symbol s =>
      rw [symbolBindings] at h
      split at h
      · cases h
      · obtain ⟨rest, hrest, rfl⟩ := Option.map_eq_some_iff.mp h
        rw [ih hrest]
        rfl

variable {chain}

theorem foldLetAlias_eq_some {cur final : Symbol} {bs : List (Symbol × Ast)} {events : List Event}
    (h : foldLetAlias chain cur bs = some (some final, events)) :
    Linked cur bs ∧ final = lastVar cur bs := by
  induction bs generalizing cur events with
  | nil =>
    cases h
    exact ⟨trivial, rfl⟩
  | cons b bs ih =>
    simp only [foldLetAlias, Option.bind_eq_bind, Option.bind_eq_some_iff] at h
    obtain ⟨r, -, h⟩ := h
    split at h
    · next hchain =>
      obtain ⟨⟨f, es⟩, hrest, h⟩ := Option.bind_eq_some_iff.mp h
      cases h
      obtain ⟨hlinked, rfl⟩ := ih hrest
      exact ⟨⟨hchain.2, hlinked⟩, rfl⟩
    · cases h

/-- What is known of a bind that was folded. -/
structure Folded (var : Symbol) (init : Ast) (bs : List (Symbol × Ast)) (args : List Ast)
    (recur : Ast) : Prop where
  linked : Linked var bs
  folded : ∃ before after, args = before ++ .symbolRef (lastVar var bs) :: after ∧
    (∀ a ∈ before ++ after, lastVar var bs ∉ symbolRefs a) ∧
    recur = .recur (before ++ foldLetExpand var init bs :: after)

theorem mem_symbolRefsList {ns : List Ast} {s : Symbol} :
    s ∈ symbolRefsList ns ↔ ∃ n ∈ ns, s ∈ symbolRefs n := by
  induction ns with
  | nil => simp [symbolRefsList]
  | cons n ns ih => simp [symbolRefsList, ih]

theorem symbolRefsList_append (ns ms : List Ast) :
    symbolRefsList (ns ++ ms) = symbolRefsList ns ++ symbolRefsList ms := by
  induction ns with
  | nil => rfl
  | cons n ns ih => simp [symbolRefsList, ih]

theorem isRef_eq_true {s : Symbol} {a : Ast} : a.isRef s = true ↔ a = .symbolRef s := by
  cases a <;> simp [Ast.isRef]

theorem letChainAt_folded {qname : Symbol} {i : Nat} {bindings : List (Pattern × Ast)}
    {args : List Ast} {recur : Ast} (hne : bindings ≠ [])
    (h : letChainAt chain qname i bindings args = some (some recur)) :
    ∃ var init bs, bindings = patterns ((var, init) :: bs) ∧ Folded var init bs args recur := by
  unfold letChainAt at h
  split at h
  · cases h
  · next bs hbs =>
    obtain rfl := symbolBindings_eq_some hbs
    simp only [foldLetChain, Option.bind_eq_bind, Option.bind_eq_some_iff] at h
    obtain ⟨r, ⟨⟨final, events⟩, hfinal, hr⟩, h⟩ := h
    cases hr
    cases final with
    | none => cases h
    | some final =>
      cases bs with
      | nil => exact absurd rfl hne
      | cons b bs =>
        obtain ⟨var, init⟩ := b
        simp only [foldLetExpr, Option.map_some, Option.bind_some, Option.pure_def,
          Option.some.injEq] at h
        obtain ⟨hlinked, rfl⟩ := foldLetAlias_eq_some hfinal
        split at h
        · next hat =>
          cases h
          rw [Bool.and_eq_true, decide_eq_true_eq, Option.any_eq_true] at hat
          obtain ⟨⟨a, ha, href⟩, hone⟩ := hat
          rw [lastVar] at href hone
          obtain ⟨hi, rfl⟩ := List.getElem?_eq_some_iff.mp ha
          have hargs : args = args.take i ++ .symbolRef (lastVar var bs) :: args.drop (i + 1) := by
            rw [← isRef_eq_true.mp href, ← List.drop_eq_getElem_cons hi, List.take_append_drop]
          refine ⟨var, init, bs, rfl, hlinked.2, args.take i, args.drop (i + 1), hargs, ?_, ?_⟩
          · have hcount :
              symbolRefCount
              (.recur (args.take i ++ .symbolRef (lastVar var bs) :: args.drop (i + 1)))
                (lastVar var bs) = 1 := by
              rw [← hargs]
              exact hone
            have hzero :
              (symbolRefsList (args.take i ++ args.drop (i + 1))).count (lastVar var bs) = 0 := by
              simp only [symbolRefCount, symbolRefs, symbolRefsList_append, symbolRefsList,
                List.count_append, List.count_singleton_self] at hcount ⊢
              omega
            intro b hb hmem
            exact List.count_eq_zero.mp hzero (mem_symbolRefsList.mpr ⟨b, hb, hmem⟩)
          · rw [List.set_eq_take_append_cons_drop, if_pos hi]
        · cases h

theorem letChainFrom_folded {bindings : List (Pattern × Ast)} {args : List Ast} {i : Nat}
    {posNames : List (Option Symbol)} {recur : Ast} (hne : bindings ≠ [])
    (h : letChainFrom chain bindings args i posNames = some (some recur)) :
    ∃ var init bs, bindings = patterns ((var, init) :: bs) ∧ Folded var init bs args recur := by
  induction posNames generalizing i with
  | nil => cases h
  | cons q posNames ih =>
    cases q with
    | none => exact ih h
    | some qname =>
      rw [letChainFrom] at h
      split at h
      · obtain ⟨r, hr, h⟩ := Option.bind_eq_some_iff.mp h
        cases r with
        | none => exact ih h
        | some recur' =>
          cases h
          exact letChainAt_folded hne hr
      · cases h

/-- What `try-let-chain-rw` rewrites is a bind of temporaries around a recur. -/
theorem tryLetChainRw_folded {posNames : List (Option Symbol)} {bindings : List (Pattern × Ast)}
    {body : List Ast} {recur : Ast}
    (h : tryLetChainRw chain posNames bindings body = some (some recur)) :
    ∃ var init bs args, bindings = patterns ((var, init) :: bs) ∧ body = [.recur args] ∧
      Folded var init bs args recur := by
  unfold tryLetChainRw at h
  split at h
  · next b bs args =>
    obtain ⟨var, init, bs', hb, hf⟩ := letChainFrom_folded (List.cons_ne_nil b bs) h
    exact ⟨var, init, bs', args, hb, rfl, hf⟩
  · cases h

end Rewriting

/-! ## §2 Silence -/

section Silence

variable (silent : Symbol → Bool)

/-- An operator whose calls have no effect: a named one that is silent, or a keyword. -/
def silentOp : Ast → Bool
  | .symbolRef s => silent s
  | .literal (.keyword _) => true
  | _ => false

mutual

/-- Everything that the evaluation of the tree calls is silent. -/
@[grind =] def silentNode : Ast → Bool
  | .literal _ => true
  | .symbolRef _ => true
  | .call op args => silentOp silent op && silentList args
  | .ifNode test thn els => silentNode test && silentNode thn && silentList els
  | .doNode body => silentList body
  | .bind bindings body => silentBindings bindings && silentList body
  | .case expr clauses => silentNode expr && silentCases clauses
  | .cond clauses => silentConds clauses
  | .threadFirst [] => true
  | .threadFirst (f :: steps) => silentNode f && silentSteps steps
  | .vector elements => silentList elements
  | .set elements => silentList elements
  | .dict entries => silentEntries entries
  | .quote _ => true
  | .fn _ _ => true
  | _ => false

def silentList : List Ast → Bool
  | [] => true
  | n :: ns => silentNode n && silentList ns

/-- The steps of a `->` form, each of which is called. -/
def silentSteps : List Ast → Bool
  | [] => true
  | .call op args :: ns => silentOp silent op && silentList args && silentSteps ns
  | n :: ns => silentOp silent n && silentSteps ns

/-- A binding that gives the name of a silent operator to something else is not taken for silent. -/
def silentBindings : List (Pattern × Ast) → Bool
  | [] => true
  | (p, init) :: bs => p.binds.all (!silent ·) && silentNode init && silentBindings bs

def silentCases : List (List Literal × List Ast) → Bool
  | [] => true
  | (_, body) :: cs => silentList body && silentCases cs

def silentConds : List (Ast × List Ast) → Bool
  | [] => true
  | (test, body) :: cs => silentNode test && silentList body && silentConds cs

def silentEntries : List (Ast × Ast) → Bool
  | [] => true
  | (k, v) :: es => silentNode k && silentNode v && silentEntries es

end

/-- One for a call that is not silent. -/
def opTick (op : Ast) : Nat := if silentOp silent op then 0 else 1

mutual

/-- How many operations of the evaluation may have an effect; another node than a call or a `->`
form counts as one. -/
@[grind =] def ticks : Ast → Nat
  | .call op args => ticks op + ticksList args + opTick silent op
  | .threadFirst [] => 0
  | .threadFirst (f :: steps) => ticks f + ticksSteps steps
  | n => if silentNode silent n then 0 else 1

def ticksList : List Ast → Nat
  | [] => 0
  | n :: ns => ticks n + ticksList ns

def ticksSteps : List Ast → Nat
  | [] => 0
  | .call op args :: ns => ticks op + ticksList args + opTick silent op + ticksSteps ns
  | n :: ns => ticks n + opTick silent n + ticksSteps ns

end

variable {silent}

@[simp] theorem opTick_eq_zero {op : Ast} : opTick silent op = 0 ↔ silentOp silent op = true := by
  simp [opTick]

theorem ticks_of_silentOp {op : Ast} (h : silentOp silent op = true) : ticks silent op = 0 := by
  cases op with
  | symbolRef s => simp [ticks, silentNode]
  | literal v => simp [ticks, silentNode]
  | _ => simp [silentOp] at h

/-- A step of a `->` form. -/
def stepTicks (silent : Symbol → Bool) : Ast → Nat
  | .call op args => ticks silent op + ticksList silent args + opTick silent op
  | n => ticks silent n + opTick silent n

theorem ticksSteps_cons (n : Ast) (ns : List Ast) :
    ticksSteps silent (n :: ns) = stepTicks silent n + ticksSteps silent ns := by
  cases n <;> rfl

theorem ticksList_eq_zero {ns : List Ast}
    (h : ∀ n ∈ ns, ticks silent n = 0 ↔ silentNode silent n = true) :
    ticksList silent ns = 0 ↔ silentList silent ns = true := by
  induction ns with
  | nil => simp [ticksList, silentList]
  | cons n ns ih =>
    rw [ticksList, silentList, Nat.add_eq_zero_iff, Bool.and_eq_true, h n List.mem_cons_self,
      ih fun m hm => h m (List.mem_cons_of_mem n hm)]

theorem stepTicks_eq_zero {n : Ast} (hargs : ∀ op args, n = .call op args →
    (ticksList silent args = 0 ↔ silentList silent args = true)) :
    stepTicks silent n = 0 ↔ silentSteps silent [n] = true := by
  cases n with
  | call op args =>
    have hargs := hargs op args rfl
    simp only [stepTicks, silentSteps, Nat.add_eq_zero_iff, opTick_eq_zero, hargs, Bool.and_true,
      Bool.and_eq_true]
    constructor
    · exact fun h => ⟨h.2, h.1.2⟩
    · exact fun h => ⟨⟨ticks_of_silentOp h.1, h.2⟩, h.1⟩
  | _ =>
    simp only [stepTicks, silentSteps, Nat.add_eq_zero_iff, opTick_eq_zero, Bool.and_true,
      and_iff_right_iff_imp]
    exact ticks_of_silentOp

theorem silentSteps_cons (n : Ast) (ns : List Ast) :
    silentSteps silent (n :: ns) = (silentSteps silent [n] && silentSteps silent ns) := by
  cases n <;> simp [silentSteps]

/-- Nothing that may have an effect: everything called is silent. -/
theorem ticks_eq_zero (n : Ast) : ticks silent n = 0 ↔ silentNode silent n = true := by
  suffices h : (ticks silent n = 0 ↔ silentNode silent n = true) ∧
      ∀ op args, n = .call op args → (ticksList silent args = 0 ↔ silentList silent args = true)
      from h.1
  induction n with
  | call op args hop hargs =>
    have hl := ticksList_eq_zero fun a ha => (hargs a ha).1
    refine ⟨?_, fun op' args' h => by cases h; exact hl⟩
    simp only [ticks, silentNode, Nat.add_eq_zero_iff, opTick_eq_zero, hl, Bool.and_eq_true]
    constructor
    · exact fun h => ⟨h.2, h.1.2⟩
    · exact fun h => ⟨⟨ticks_of_silentOp h.1, h.2⟩, h.1⟩
  | threadFirst forms hforms =>
    refine ⟨?_, fun op args h => by cases h⟩
    cases forms with
    | nil => simp [ticks, silentNode]
    | cons f steps =>
      have hsteps :
        ∀ ns, (∀ n ∈ ns, n ∈ steps) →
        (ticksSteps silent ns = 0 ↔ silentSteps silent ns = true) := by
        intro ns hns
        induction ns with
        | nil => simp [ticksSteps, silentSteps]
        | cons n ns ih =>
          have hn := (hforms n (List.mem_cons_of_mem f (hns n List.mem_cons_self))).2
          rw [ticksSteps_cons, silentSteps_cons, Nat.add_eq_zero_iff, Bool.and_eq_true,
            stepTicks_eq_zero hn, ih fun m hm => hns m (List.mem_cons_of_mem n hm)]
      rw [ticks, silentNode, Nat.add_eq_zero_iff, Bool.and_eq_true, (hforms f List.mem_cons_self).1,
        hsteps steps fun _ h => h]
  | _ => exact ⟨by simp [ticks], fun op args h => by cases h⟩

end Silence

/-! ## §3 Evaluation -/

/-- What an evaluation does with values and the world. -/
structure Evaluator (silent : Symbol → Bool) (V W : Type) where
  literal : Literal → V
  /-- a call, from the operator as it is written, its value and those of the arguments -/
  apply : Ast → V → List V → W → V × W
  apply_silent : ∀ op f args w w', silentOp silent op = true →
    (apply op f args w).2 = w ∧ (apply op f args w).1 = (apply op f args w').1
  /-- the remaining nodes -/
  other : Ast → (Symbol → V) → W → V × W
  other_congr : ∀ n (ρ ρ' : Symbol → V) w, (∀ s ∈ freeRefs n, ρ s = ρ' s) →
    other n ρ w = other n ρ' w
  other_silent : ∀ n ρ w w', silentNode silent n = true →
    (other n ρ w).2 = w ∧ (other n ρ w).1 = (other n ρ w').1

namespace Evaluator

variable {silent : Symbol → Bool} {V W : Type} (S : Evaluator silent V W)

mutual

/-- Operator, arguments, call; the first form of `->`, then its steps. -/
@[grind =] def eval (ρ : Symbol → V) (node : Ast) (w : W) : V × W :=
  match node with
  | .literal v => (S.literal v, w)
  | .symbolRef s => (ρ s, w)
  | .call op args =>
    let f := eval ρ op w
    let vs := evalList ρ args f.2
    S.apply op f.1 vs.1 vs.2
  | .threadFirst [] => (S.literal .nil, w)
  | .threadFirst (f :: steps) =>
    let v := eval ρ f w
    evalSteps ρ v.1 steps v.2
  | n => S.other n ρ w

def evalList (ρ : Symbol → V) (nodes : List Ast) (w : W) : List V × W :=
  match nodes with
  | [] => ([], w)
  | n :: ns =>
    let v := eval ρ n w
    let vs := evalList ρ ns v.2
    (v.1 :: vs.1, vs.2)

/-- The value so far is the first argument of a step. -/
def evalSteps (ρ : Symbol → V) (v : V) (steps : List Ast) (w : W) : V × W :=
  match steps with
  | [] => (v, w)
  | .call op args :: ns =>
    let f := eval ρ op w
    let vs := evalList ρ args f.2
    let r := S.apply op f.1 (v :: vs.1) vs.2
    evalSteps ρ r.1 ns r.2
  | n :: ns =>
    let f := eval ρ n w
    let r := S.apply n f.1 [v] f.2
    evalSteps ρ r.1 ns r.2

end

/-- One step of a `->` form. -/
def evalStep (ρ : Symbol → V) (v : V) (n : Ast) (w : W) : V × W :=
  match n with
  | .call op args =>
    let f := S.eval ρ op w
    let vs := S.evalList ρ args f.2
    S.apply op f.1 (v :: vs.1) vs.2
  | n =>
    let f := S.eval ρ n w
    S.apply n f.1 [v] f.2

theorem evalSteps_cons (ρ : Symbol → V) (v : V) (n : Ast) (ns : List Ast) (w : W) :
    S.evalSteps ρ v (n :: ns) w = S.evalSteps ρ (S.evalStep ρ v n w).1 ns
    (S.evalStep ρ v n w).2 := by
  cases n <;> rfl

/-- A binding of the environment. -/
def upd (ρ : Symbol → V) (s : Symbol) (v : V) : Symbol → V := fun x => if x = s then v else ρ x

/-- The initialisers of a bind, one after the other. -/
def evalInits (ρ : Symbol → V) (bs : List (Symbol × Ast)) (w : W) : (Symbol → V) × W :=
  match bs with
  | [] => (ρ, w)
  | b :: bs =>
    let r := S.eval ρ b.2 w
    evalInits (upd ρ b.1 r.1) bs r.2

/-- A bind of temporaries around a recur: the arguments of the recur and the world. -/
def evalBind (ρ : Symbol → V) (bs : List (Symbol × Ast)) (args : List Ast) (w : W) : List V × W :=
  let r := S.evalInits ρ bs w
  S.evalList r.1 args r.2

/-- A recur. -/
def evalRecur (ρ : Symbol → V) (node : Ast) (w : W) : List V × W :=
  match node with
  | .recur args => S.evalList ρ args w
  | _ => ([], w)

/-! The value depends on the free variables only. -/

section Congr

variable {ρ ρ' : Symbol → V}

theorem evalList_congr {ns : List Ast}
    (h : ∀ n ∈ ns, (∀ s ∈ freeRefs n, ρ s = ρ' s) → ∀ w, S.eval ρ n w = S.eval ρ' n w)
    (hρ : ∀ s ∈ freeRefsList ns, ρ s = ρ' s) (w : W) : S.evalList ρ ns w = S.evalList ρ' ns w := by
  induction ns generalizing w with
  | nil => rfl
  | cons n ns ih =>
    obtain ⟨h₁, h₂⟩ := List.forall_mem_append.mp hρ
    simp only [evalList, h n List.mem_cons_self h₁,
      ih (fun m hm => h m (List.mem_cons_of_mem n hm)) h₂]

theorem evalSteps_congr {ns : List Ast}
    (h : ∀ n ∈ ns, (∀ s ∈ freeRefs n, ρ s = ρ' s) → ∀ v w, S.evalStep ρ v n w = S.evalStep ρ' v n w)
    (hρ : ∀ s ∈ freeRefsList ns, ρ s = ρ' s) (v : V) (w : W) :
    S.evalSteps ρ v ns w = S.evalSteps ρ' v ns w := by
  induction ns generalizing v w with
  | nil => rfl
  | cons n ns ih =>
    obtain ⟨h₁, h₂⟩ := List.forall_mem_append.mp hρ
    rw [evalSteps_cons, evalSteps_cons, h n List.mem_cons_self h₁]
    exact ih (fun m hm => h m (List.mem_cons_of_mem n hm)) h₂ _ _

theorem eval_congr_step (n : Ast) : (∀ s ∈ freeRefs n, ρ s = ρ' s) →
    (∀ w, S.eval ρ n w = S.eval ρ' n w) ∧ ∀ v w, S.evalStep ρ v n w = S.evalStep ρ' v n w := by
  induction n with
  | literal v => exact fun _ => ⟨fun _ => rfl, fun _ _ => rfl⟩
  | symbolRef s =>
    intro hρ
    have hs : ρ s = ρ' s := hρ s List.mem_cons_self
    simp [eval, evalStep, hs]
  | call op args hop hargs =>
    intro hρ
    obtain ⟨h₁, h₂⟩ := List.forall_mem_append.mp hρ
    have hl := S.evalList_congr (fun n hn hs => (hargs n hn hs).1) h₂
    simp only [eval, evalStep, (hop h₁).1, hl, implies_true, and_self]
  | threadFirst forms h =>
    intro hρ
    have hv : ∀ w, S.eval ρ (.threadFirst forms) w = S.eval ρ' (.threadFirst forms) w := by
      intro w
      cases forms with
      | nil => rfl
      | cons f steps =>
        obtain ⟨h₁, h₂⟩ := List.forall_mem_append.mp hρ
        have hsteps := S.evalSteps_congr (fun n hn hs => (h n (List.mem_cons_of_mem f hn) hs).2) h₂
        simp only [eval, (h f List.mem_cons_self h₁).1, hsteps]
    exact ⟨hv, fun v w => by simp only [evalStep, hv]⟩
  | _ =>
    intro hρ
    have hv := fun w => S.other_congr _ ρ ρ' w hρ
    exact ⟨hv, fun v w => by simp only [evalStep, eval, hv]⟩

theorem eval_congr {n : Ast} (hρ : ∀ s ∈ freeRefs n, ρ s = ρ' s) (w : W) :
    S.eval ρ n w = S.eval ρ' n w :=
  (S.eval_congr_step n hρ).1 w

theorem evalList_congr_free {ns : List Ast} (hρ : ∀ s ∈ freeRefsList ns, ρ s = ρ' s) (w : W) :
    S.evalList ρ ns w = S.evalList ρ' ns w :=
  S.evalList_congr (fun _ _ h w => S.eval_congr h w) hρ w

end Congr

/-! What is silent does not touch the world. -/

/-- The computation neither looks at the world nor changes it. -/
def Still {α : Type} (f : W → α × W) : Prop := ∀ w w', (f w).2 = w ∧ (f w).1 = (f w').1

theorem evalList_still {ρ : Symbol → V} {ns : List Ast} (h : ∀ n ∈ ns, Still (S.eval ρ n)) :
    Still (S.evalList ρ ns) := by
  induction ns with
  | nil => exact fun w w' => ⟨rfl, rfl⟩
  | cons n ns ih =>
    intro w w'
    obtain ⟨hw, hv⟩ := h n List.mem_cons_self w w'
    obtain ⟨hw', -⟩ := h n List.mem_cons_self w' w
    obtain ⟨hws, hvs⟩ := ih (fun m hm => h m (List.mem_cons_of_mem n hm)) w w'
    simp only [evalList, hw, hw', hv, hws, hvs, and_self]

theorem eval_silentOp {op : Ast} (h : silentOp silent op = true) (ρ : Symbol → V) :
    ∃ f, ∀ w, S.eval ρ op w = (f, w) := by
  cases op with
  | symbolRef s => exact ⟨ρ s, fun _ => rfl⟩
  | literal v => exact ⟨S.literal v, fun _ => rfl⟩
  | _ => simp [silentOp] at h

theorem silentList_iff {ns : List Ast} :
    silentList silent ns = true ↔ ∀ n ∈ ns, silentNode silent n = true := by
  induction ns with
  | nil => simp [silentList]
  | cons n ns ih => simp [silentList, ih]

theorem eval_still_step (ρ : Symbol → V) (n : Ast) :
    (silentNode silent n = true → Still (S.eval ρ n)) ∧
    (silentSteps silent [n] = true → ∀ v, Still (S.evalStep ρ v n)) := by
  induction n with
  | literal v =>
    refine ⟨fun _ w w' => ⟨rfl, rfl⟩, fun h v w w' => ?_⟩
    exact S.apply_silent _ _ _ w w' (by simpa [silentSteps] using h)
  | symbolRef s =>
    refine ⟨fun _ w w' => ⟨rfl, rfl⟩, fun h v w w' => ?_⟩
    exact S.apply_silent _ _ _ w w' (by simpa [silentSteps] using h)
  | call op args hop hargs =>
    have hcall : silentOp silent op = true → silentList silent args = true →
        ∀ v, Still (S.eval ρ (.call op args)) ∧ Still (S.evalStep ρ v (.call op args)) := by
      intro ho hl v
      obtain ⟨f, hf⟩ := S.eval_silentOp ho ρ
      have hstill := S.evalList_still fun a ha => (hargs a ha).1 (silentList_iff.mp hl a ha)
      constructor
      · intro w w'
        obtain ⟨hw, hv⟩ := hstill w w'
        obtain ⟨hw', -⟩ := hstill w' w
        simp only [eval, hf, hw, hw', hv]
        exact S.apply_silent op f _ w w' ho
      · intro w w'
        obtain ⟨hw, hv⟩ := hstill w w'
        obtain ⟨hw', -⟩ := hstill w' w
        simp only [evalStep, hf, hw, hw', hv]
        exact S.apply_silent op f _ w w' ho
    constructor
    · intro h
      rw [silentNode, Bool.and_eq_true] at h
      exact (hcall h.1 h.2 (S.literal .nil)).1
    · intro h v
      rw [silentSteps, silentSteps, Bool.and_true, Bool.and_eq_true] at h
      exact (hcall h.1 h.2 v).2
  | threadFirst forms hforms =>
    refine ⟨fun h => ?_, fun h => by simp [silentSteps, silentOp] at h⟩
    cases forms with
    | nil => exact fun w w' => ⟨rfl, rfl⟩
    | cons f steps =>
      have hsteps : ∀ ns, (∀ n ∈ ns, n ∈ steps) → silentSteps silent ns = true →
          ∀ v, Still (S.evalSteps ρ v ns) := by
        intro ns hns hs
        induction ns with
        | nil => exact fun v w w' => ⟨rfl, rfl⟩
        | cons n ns ih =>
          intro v w w'
          rw [silentSteps_cons, Bool.and_eq_true] at hs
          have hstep := (hforms n (List.mem_cons_of_mem f (hns n List.mem_cons_self))).2 hs.1 v
          obtain ⟨hw, hv⟩ := hstep w w'
          obtain ⟨hw', -⟩ := hstep w' w
          rw [evalSteps_cons, evalSteps_cons, hw, hw', hv]
          exact ih (fun m hm => hns m (List.mem_cons_of_mem n hm)) hs.2 _ w w'
      rw [silentNode, Bool.and_eq_true] at h
      intro w w'
      obtain ⟨hw, hv⟩ := (hforms f List.mem_cons_self).1 h.1 w w'
      obtain ⟨hw', -⟩ := (hforms f List.mem_cons_self).1 h.1 w' w
      simp only [eval, hw, hw', hv]
      exact hsteps steps (fun _ h => h) h.2 _ w w'
  | _ =>
    refine ⟨fun h w w' => S.other_silent _ ρ w w' h, fun h => by simp [silentSteps, silentOp] at h⟩

/-- A silent tree has one value and leaves the world as it is. -/
theorem eval_still {n : Ast} (h : silentNode silent n = true) (ρ : Symbol → V) :
    Still (S.eval ρ n) :=
  (S.eval_still_step ρ n).1 h

end Evaluator

/-! ## §4 Holes -/

section Holes

variable (silent : Symbol → Bool) (cur : Symbol)

mutual

/-- What may have an effect before the reference to `cur` is evaluated, on a way through calls and
`->` forms. The way does not go into an `if`: `chain-kind` recognises one by a reference in each
branch. -/
def ticksBefore : Ast → Option Nat
  | .symbolRef s => if s = cur then some 0 else none
  | .call op args => (ticksBeforeList args).map (ticks silent op + ·)
  | .threadFirst (f :: steps) =>
    (ticksBefore f).orElse fun _ => (ticksBeforeSteps steps).map (ticks silent f + ·)
  | _ => none

def ticksBeforeList : List Ast → Option Nat
  | [] => none
  | n :: ns => (ticksBefore n).orElse fun _ => (ticksBeforeList ns).map (ticks silent n + ·)

def ticksBeforeSteps : List Ast → Option Nat
  | [] => none
  | .call op args :: ns =>
    ((ticksBeforeList args).map (ticks silent op + ·)).orElse fun _ =>
      (ticksBeforeSteps ns).map (stepTicks silent (.call op args) + ·)
  | n :: ns => (ticksBeforeSteps ns).map (stepTicks silent n + ·)

end

end Holes

/-! A tree without a reference to the variable. -/

section Absent

theorem subset_append {α : Type} {l l' m m' : List α} (h : l ⊆ m) (h' : l' ⊆ m') :
    l ++ l' ⊆ m ++ m' :=
  List.append_subset.mpr ⟨fun _ hs => List.mem_append_left _ (h hs),
    fun _ hs => List.mem_append_right _ (h' hs)⟩

theorem freeRefsList_subset {ns : List Ast} (h : ∀ n ∈ ns, freeRefs n ⊆ symbolRefs n) :
    freeRefsList ns ⊆ symbolRefsList ns := by
  induction ns with
  | nil => exact fun _ h => h
  | cons n ns ih =>
    exact subset_append (h n List.mem_cons_self) (ih fun m hm => h m (List.mem_cons_of_mem n hm))

/-- A free variable is referred to. -/
theorem freeRefs_subset (n : Ast) : freeRefs n ⊆ symbolRefs n := by
  have hfilter : ∀ {p : Symbol → Bool} {l m : List Symbol}, l ⊆ m → l.filter p ⊆ m :=
    fun hl _ hs => hl (List.mem_of_mem_filter hs)
  have hclauses : ∀ cs : List (Params × List Ast),
    (∀ c ∈ cs, ∀ n ∈ c.2, freeRefs n ⊆ symbolRefs n) →
      freeRefsClauses cs ⊆ symbolRefsClauses cs := by
    intro cs h
    induction cs with
    | nil => exact fun _ h => h
    | cons c cs ih =>
      exact subset_append (hfilter (freeRefsList_subset (h c List.mem_cons_self)))
        (ih fun d hd => h d (List.mem_cons_of_mem c hd))
  induction n with
  | literal v => exact fun _ h => h
  | symbolRef s => exact fun _ h => h
  | quote s => exact fun _ h => h
  | call op args hop hargs => exact subset_append hop (freeRefsList_subset hargs)
  | ifNode test thn els ht hn he =>
    exact subset_append (subset_append ht hn) (freeRefsList_subset he)
  | doNode body h => exact freeRefsList_subset h
  | recur args h => exact freeRefsList_subset h
  | threadFirst forms h => exact freeRefsList_subset h
  | vector elements h => exact freeRefsList_subset h
  | set elements h => exact freeRefsList_subset h
  | fn name clauses h => exact hfilter (hclauses clauses h)
  | bind bindings body hb hn =>
    refine subset_append ?_ (hfilter (freeRefsList_subset hn))
    clear hn
    induction bindings with
    | nil => exact fun _ h => h
    | cons b bs ih =>
      exact subset_append (hb b List.mem_cons_self)
        (hfilter (ih fun d hd => hb d (List.mem_cons_of_mem b hd)))
  | loop bindings body hb hn =>
    refine subset_append ?_ (hfilter (freeRefsList_subset hn))
    clear hn
    induction bindings with
    | nil => exact fun _ h => h
    | cons b bs ih =>
      exact subset_append (hb b List.mem_cons_self)
        (ih fun d hd => hb d (List.mem_cons_of_mem b hd))
  | letfn bindings body hb hn =>
    refine hfilter (subset_append ?_ (freeRefsList_subset hn))
    clear hn
    induction bindings with
    | nil => exact fun _ h => h
    | cons b bs ih =>
      exact subset_append (hclauses b.2 (hb b List.mem_cons_self))
        (ih fun d hd => hb d (List.mem_cons_of_mem b hd))
  | case expr clauses he hc =>
    refine subset_append he ?_
    induction clauses with
    | nil => exact fun _ h => h
    | cons c cs ih =>
      exact subset_append (freeRefsList_subset (hc c List.mem_cons_self))
        (ih fun d hd => hc d (List.mem_cons_of_mem c hd))
  | cond clauses ht hc =>
    induction clauses with
    | nil => exact fun _ h => h
    | cons c cs ih =>
      exact subset_append (subset_append (ht c List.mem_cons_self)
        (freeRefsList_subset (hc c List.mem_cons_self)))
        (ih (fun d hd => ht d (List.mem_cons_of_mem c hd)) fun d hd =>
          hc d (List.mem_cons_of_mem c hd))
  | dict entries hk hv =>
    induction entries with
    | nil => exact fun _ h => h
    | cons e es ih =>
      exact subset_append (subset_append (hk e List.mem_cons_self)
        (hv e List.mem_cons_self))
        (ih (fun d hd => hk d (List.mem_cons_of_mem e hd)) fun d hd =>
          hv d (List.mem_cons_of_mem e hd))
  | other kids h =>
    induction kids with
    | nil => exact fun _ h => h
    | cons k ks ih =>
      exact subset_append (hfilter (h k List.mem_cons_self))
        (ih fun d hd => h d (List.mem_cons_of_mem k hd))

theorem inlineSubstList_of_not_mem {x : Symbol} {e : Ast} {ns : List Ast}
    (h : ∀ n ∈ ns, x ∉ symbolRefs n → inlineSubst [(x, e)] n = n) (hx : x ∉ symbolRefsList ns) :
    inlineSubstList [(x, e)] ns = ns := by
  induction ns with
  | nil => rfl
  | cons n ns ih =>
    simp only [symbolRefsList, List.mem_append, not_or] at hx
    rw [inlineSubstList, h n List.mem_cons_self hx.1,
      ih (fun m hm => h m (List.mem_cons_of_mem n hm)) hx.2]

theorem inlineSubst_of_not_mem {x : Symbol} {e n : Ast} (hx : x ∉ symbolRefs n) :
    inlineSubst [(x, e)] n = n := by
  induction n with
  | symbolRef s =>
    have hne : (x = s) = False := by simpa [symbolRefs] using hx
    simp [inlineSubst, hne]
  | call op args _ hargs =>
    simp only [symbolRefs, List.mem_append, not_or] at hx
    rw [inlineSubst, inlineSubstList_of_not_mem hargs hx.2]
  | threadFirst forms h => rw [inlineSubst, inlineSubstList_of_not_mem h hx]
  | ifNode test thn els ht hn he =>
    simp only [symbolRefs, List.mem_append, not_or] at hx
    rw [inlineSubst, ht hx.1.1, hn hx.1.2, inlineSubstList_of_not_mem he hx.2]
  | _ => rfl

theorem inlineSubstList_hole {x : Symbol} {e n : Ast} {pre post : List Ast}
    (hpre : x ∉ symbolRefsList pre) (hpost : x ∉ symbolRefsList post) :
    inlineSubstList [(x, e)] (pre ++ n :: post) = pre ++ inlineSubst [(x, e)] n :: post := by
  have happend : ∀ ns ms : List Ast, inlineSubstList [(x, e)] (ns ++ ms) =
      inlineSubstList [(x, e)] ns ++ inlineSubstList [(x, e)] ms := by
    intro ns ms
    induction ns with
    | nil => rfl
    | cons n ns ih => simp only [List.cons_append, inlineSubstList, ih]
  rw [happend, inlineSubstList, inlineSubstList_of_not_mem (fun _ _ => inlineSubst_of_not_mem) hpre,
    inlineSubstList_of_not_mem (fun _ _ => inlineSubst_of_not_mem) hpost]

end Absent

/-! The way to the hole. -/

section Spines

variable {silent : Symbol → Bool} {cur : Symbol}

/-- The only reference to `cur`, reached through arguments and `->` forms, and what may have an
effect before it. -/
inductive Spine (silent : Symbol → Bool) (cur : Symbol) : Ast → Nat → Prop where
  | here : Spine silent cur (.symbolRef cur) 0
  | arg {op n : Ast} {pre post : List Ast} {t : Nat} (hop : cur ∉ symbolRefs op)
      (hpre : cur ∉ symbolRefsList pre)
      (hpost : cur ∉ symbolRefsList post) (h : Spine silent cur n t) :
      Spine silent cur (.call op (pre ++ n :: post)) (ticks silent op + (ticksList silent pre + t))
  | first {f : Ast} {steps : List Ast} {t : Nat} (hsteps : cur ∉ symbolRefsList steps)
      (h : Spine silent cur f t) : Spine silent cur (.threadFirst (f :: steps)) t
  | step {f op n : Ast} {before pre post after : List Ast} {t : Nat} (hf : cur ∉ symbolRefs f)
      (hbefore : cur ∉ symbolRefsList before) (hop : cur ∉ symbolRefs op)
      (hpre : cur ∉ symbolRefsList pre)
      (hpost : cur ∉ symbolRefsList post) (hafter : cur ∉ symbolRefsList after)
      (h : Spine silent cur n t) :
      Spine silent cur (.threadFirst (f :: (before ++ .call op (pre ++ n :: post) :: after)))
        (ticks silent f
          + (ticksSteps silent before + (ticks silent op + (ticksList silent pre + t))))

/-- A single reference among two parts is in one of them. -/
theorem count_append_eq_one {l m : List Symbol} (hone : (l ++ m).count cur = 1) :
    l.count cur = 1 ∧ cur ∉ m ∨ cur ∉ l ∧ m.count cur = 1 := by
  rw [List.count_append] at hone
  by_cases h : cur ∈ l
  · have hpos := List.count_pos_iff.mpr h
    exact .inl ⟨by omega, List.count_eq_zero.mp (by omega)⟩
  · have hzero := List.count_eq_zero.mpr h
    exact .inr ⟨h, by omega⟩

/-- What the reference is known to be at, in one of the trees. -/
def SpineNode (silent : Symbol → Bool) (cur : Symbol) (n : Ast) : Prop :=
  ∀ t, ticksBefore silent cur n = some t →
    cur ∈ symbolRefs n ∧ (symbolRefCount n cur = 1 → Spine silent cur n t)

theorem spine_list {ns : List Ast} {t : Nat} (h : ∀ n ∈ ns, SpineNode silent cur n)
    (ht : ticksBeforeList silent cur ns = some t) : cur ∈ symbolRefsList ns ∧
      ((symbolRefsList ns).count cur = 1 → ∃ pre n post t', ns = pre ++ n :: post ∧
        cur ∉ symbolRefsList pre ∧
        cur ∉ symbolRefsList post ∧ Spine silent cur n t' ∧ t = ticksList silent pre + t') := by
  induction ns generalizing t with
  | nil => cases ht
  | cons n ns ih =>
    rw [symbolRefsList, List.mem_append]
    rw [ticksBeforeList] at ht
    cases hn : ticksBefore silent cur n with
    | some tn =>
      rw [hn] at ht
      cases ht
      obtain ⟨hmem, hspine⟩ := h n List.mem_cons_self t hn
      refine ⟨.inl hmem, fun hone => ?_⟩
      rcases count_append_eq_one hone with ⟨hc, hns⟩ | ⟨hn0, -⟩
      · exact ⟨[], n, ns, t, rfl, List.not_mem_nil, hns, hspine hc, (Nat.zero_add t).symm⟩
      · exact absurd hmem hn0
    | none =>
      rw [hn] at ht
      obtain ⟨t', ht', rfl⟩ := Option.map_eq_some_iff.mp ht
      obtain ⟨hmem, hspine⟩ := ih (fun m hm => h m (List.mem_cons_of_mem n hm)) ht'
      refine ⟨.inr hmem, fun hone => ?_⟩
      rcases count_append_eq_one hone with ⟨-, hns⟩ | ⟨hn0, hc⟩
      · exact absurd hmem hns
      · obtain ⟨pre, m, post, t'', rfl, hpre, hpost, hm, rfl⟩ := hspine hc
        refine ⟨n :: pre, m, post, t'', rfl, ?_, hpost, hm, ?_⟩
        · rw [symbolRefsList, List.mem_append]
          exact not_or.mpr ⟨hn0, hpre⟩
        · rw [ticksList]
          omega

/-- The call in which the reference is. -/
structure SpineCall (silent : Symbol → Bool) (cur : Symbol) (op : Ast) (args : List Ast) (t : Nat) :
    Prop where
  operator : cur ∉ symbolRefs op
  operands : ∃ pre n post t', args = pre ++ n :: post ∧ cur ∉ symbolRefsList pre ∧
    cur ∉ symbolRefsList post ∧
    Spine silent cur n t' ∧ t = ticks silent op + (ticksList silent pre + t')

theorem spine_call {op : Ast} {args : List Ast} {t : Nat} (h : ∀ n ∈ args, SpineNode silent cur n)
    (ht : (ticksBeforeList silent cur args).map (ticks silent op + ·) = some t) :
    cur ∈ symbolRefs (.call op args) ∧
    (symbolRefCount (.call op args) cur = 1 → SpineCall silent cur op args t) := by
  obtain ⟨t', ht', rfl⟩ := Option.map_eq_some_iff.mp ht
  obtain ⟨hmem, hspine⟩ := spine_list h ht'
  refine ⟨List.mem_append_right _ hmem, fun hone => ?_⟩
  rcases count_append_eq_one hone with ⟨-, hns⟩ | ⟨hop, hc⟩
  · exact absurd hmem hns
  · obtain ⟨pre, n, post, t'', hargs, hpre, hpost, hn, rfl⟩ := hspine hc
    exact ⟨hop, pre, n, post, t'', hargs, hpre, hpost, hn, rfl⟩

theorem spine_steps {steps : List Ast} {t : Nat}
    (h : ∀ n ∈ steps, ∀ op args, n = .call op args → ∀ a ∈ args, SpineNode silent cur a)
    (ht : ticksBeforeSteps silent cur steps = some t) : cur ∈ symbolRefsList steps ∧
      ((symbolRefsList steps).count cur = 1 → ∃ before op args after t',
        steps = before ++ .call op args :: after ∧
        cur ∉ symbolRefsList before ∧ cur ∉ symbolRefsList after ∧ SpineCall silent cur op args t' ∧
        t = ticksSteps silent before + t') := by
  induction steps generalizing t with
  | nil => cases ht
  | cons n ns ih =>
    have hrest : (ticksBeforeSteps silent cur ns).map (stepTicks silent n + ·) = some t →
        cur ∈ symbolRefsList (n :: ns) ∧
        ((symbolRefsList (n :: ns)).count cur = 1 → ∃ before op args after t',
          n :: ns = before ++ .call op args :: after ∧ cur ∉ symbolRefsList before ∧
          cur ∉ symbolRefsList after ∧
          SpineCall silent cur op args t' ∧ t = ticksSteps silent before + t') := by
      intro ht
      obtain ⟨t', ht', rfl⟩ := Option.map_eq_some_iff.mp ht
      obtain ⟨hmem, hspine⟩ := ih (fun m hm => h m (List.mem_cons_of_mem n hm)) ht'
      refine ⟨List.mem_append_right _ hmem, fun hone => ?_⟩
      rcases count_append_eq_one hone with ⟨-, hns⟩ | ⟨hn0, hc⟩
      · exact absurd hmem hns
      · obtain ⟨before, op, args, after, t'', rfl, hbefore, hafter, hcall, rfl⟩ := hspine hc
        refine ⟨n :: before, op, args, after, t'', rfl, ?_, hafter, hcall, ?_⟩
        · rw [symbolRefsList, List.mem_append]
          exact not_or.mpr ⟨hn0, hbefore⟩
        · rw [ticksSteps_cons]
          omega
    cases n with
    | call op args =>
      rw [ticksBeforeSteps] at ht
      cases hn : (ticksBeforeList silent cur args).map (ticks silent op + ·) with
      | some tn =>
        rw [hn] at ht
        cases ht
        obtain ⟨hmem, hspine⟩ := spine_call (h _ List.mem_cons_self op args rfl) hn
        refine ⟨List.mem_append_left _ hmem, fun hone => ?_⟩
        rcases count_append_eq_one hone with ⟨hc, hns⟩ | ⟨hn0, -⟩
        · exact ⟨[], op, args, ns, t, rfl, List.not_mem_nil, hns, hspine hc, (Nat.zero_add t).symm⟩
        · exact absurd hmem hn0
      | none =>
        rw [hn] at ht
        exact hrest ht
    | _ => exact hrest ht

theorem spineNode (n : Ast) : SpineNode silent cur n ∧ ∀ op args, n = .call op args →
    ∀ a ∈ args, SpineNode silent cur a := by
  induction n with
  | symbolRef s =>
    refine ⟨fun t ht => ?_, fun op args h => by cases h⟩
    rw [ticksBefore] at ht
    split at ht
    · next heq =>
      cases ht
      subst heq
      exact ⟨by simp [symbolRefs], fun _ => .here⟩
    · cases ht
  | call op args hop hargs =>
    refine ⟨fun t ht => ?_, fun op' args' h => by cases h; exact fun a ha => (hargs a ha).1⟩
    obtain ⟨hmem, hspine⟩ := spine_call (fun a ha => (hargs a ha).1) ht
    refine ⟨hmem, fun hone => ?_⟩
    obtain ⟨hop, pre, n, post, t', rfl, hpre, hpost, hn, rfl⟩ := hspine hone
    exact .arg hop hpre hpost hn
  | threadFirst forms hforms =>
    refine ⟨fun t ht => ?_, fun op args h => by cases h⟩
    cases forms with
    | nil => cases ht
    | cons f steps =>
      rw [symbolRefCount, symbolRefs, symbolRefsList, List.mem_append]
      rw [ticksBefore] at ht
      cases hf : ticksBefore silent cur f with
      | some tf =>
        rw [hf] at ht
        cases ht
        obtain ⟨hmem, hspine⟩ := (hforms f List.mem_cons_self).1 t hf
        refine ⟨.inl hmem, fun hone => ?_⟩
        rcases count_append_eq_one hone with ⟨hc, hsteps⟩ | ⟨hf0, -⟩
        · exact .first hsteps (hspine hc)
        · exact absurd hmem hf0
      | none =>
        rw [hf] at ht
        obtain ⟨t', ht', rfl⟩ := Option.map_eq_some_iff.mp ht
        obtain ⟨hmem, hspine⟩ :=
          spine_steps (fun m hm => (hforms m (List.mem_cons_of_mem f hm)).2) ht'
        refine ⟨.inr hmem, fun hone => ?_⟩
        rcases count_append_eq_one hone with ⟨-, hsteps⟩ | ⟨hf0, hc⟩
        · exact absurd hmem hsteps
        · obtain ⟨before, op, args, after, t'', rfl, hbefore, hafter, hcall, rfl⟩ := hspine hc
          obtain ⟨hop, pre, n, post, t', rfl, hpre, hpost, hn, rfl⟩ := hcall
          exact .step hf0 hbefore hop hpre hpost hafter hn
  | _ =>
    constructor
    · intro t ht
      cases ht
    · intro op args h
      cases h

theorem spine_of_ticksBefore {n : Ast} {t : Nat} (ht : ticksBefore silent cur n = some t)
    (hone : symbolRefCount n cur = 1) : Spine silent cur n t :=
  ((spineNode n).1 t ht).2 hone

end Spines

/-! The value of a tree with its hole filled. -/

namespace Evaluator

section Hole

variable {silent : Symbol → Bool} {V W : Type} (S : Evaluator silent V W) {ρ : Symbol → V}
    {cur : Symbol} {e : Ast}

theorem eval_upd {n : Ast} (h : cur ∉ symbolRefs n) (v : V) (w : W) :
    S.eval (upd ρ cur v) n w = S.eval ρ n w :=
  S.eval_congr (fun s hs => if_neg fun heq : s = cur => h (heq ▸ freeRefs_subset n hs)) w

theorem evalList_upd {ns : List Ast} (h : cur ∉ symbolRefsList ns) (v : V) (w : W) :
    S.evalList (upd ρ cur v) ns w = S.evalList ρ ns w :=
  S.evalList_congr_free (fun s hs => if_neg fun heq : s = cur =>
    h (heq ▸ freeRefsList_subset (fun n _ => freeRefs_subset n) hs)) w

theorem evalStep_upd {n : Ast} (h : cur ∉ symbolRefs n) (v x : V) (w : W) :
    S.evalStep (upd ρ cur x) v n w = S.evalStep ρ v n w :=
  (S.eval_congr_step n fun s hs => if_neg fun heq : s = cur => h (heq ▸ freeRefs_subset n hs)).2 v w

theorem evalSteps_upd {ns : List Ast} (h : cur ∉ symbolRefsList ns) (v x : V) (w : W) :
    S.evalSteps (upd ρ cur x) v ns w = S.evalSteps ρ v ns w := by
  induction ns generalizing v w with
  | nil => rfl
  | cons n ns ih =>
    simp only [symbolRefsList, List.mem_append, not_or] at h
    rw [evalSteps_cons, evalSteps_cons, S.evalStep_upd h.1, ih h.2]

theorem evalList_append (ρ : Symbol → V) (ns ms : List Ast) (w : W) : S.evalList ρ (ns ++ ms) w =
    ((S.evalList ρ ns w).1 ++ (S.evalList ρ ms (S.evalList ρ ns w).2).1,
      (S.evalList ρ ms (S.evalList ρ ns w).2).2) := by
  induction ns generalizing w with
  | nil => rfl
  | cons n ns ih => simp only [List.cons_append, evalList, ih]

theorem evalSteps_append (ρ : Symbol → V) (v : V) (ns ms : List Ast) (w : W) :
    S.evalSteps ρ v (ns ++ ms) w =
    S.evalSteps ρ (S.evalSteps ρ v ns w).1 ms (S.evalSteps ρ v ns w).2 := by
  induction ns generalizing v w with
  | nil => rfl
  | cons n ns ih => simp only [List.cons_append, evalSteps_cons, ih]

/-- The two computations may be done in either order. -/
def Commutes {α β : Type} (f : W → α × W) (g : W → β × W) : Prop :=
  ∀ w, (f w).1 = (f (g w).2).1 ∧ (g (f w).2).1 = (g w).1 ∧ (g (f w).2).2 = (f (g w).2).2

theorem commutes_of_still {α β : Type} {f : W → α × W} {g : W → β × W} (h : Still f ∨ Still g) :
    Commutes f g := by
  intro w
  rcases h with hf | hg
  · obtain ⟨hw, hv⟩ := hf w (g w).2
    obtain ⟨hw', -⟩ := hf (g w).2 w
    rw [hw, hw']
    exact ⟨hv, rfl, rfl⟩
  · obtain ⟨hw, -⟩ := hg w w
    obtain ⟨hw', hv'⟩ := hg (f w).2 w
    rw [hw, hw']
    exact ⟨rfl, hv', rfl⟩

theorem commutes_eval {n : Ast} (h : ticks silent n = 0 ∨ Still (S.eval ρ e)) :
    Commutes (S.eval ρ n) (S.eval ρ e) :=
  commutes_of_still (h.imp_left fun h0 => S.eval_still ((ticks_eq_zero n).mp h0) ρ)

theorem commutes_evalList {ns : List Ast} (h : ticksList silent ns = 0 ∨ Still (S.eval ρ e)) :
    Commutes (S.evalList ρ ns) (S.eval ρ e) := by
  refine commutes_of_still (h.imp_left fun h0 => S.evalList_still fun n hn => S.eval_still ?_ ρ)
  exact silentList_iff.mp ((ticksList_eq_zero fun a _ => ticks_eq_zero a).mp h0) n hn

theorem stepTicks_zero {n : Ast} : stepTicks silent n = 0 ↔ silentSteps silent [n] = true :=
  stepTicks_eq_zero fun _ _ _ => ticksList_eq_zero fun a _ => ticks_eq_zero a

theorem evalSteps_still {ns : List Ast} (h : ticksSteps silent ns = 0) (ρ : Symbol → V) (v : V) :
    Still (S.evalSteps ρ v ns) := by
  induction ns generalizing v with
  | nil => exact fun w w' => ⟨rfl, rfl⟩
  | cons n ns ih =>
    intro w w'
    rw [ticksSteps_cons, Nat.add_eq_zero_iff, stepTicks_zero] at h
    obtain ⟨hw, hv⟩ := (S.eval_still_step ρ n).2 h.1 v w w'
    obtain ⟨hw', -⟩ := (S.eval_still_step ρ n).2 h.1 v w' w
    rw [evalSteps_cons, evalSteps_cons, hw, hw', hv]
    exact ih h.2 _ w w'

theorem commutes_evalSteps {ns : List Ast} (h : ticksSteps silent ns = 0 ∨ Still (S.eval ρ e))
    (v : V) :
    Commutes (S.evalSteps ρ v ns) (S.eval ρ e) :=
  commutes_of_still (h.imp_left fun h0 => S.evalSteps_still h0 ρ v)

/-- What the filled hole is evaluated to, with the filling as a computation that goes first. -/
def Filled {α : Type} (ρ : Symbol → V) (cur : Symbol) (e : Ast) (filled : W → α × W)
    (hole : (Symbol → V) → W → α × W) : Prop :=
  ∀ w, filled w = hole (upd ρ cur (S.eval ρ e w).1) (S.eval ρ e w).2

/-- The operator and the arguments of a call. -/
def evalCall (ρ : Symbol → V) (op : Ast) (args : List Ast) (w : W) : (V × List V) × W :=
  (((S.eval ρ op w).1, (S.evalList ρ args (S.eval ρ op w).2).1),
    (S.evalList ρ args (S.eval ρ op w).2).2)

theorem eval_call (ρ : Symbol → V) (op : Ast) (args : List Ast) (w : W) :
    S.eval ρ (.call op args) w =
    S.apply op (S.evalCall ρ op args w).1.1 (S.evalCall ρ op args w).1.2
    (S.evalCall ρ op args w).2 := rfl

theorem evalStep_call (ρ : Symbol → V) (v : V) (op : Ast) (args : List Ast) (w : W) :
    S.evalStep ρ v (.call op args) w =
      S.apply op (S.evalCall ρ op args w).1.1 (v :: (S.evalCall ρ op args w).1.2)
      (S.evalCall ρ op args w).2 := rfl

theorem filled_call {op n : Ast} {pre post : List Ast} {t : Nat} (hop : cur ∉ symbolRefs op)
    (hpre : cur ∉ symbolRefsList pre) (hpost : cur ∉ symbolRefsList post)
    (ht : ticks silent op + (ticksList silent pre + t) = 0 ∨ Still (S.eval ρ e))
    (h : S.Filled ρ cur e (S.eval ρ (inlineSubst [(cur, e)] n)) (S.eval · n)) :
    S.Filled ρ cur e (S.evalCall ρ op (pre ++ inlineSubst [(cur, e)] n :: post))
      (S.evalCall · op (pre ++ n :: post)) := by
  intro w
  have hop' : Commutes (S.eval ρ op) (S.eval ρ e) :=
    S.commutes_eval (ht.imp_left fun h0 => by omega)
  have hpre' : Commutes (S.evalList ρ pre) (S.eval ρ e) :=
    S.commutes_evalList (ht.imp_left fun h0 => by omega)
  obtain ⟨h₁, h₂, h₃⟩ := hop' w
  obtain ⟨h₄, h₅, h₆⟩ := hpre' (S.eval ρ op w).2
  simp only [evalCall, evalList_append, evalList, S.eval_upd hop, S.evalList_upd hpre,
    S.evalList_upd hpost, h _, h₁, h₂, h₃, h₄, h₅, h₆]

/-- The hole may be filled by an expression or by its value, if nothing before the hole has an
effect or the expression has none. -/
theorem eval_inlineSubst {n : Ast} {t : Nat} (hn : Spine silent cur n t)
    (ht : t = 0 ∨ Still (S.eval ρ e)) :
    S.Filled ρ cur e (S.eval ρ (inlineSubst [(cur, e)] n)) (S.eval · n) := by
  induction hn with
  | here =>
    intro w
    simp [inlineSubst, eval, upd]
  | @arg op n pre post t hop hpre hpost _ ih =>
    intro w
    have hcall := S.filled_call hop hpre hpost ht (ih (ht.imp_left fun h0 => by omega)) w
    simp only [inlineSubst, inlineSubstList_hole hpre hpost, eval_call, hcall]
  | @first f steps t hsteps _ ih =>
    intro w
    simp only [inlineSubst, inlineSubstList,
      inlineSubstList_of_not_mem (fun _ _ => inlineSubst_of_not_mem) hsteps,
      eval, ih ht w, S.evalSteps_upd hsteps]
  | @step f op n before pre post after t hf hbefore hop hpre hpost hafter _ ih =>
    intro w
    have ht' : ticks silent op + (ticksList silent pre + t) = 0 ∨ Still (S.eval ρ e) :=
      ht.imp_left fun h0 => by omega
    have hcall := S.filled_call hop hpre hpost ht' (ih (ht.imp_left fun h0 => by omega))
    have hf' : Commutes (S.eval ρ f) (S.eval ρ e) :=
      S.commutes_eval (ht.imp_left fun h0 => by omega)
    have hbefore' : ∀ v, Commutes (S.evalSteps ρ v before) (S.eval ρ e) :=
      S.commutes_evalSteps (ht.imp_left fun h0 => by omega)
    obtain ⟨h₁, h₂, h₃⟩ := hf' w
    obtain ⟨h₄, h₅, h₆⟩ := hbefore' (S.eval ρ f (S.eval ρ e w).2).1 (S.eval ρ f w).2
    simp only [inlineSubst, inlineSubstList, inlineSubst_of_not_mem hf,
      inlineSubstList_hole hbefore hafter, inlineSubstList_hole hpre hpost, eval, evalSteps_append,
      evalSteps_cons, evalStep_call, S.eval_upd hf,
      S.evalSteps_upd hbefore, S.evalSteps_upd hafter, hcall _, h₁, h₂, h₃, h₄, h₅, h₆]

end Hole

end Evaluator

end Fol.Escape
