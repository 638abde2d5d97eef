/-
Fol.Emit.Resolution — which occurrences the emitted code resolves as the source does.

The tables and the scope say the same of every context (`within_matches`): a name is in
`*lexical-vars*` when a variable of that name is bound around, or a loop has put it there
ahead of its binding, and in `*letfn-fns*` when a function of a `letfn` is. By these facts
the condition for an occurrence is about its binder, the binders between, and the
definitions of the image, and the two directions are a case analysis over the kind of the
binder and the position.

  §1 Conditions — `VariableUse`, `FunctionUse`, `GlobalUse`.
  §2 Lookups    — what CL's two lookups reach.
  §3 Tables     — `Matches`.
  §4 Programs   — `names_resolve_iff`.
-/
import Fol.Emit.Names

namespace Fol.Names

open Fol.Escape

/-! ## §1 Conditions -/

/-- The innermost binder of the source. -/
def sourceBinder (s : Symbol) (scope : Scope) : Option Entry := scope.find? (·.binds s)

/-- The entries between an occurrence and its binder. -/
def between (s : Symbol) (scope : Scope) : Scope := scope.takeWhile fun e => !e.binds s

/-- CL reaches the variable: no variable of the emitter has taken its name in between, no
lambda has declared it special, and no lambda is in between if its own binding is. -/
structure Visible (s : Symbol) (special : Bool) (inner : Scope) : Prop where
  ungenerated : ∀ e ∈ inner, e.isVariable s = false
  undeclared : ∀ e ∈ inner, e.declares s = false
  uncrossed : special = true → ∀ e ∈ inner, e.isLambda = false

/-- The emitter takes the name for a local variable. -/
def Context.TakenForVariable (c : Context) (s : Symbol) : Prop :=
  s ∈ c.pending ∨ ∃ e ∈ c.scope, e.isVariable s = true

/-- A function of a `letfn` around has the name. -/
def Context.UnderLetfn (c : Context) (s : Symbol) : Prop := ∃ e ∈ c.scope, e.isLetfn s = true

/-- The innermost binder is a variable: no `letfn` function may bear its name where it is
called, nor any global function where it is a threading step. -/
def VariableUse (m : Moment) (c : Context) (s : Symbol) (special : Bool) : Position → Prop
  | .reference => Visible s special (between s c.scope)
  | .operator _ => ¬ c.UnderLetfn s ∧ Visible s special (between s c.scope)
  | .step => m.fbound s = false ∧ Visible s special (between s c.scope)

/-- The symbol is emitted under `cl:function`. -/
def EmittedFunction (S : Setting) (w : World) (c : Context) (s : Symbol) : Prop :=
  ¬ c.TakenForVariable s ∧ S.constant s = false ∧ known S w s = true

/-- The innermost binder is a function: no variable of its name may be around, and a global
function of its name must exist, but for the call of a `letfn` function. -/
def FunctionUse (S : Setting) (w : World) (m : Moment) (c : Context) (s : Symbol) : Position → Prop
  | .reference => EmittedFunction S w c s
  | .operator args => c.UnderLetfn s ∨ (¬ c.TakenForVariable s ∧
      (globalOperator S w s args = .call s ∨
        (globalOperator S w s args = .checked ∧ m.fbound s = true)))
  | .step => m.fbound s = true

/-- The name is that of a global function. -/
def GlobalFunctionUse (S : Setting) (w : World) (c : Context) (s : Symbol) : Position → Prop
  | .reference => EmittedFunction S w c s
  | .operator args => ¬ c.TakenForVariable s ∧
      (globalOperator S w s args = .call s ∨ globalOperator S w s args = .checked)
  | .step => True

/-- CL reaches the global variable: no call in progress has bound it, and no variable of the
emitter has taken its name. -/
def GlobalVisible (m : Moment) (c : Context) (s : Symbol) : Prop :=
  s ∉ m.dynamic ∧ ∀ e ∈ c.scope.takeWhile fun e => !e.declares s, e.isVariable s = false

/-- The name is that of a global variable, and no global function may have it. -/
def GlobalVariableUse (S : Setting) (w : World) (m : Moment) (c : Context) (s : Symbol) :
    Position → Prop
  | .reference => ¬ EmittedFunction S w c s ∧ GlobalVisible m c s
  | .operator args =>
    (c.TakenForVariable s ∨ (globalOperator S w s args = .checked ∧ m.fbound s = false)) ∧
      GlobalVisible m c s
  | .step => m.fbound s = false ∧ GlobalVisible m c s

def GlobalUse (S : Setting) (w : World) (m : Moment) (c : Context) (s : Symbol)
    (position : Position) :
    Option GlobalKind → Prop
  | none => True
  | some .function => GlobalFunctionUse S w c s position
  | some .variable => GlobalVariableUse S w m c s position

/-- The condition on an occurrence, by the kind of its binder. -/
def Occurrence.Sound (S : Setting) (w : World) (m : Moment) (o : Occurrence) : Prop :=
  match sourceBinder o.name o.context.scope with
  | some (.variable _ _ special) => VariableUse m o.context o.name special o.position
  | some _ => FunctionUse S w m o.context o.name o.position
  | none => GlobalUse S w m o.context o.name o.position (m.definition o.name)

/-! ## §2 Lookups -/

section

variable {s : Symbol} {scope : Scope} {d : Nat}

theorem folBinder_lt (h : folBinder s scope = some d) : d < scope.length := by
  induction scope with
  | nil => cases h
  | cons e es ih =>
    unfold folBinder at h
    split at h
    · cases h
      exact Nat.lt_succ_self _
    · exact Nat.lt_succ_of_lt (ih h)

theorem folBinder_eq_none (h : sourceBinder s scope = none) : folBinder s scope = none := by
  induction scope with
  | nil => rfl
  | cons e es ih =>
    rw [sourceBinder, List.find?_cons] at h
    unfold folBinder
    cases he : e.binds s with
    | true => simp [he] at h
    | false =>
      rw [he] at h
      exact ih h

theorem folBinder_isSome {e : Entry} (h : sourceBinder s scope = some e) :
    ∃ d, folBinder s scope = some d := by
  induction scope with
  | nil => cases h
  | cons e' es ih =>
    rw [sourceBinder, List.find?_cons] at h
    unfold folBinder
    cases he : e'.binds s with
    | true => exact ⟨_, rfl⟩
    | false =>
      rw [he] at h
      exact ih h

theorem specialValue_ne_binder (dynamic : List Symbol) (s : Symbol) (d : Nat) :
    specialValue dynamic s ≠ .binder d := by
  unfold specialValue
  split <;> nofun

theorem clFunction_lt {g : Symbol} (h : clFunction g scope = .binder d) : d < scope.length := by
  induction scope with
  | nil => cases h
  | cons e es ih =>
    cases e with
    | function name letfn =>
      unfold clFunction at h
      split at h
      · cases h
        exact Nat.lt_succ_self _
      · exact Nat.lt_succ_of_lt (ih h)
    | _ => exact Nat.lt_succ_of_lt (ih h)

theorem clVariable_lt {dynamic : List Symbol} : ∀ {crossed : Bool},
    clVariable dynamic s crossed scope = .binder d → d < scope.length := by
  induction scope with
  | nil =>
    intro crossed h
    exact absurd h (specialValue_ne_binder _ _ _)
  | cons e es ih =>
    intro crossed h
    cases e with
    | «variable» name written special =>
      unfold clVariable at h
      split at h
      · split at h <;> cases h
        exact Nat.lt_succ_self _
      · exact Nat.lt_succ_of_lt (ih h)
    | function name letfn => exact Nat.lt_succ_of_lt (ih h)
    | lambda specials =>
      unfold clVariable at h
      split at h
      · exact absurd h (specialValue_ne_binder _ _ _)
      · exact Nat.lt_succ_of_lt (ih h)

/-- Only a function of its own name is what a function name means. -/
theorem clFunction_eq_binder {g : Symbol} {e : Entry} (hs : sourceBinder s scope = some e)
    (hd : folBinder s scope = some d) (h : clFunction g scope = .binder d) :
    g = s ∧ ∃ letfn, e = .function s letfn := by
  induction scope with
  | nil => cases hd
  | cons e' es ih =>
    rw [sourceBinder, List.find?_cons] at hs
    unfold folBinder at hd
    cases he : e'.binds s with
    | true =>
      rw [he] at hs hd
      cases hs
      cases hd
      cases e with
      | function name letfn =>
        unfold clFunction at h
        have hname : name = s := by simpa [Entry.binds] using he
        split at h
        next heq => exact ⟨heq.symm.trans hname, letfn, by rw [hname]⟩
        next => exact absurd (clFunction_lt h) (Nat.lt_irrefl _)
      | _ =>
        have h : clFunction g es = .binder es.length := h
        exact absurd (clFunction_lt h) (Nat.lt_irrefl _)
    | false =>
      rw [he] at hs hd
      refine ih hs hd ?_
      cases e' with
      | function name letfn =>
        unfold clFunction at h
        split at h
        · cases h
          exact absurd (folBinder_lt hd) (Nat.lt_irrefl _)
        · exact h
      | _ => exact h

/-- Nor is a variable what a function is bound to. -/
theorem clVariable_ne_function {name : Symbol} {letfn : Bool} {dynamic : List Symbol}
    (hs : sourceBinder s scope = some (.function name letfn)) (hd : folBinder s scope = some d) :
    ∀ crossed, clVariable dynamic s crossed scope ≠ .binder d := by
  induction scope with
  | nil => cases hd
  | cons e' es ih =>
    intro crossed h
    rw [sourceBinder, List.find?_cons] at hs
    unfold folBinder at hd
    cases he : e'.binds s with
    | true =>
      rw [he] at hs hd
      cases hs
      cases hd
      have h : clVariable dynamic s crossed es = .binder es.length := h
      exact absurd (clVariable_lt h) (Nat.lt_irrefl _)
    | false =>
      rw [he] at hs hd
      cases e' with
      | «variable» x written special =>
        unfold clVariable at h
        split at h
        · split at h <;> cases h
          exact absurd (folBinder_lt hd) (Nat.lt_irrefl _)
        · exact ih hs hd _ h
      | function x _ => exact ih hs hd _ h
      | lambda specials =>
        unfold clVariable at h
        split at h
        · exact absurd h (specialValue_ne_binder _ _ _)
        · exact ih hs hd _ h

theorem clFunction_function {name : Symbol} {letfn : Bool}
    (hs : sourceBinder s scope = some (.function name letfn)) (hd : folBinder s scope = some d) :
    clFunction s scope = .binder d := by
  induction scope with
  | nil => cases hd
  | cons e' es ih =>
    rw [sourceBinder, List.find?_cons] at hs
    unfold folBinder at hd
    cases he : e'.binds s with
    | true =>
      rw [he] at hs hd
      cases hs
      cases hd
      exact if_pos (by simpa [Entry.binds] using he)
    | false =>
      rw [he] at hs hd
      cases e' with
      | function x _ =>
        have hx : x ≠ s := by simpa [Entry.binds] using he
        exact (if_neg hx).trans (ih hs hd)
      | _ => exact ih hs hd

theorem visible_nil (s : Symbol) (special : Bool) : Visible s special [] :=
  ⟨fun _ h => absurd h List.not_mem_nil, fun _ h => absurd h List.not_mem_nil,
    fun _ _ h => absurd h List.not_mem_nil⟩

theorem visible_cons {special : Bool} {e : Entry} {es : Scope} : Visible s special (e :: es) ↔
    e.isVariable s = false ∧ e.declares s = false ∧ (special = true → e.isLambda = false) ∧
      Visible s special es := by
  constructor
  · intro h
    obtain ⟨hvar, hvars⟩ := List.forall_mem_cons.mp h.ungenerated
    obtain ⟨hdecl, hdecls⟩ := List.forall_mem_cons.mp h.undeclared
    exact ⟨hvar, hdecl, fun hsp => h.uncrossed hsp _ List.mem_cons_self, hvars, hdecls,
      fun hsp => (List.forall_mem_cons.mp (h.uncrossed hsp)).2⟩
  · rintro ⟨hvar, hdecl, hlambda, h⟩
    exact ⟨List.forall_mem_cons.mpr ⟨hvar, h.ungenerated⟩,
      List.forall_mem_cons.mpr ⟨hdecl, h.undeclared⟩,
      fun hsp => List.forall_mem_cons.mpr ⟨hlambda hsp, h.uncrossed hsp⟩⟩

/-- The variable CL reaches is the binder when it is visible. -/
theorem clVariable_variable {name : Symbol} {written special : Bool} {dynamic : List Symbol}
    (hs : sourceBinder s scope = some (.variable name written special))
    (hd : folBinder s scope = some d) :
    ∀ crossed, clVariable dynamic s crossed scope = .binder d ↔
      Visible s special (between s scope) ∧ (special = true → crossed = false) := by
  induction scope with
  | nil => cases hd
  | cons e' es ih =>
    intro crossed
    rw [sourceBinder, List.find?_cons] at hs
    unfold folBinder at hd
    cases he : e'.binds s with
    | true =>
      rw [he] at hs hd
      cases hs
      cases hd
      have hname : name = s := by
        rw [Entry.binds, Bool.and_eq_true, decide_eq_true_eq] at he
        exact he.1
      have hempty : between s (.variable name written special :: es) = [] := by
        rw [between, List.takeWhile_cons, he]
        rfl
      rw [hempty, clVariable, if_pos hname]
      cases special <;> cases crossed <;> simp [visible_nil]
    | false =>
      rw [he] at hs hd
      have hbetween : between s (e' :: es) = e' :: between s es := by
        rw [between, List.takeWhile_cons, he]
        rfl
      rw [hbetween, visible_cons]
      cases e' with
      | «variable» x w sp =>
        unfold clVariable
        split
        next hx =>
          -- a variable of the emitter, or the same name bound again
          refine iff_of_false ?_ fun h => by simp [Entry.isVariable, hx] at h
          split
          · nofun
          · intro h
            cases h
            exact Nat.lt_irrefl _ (folBinder_lt hd)
        next hx =>
          rw [ih hs hd]
          simp [Entry.isVariable, Entry.declares, Entry.isLambda, hx]
      | function x l =>
        rw [clVariable, ih hs hd]
        simp [Entry.isVariable, Entry.declares, Entry.isLambda]
      | lambda specials =>
        unfold clVariable
        split
        next hmem =>
          exact iff_of_false (specialValue_ne_binder _ _ _)
            fun h => by simp [Entry.declares, hmem] at h
        next hmem =>
          -- beyond the lambda only a lexical binding is reached
          rw [ih hs hd]
          cases special <;> simp [Entry.isVariable, Entry.declares, Entry.isLambda, hmem]

/-- Without a binder a function name means the global function. -/
theorem clFunction_global (h : sourceBinder s scope = none) :
    clFunction s scope = .global .function s := by
  induction scope with
  | nil => rfl
  | cons e es ih =>
    rw [sourceBinder, List.find?_eq_none, List.forall_mem_cons] at h
    have hes : sourceBinder s es = none := List.find?_eq_none.mpr h.2
    cases e with
    | function x _ => exact (if_neg (by simpa [Entry.binds] using h.1)).trans (ih hes)
    | _ => exact ih hes

theorem clFunction_eq_global {g : Symbol} {kind : GlobalKind}
    (h : clFunction g scope = .global kind s) : g = s ∧ kind = .function := by
  induction scope with
  | nil =>
    cases h
    exact ⟨rfl, rfl⟩
  | cons e es ih =>
    cases e with
    | function x _ =>
      unfold clFunction at h
      split at h
      · cases h
      · exact ih h
    | _ => exact ih h

/-- Without a binder CL reaches the global variable unless the emitter has a variable of its
name in scope. -/
theorem clVariable_global {kind : GlobalKind} {dynamic : List Symbol} : ∀ crossed,
    clVariable dynamic s crossed scope = .global kind s ↔ kind = .variable ∧ s ∉ dynamic ∧
      ∀ e ∈ scope.takeWhile fun e => !e.declares s, e.isVariable s = false := by
  have hvalue : specialValue dynamic s = .global kind s ↔ kind = .variable ∧ s ∉ dynamic := by
    unfold specialValue
    split <;> simp_all [eq_comm]
  induction scope with
  | nil =>
    intro crossed
    simpa [clVariable] using hvalue
  | cons e es ih =>
    intro crossed
    cases e with
    | «variable» x written special =>
      unfold clVariable
      split
      next hx =>
        refine iff_of_false (by split <;> nofun) fun h => ?_
        have := h.2.2 (.variable x written special) (by simp [Entry.declares])
        simp [Entry.isVariable, hx] at this
      next hx =>
        rw [ih]
        simp [Entry.declares, Entry.isVariable, hx]
    | function x _ =>
      rw [clVariable, ih]
      simp [Entry.declares, Entry.isVariable]
    | lambda specials =>
      unfold clVariable
      split
      next hmem => simpa [Entry.declares, hmem] using hvalue
      next hmem =>
        rw [ih]
        simp [Entry.declares, Entry.isVariable, hmem]

end

/-! ## §3 Tables -/

section

variable {s : Symbol} (names : List Symbol) (written : Bool) (special : Symbol → Bool)
    (scope : Scope)

theorem exists_isVariable_variables :
    (∃ e ∈ names.map (fun x => .variable x written (special x)) ++ scope, e.isVariable s = true) ↔
      s ∈ names ∨ ∃ e ∈ scope, e.isVariable s = true := by
  simp [or_and_right, exists_or, Entry.isVariable]

theorem exists_isLetfn_variables :
    (∃ e ∈ names.map (fun x => .variable x written (special x)) ++ scope, e.isLetfn s = true) ↔
      ∃ e ∈ scope, e.isLetfn s = true := by
  simp [or_and_right, exists_or, Entry.isLetfn]

theorem exists_isVariable_functions :
    (∃ e ∈ names.map (fun x => .function x true) ++ scope, e.isVariable s = true) ↔
      ∃ e ∈ scope, e.isVariable s = true := by
  simp [or_and_right, exists_or, Entry.isVariable]

theorem exists_isLetfn_functions :
    (∃ e ∈ names.map (fun x => .function x true) ++ scope, e.isLetfn s = true) ↔
      s ∈ names ∨ ∃ e ∈ scope, e.isLetfn s = true := by
  simp [or_and_right, exists_or, Entry.isLetfn]

end

/-- The tables say of the names what the scope says. -/
structure Matches (c : Context) : Prop where
  lexical : ∀ s, s ∈ c.tables.lexicalVars ↔ c.TakenForVariable s
  letfn : ∀ s, s ∈ c.tables.letfnFns ↔ c.UnderLetfn s

namespace Matches

theorem empty : Matches .empty where
  lexical s := by simp [Context.empty, Context.TakenForVariable]
  letfn s := by simp [Context.empty, Context.UnderLetfn]

variable {c : Context}

theorem lets (h : Matches c) (w : World) (names : List Symbol) : Matches (c.lets w names) where
  lexical s := by
    rw [Context.TakenForVariable, Context.lets, exists_isVariable_variables, List.mem_append,
      h.lexical, Context.TakenForVariable, or_left_comm]
  letfn s := by
    rw [Context.UnderLetfn, Context.lets, exists_isLetfn_variables]
    exact h.letfn s

theorem params (h : Matches c) (w : World) (written : Bool) (specials names : List Symbol) :
    Matches (c.params w written specials names) where
  lexical s := by
    rw [Context.TakenForVariable, Context.params, exists_isVariable_variables, List.mem_append,
      h.lexical, Context.TakenForVariable, or_left_comm]
    simp [Entry.isVariable]
  letfn s := by
    rw [Context.UnderLetfn, Context.params, exists_isLetfn_variables]
    simpa [Entry.isLetfn, Context.UnderLetfn] using h.letfn s

theorem named (h : Matches c) (name : Option Symbol) : Matches (c.named name) := by
  cases name with
  | none => exact h
  | some f =>
    constructor
    · intro s
      simpa [Context.named, Context.TakenForVariable, Entry.isVariable] using h.lexical s
    · intro s
      simpa [Context.named, Context.UnderLetfn, Entry.isLetfn] using h.letfn s

theorem underLetfn (h : Matches c) (names : List Symbol) : Matches (c.letfn names) where
  lexical s := by
    rw [Context.TakenForVariable, Context.letfn, exists_isVariable_functions]
    exact h.lexical s
  letfn s := by
    rw [Context.UnderLetfn, Context.letfn, exists_isLetfn_functions, List.mem_append, h.letfn,
      Context.UnderLetfn]

theorem inits (h : Matches c) (result : Symbol) (names : List Symbol) :
    Matches (c.inits result names) where
  lexical s := by
    simp only [Context.inits, Context.TakenForVariable, List.mem_append, List.mem_cons, h.lexical,
      or_assoc]
  letfn s := h.letfn s

theorem body (h : Matches c) (w : World) (result : Symbol) (names : List Symbol) :
    Matches (c.body w result names) where
  lexical s := by
    rw [Context.TakenForVariable, Context.body, exists_isVariable_variables, List.mem_append,
      List.mem_cons, List.mem_cons, h.lexical, Context.TakenForVariable]
    tauto
  letfn s := by
    rw [Context.UnderLetfn, Context.body, exists_isLetfn_variables]
    exact h.letfn s

end Matches

section

variable {S : Setting} {w : World} {c c' : Context} {n n' : Ast}

theorem clauseParts_matches (hc : Matches c) {clauses : List (Params × List Ast)}
    (h : (c', n') ∈ clauseParts S w c clauses) : Matches c' := by
  unfold clauseParts at h
  split at h
  · obtain ⟨_, -, heq⟩ := List.mem_map.mp h
    cases heq
    exact hc.params w true _ _
  · obtain ⟨_, -, h⟩ := List.mem_flatMap.mp h
    obtain ⟨_, -, heq⟩ := List.mem_map.mp h
    cases heq
    exact (hc.params w false _ _).lets w _

theorem bindParts_matches {body : List Ast} {bindings : List (Pattern × Ast)} :
    ∀ {c : Context}, Matches c → (c', n') ∈ bindParts w c body bindings → Matches c' := by
  induction bindings with
  | nil =>
    intro c hc h
    obtain ⟨_, -, heq⟩ := List.mem_map.mp h
    cases heq
    exact hc
  | cons b bs ih =>
    intro c hc h
    rcases List.mem_cons.mp h with heq | h
    · cases heq
      exact hc
    · exact ih (hc.lets w _) h

/-- Nodes in the same context as their parent. -/
theorem matches_of_mem_map {ns : List Ast} (hc : Matches c) (h : (c', n') ∈ ns.map (c, ·)) :
    Matches c' := by
  obtain ⟨_, -, heq⟩ := List.mem_map.mp h
  cases heq
  exact hc

theorem parts_matches (hc : Matches c) (h : (c', n') ∈ parts S w c n) : Matches c' := by
  cases n with
  | literal _ | symbolRef _ | quote _ => exact absurd h List.not_mem_nil
  | call op args =>
    cases op with
    | symbolRef s => exact matches_of_mem_map hc h
    | _ =>
      rcases List.mem_cons.mp h with heq | h
      · cases heq
        exact hc
      · exact matches_of_mem_map hc h
  | ifNode _ _ _ | doNode _ | recur _ | threadFirst _ | vector _ | set _ =>
    exact matches_of_mem_map hc h
  | bind bindings body => exact bindParts_matches hc h
  | letfn bindings body =>
    rcases List.mem_append.mp h with h | h
    · obtain ⟨_, -, h⟩ := List.mem_flatMap.mp h
      exact clauseParts_matches (hc.underLetfn _) h
    · exact matches_of_mem_map (hc.underLetfn _) h
  | fn name clauses => exact clauseParts_matches (hc.named name) h
  | loop bindings body =>
    rcases List.mem_append.mp h with h | h
    · obtain ⟨_, -, heq⟩ := List.mem_map.mp h
      cases heq
      exact hc.inits _ _
    · exact matches_of_mem_map (hc.body w _ _) h
  | case expr clauses =>
    rcases List.mem_cons.mp h with heq | h
    · cases heq
      exact hc
    · exact matches_of_mem_map hc h
  | cond clauses =>
    obtain ⟨_, -, h⟩ := List.mem_flatMap.mp h
    rcases List.mem_cons.mp h with heq | h
    · cases heq
      exact hc
    · exact matches_of_mem_map hc h
  | dict entries =>
    obtain ⟨_, -, h⟩ := List.mem_flatMap.mp h
    simp only [List.mem_cons, List.not_mem_nil, or_false] at h
    rcases h with heq | heq <;> cases heq <;> exact hc
  | other kids =>
    obtain ⟨_, -, heq⟩ := List.mem_map.mp h
    cases heq
    exact hc.lets w _

theorem within_matches (hc : Matches c) (h : Within S w c n c' n') : Matches c' := by
  induction h with
  | refl => exact hc
  | part _ hpart ih => exact parts_matches ih hpart

theorem sites_matches (hc : Matches c) {o : Occurrence} (h : o ∈ sites w c n) :
    Matches o.context := by
  cases n with
  | symbolRef s =>
    cases List.mem_singleton.mp h
    exact hc
  | call op args =>
    cases op with
    | symbolRef s =>
      cases List.mem_singleton.mp h
      exact hc
    | _ => exact absurd h List.not_mem_nil
  | threadFirst forms =>
    obtain ⟨_, -, rfl⟩ := List.mem_map.mp h
    exact hc
  | other kids =>
    obtain ⟨_, -, h⟩ := List.mem_flatMap.mp h
    obtain ⟨_, -, rfl⟩ := List.mem_map.mp h
    exact hc.lets w _
  | _ => exact absurd h List.not_mem_nil

theorem roots_matches {form : TopForm} (h : (c, n) ∈ form.roots S w) : Matches c := by
  cases form with
  | defVar name value =>
    obtain ⟨_, -, heq⟩ := List.mem_map.mp h
    cases heq
    exact .empty
  | defn name clauses => exact clauseParts_matches .empty h
  | expression node =>
    cases List.mem_singleton.mp h
    exact .empty

theorem occurs_matches {form : TopForm} {o : Occurrence} (h : Occurs S w form o) :
    Matches o.context := by
  obtain ⟨root, hroot, c, n, hwithin, hsite⟩ := h
  exact sites_matches (within_matches (roots_matches hroot) hwithin) hsite

end

/-! ## §4 Programs -/

section

variable {S : Setting} {w : World} {m : Moment} {c : Context} {s : Symbol} {d : Nat}

/-- With a variable for its innermost binder a name is taken for a variable. -/
theorem takenForVariable {name : Symbol} {written special : Bool}
    (h : sourceBinder s c.scope = some (.variable name written special)) :
    c.TakenForVariable s := by
  have hbinds := List.find?_some h
  rw [Entry.binds, Bool.and_eq_true] at hbinds
  exact .inr ⟨_, List.mem_of_find?_eq_some h, hbinds.1⟩

theorem not_underLetfn (h : sourceBinder s c.scope = none) : ¬ c.UnderLetfn s := by
  rintro ⟨e, he, hletfn⟩
  have hbinds := List.find?_eq_none.mp h e he
  cases e with
  | function name letfn =>
    rw [Entry.isLetfn, Bool.and_eq_true] at hletfn
    exact hbinds hletfn.1
  | _ => cases hletfn

theorem emitSymbolRef_function (hc : Matches c) :
    emitSymbolRef S w c.tables s = .function ↔ EmittedFunction S w c s := by
  rw [EmittedFunction, ← hc.lexical, emitSymbolRef]
  split_ifs <;> simp_all

theorem emitSymbolRef_bare (hc : Matches c) :
    emitSymbolRef S w c.tables s = .bare ↔ ¬ EmittedFunction S w c s := by
  rw [← emitSymbolRef_function hc]
  cases emitSymbolRef S w c.tables s <;> simp

theorem resolveChecked_binder {name : Symbol} {letfn : Bool}
    (hs : sourceBinder s c.scope = some (.function name letfn))
    (hd : folBinder s c.scope = some d) :
    resolveChecked m c.scope s = .binder d ↔ m.fbound s = true := by
  unfold resolveChecked
  split
  next h => exact iff_of_true (clFunction_function hs hd) h
  next h => exact iff_of_false (clVariable_ne_function hs hd _) h

/-- An occurrence whose binder is a variable. -/
theorem resolve_variable (hc : Matches c) {name : Symbol} {written special : Bool}
    (hs : sourceBinder s c.scope = some (.variable name written special))
    (hd : folBinder s c.scope = some d) (position : Position) :
    resolve S w m c.tables c.scope s position = .binder d ↔ VariableUse m c s special position := by
  have hvar : clVariable m.dynamic s false c.scope = .binder d ↔
    Visible s special (between s c.scope) := by
    rw [clVariable_variable hs hd]
    simp
  have hfun : ∀ g, clFunction g c.scope ≠ .binder d := by
    intro g hg
    obtain ⟨-, _, he⟩ := clFunction_eq_binder hs hd hg
    cases he
  have htaken := takenForVariable hs
  cases position with
  | reference =>
    have hbare : emitSymbolRef S w c.tables s = .bare :=
      (emitSymbolRef_bare hc).mpr fun h => h.1 htaken
    rw [resolve, hbare]
    exact hvar
  | operator args =>
    rw [resolve, emitOperator, VariableUse]
    by_cases hletfn : s ∈ c.tables.letfnFns
    · rw [if_pos hletfn]
      exact iff_of_false (hfun s) fun h => h.1 ((hc.letfn s).mp hletfn)
    · rw [if_neg hletfn, if_pos ((hc.lexical s).mpr htaken)]
      exact hvar.trans (and_iff_right fun h => hletfn ((hc.letfn s).mpr h)).symm
  | step =>
    rw [resolve, resolveChecked, VariableUse]
    split
    next h => exact iff_of_false (hfun s) fun hu => by simp [h] at hu
    next h => exact hvar.trans (and_iff_right (by simpa using h)).symm

/-- An occurrence whose binder is a function. -/
theorem resolve_function (hc : Matches c) {name : Symbol} {letfn : Bool}
    (hs : sourceBinder s c.scope = some (.function name letfn)) (hd : folBinder s c.scope = some d)
    (position : Position) :
    resolve S w m c.tables c.scope s position = .binder d ↔ FunctionUse S w m c s position := by
  have hvar : clVariable m.dynamic s false c.scope ≠ .binder d := clVariable_ne_function hs hd false
  have hfun := clFunction_function hs hd
  cases position with
  | reference =>
    rw [resolve, FunctionUse, ← emitSymbolRef_function hc]
    cases emitSymbolRef S w c.tables s with
    | bare => exact iff_of_false hvar (by simp)
    | function => exact iff_of_true hfun rfl
  | operator args =>
    rw [resolve, emitOperator, FunctionUse, ← hc.letfn, ← hc.lexical]
    by_cases hletfn : s ∈ c.tables.letfnFns
    · rw [if_pos hletfn]
      exact iff_of_true hfun (.inl hletfn)
    · rw [if_neg hletfn]
      by_cases hlex : s ∈ c.tables.lexicalVars
      · rw [if_pos hlex]
        exact iff_of_false hvar fun h => h.elim hletfn fun h => h.1 hlex
      · rw [if_neg hlex]
        simp only [hletfn, hlex, false_or, not_false_eq_true, true_and]
        cases globalOperator S w s args with
        | call g =>
          simp only [OperatorForm.call.injEq, reduceCtorEq, false_and, or_false]
          constructor
          · exact fun h => (clFunction_eq_binder hs hd h).1
          · rintro rfl
            exact hfun
        | value => exact iff_of_false hvar (by simp)
        | checked =>
          simp only [reduceCtorEq, true_and, false_or]
          exact resolveChecked_binder hs hd
  | step => exact resolveChecked_binder hs hd

theorem fbound_of_definition (h : m.definition s = some .function) : m.fbound s = true := by
  have hmem : ∀ {l : List (Symbol × GlobalKind)} {k}, l.lookup s = some k → (s, k) ∈ l := by
    intro l k hl
    induction l with
    | nil => cases hl
    | cons p l ih =>
      rw [List.lookup_cons] at hl
      split at hl
      next heq =>
        cases hl
        rw [beq_iff_eq] at heq
        rw [heq]
        exact List.mem_cons_self
      next => exact List.mem_cons_of_mem _ (ih hl)
  exact List.contains_iff_mem.mpr (hmem h)

/-- The use of a global function. -/
theorem resolve_globalFunction (hc : Matches c) (hs : sourceBinder s c.scope = none)
    (hdef : m.definition s = some .function) (position : Position) :
    resolve S w m c.tables c.scope s position = .global .function s ↔
      GlobalFunctionUse S w c s position := by
  have hvar : clVariable m.dynamic s false c.scope ≠ .global .function s :=
    fun h => absurd ((clVariable_global false).mp h).1 (by simp)
  have hfun := clFunction_global hs
  have hchecked : resolveChecked m c.scope s = .global .function s := by
    rw [resolveChecked, if_pos (fbound_of_definition hdef)]
    exact hfun
  cases position with
  | reference =>
    rw [resolve, GlobalFunctionUse, ← emitSymbolRef_function hc]
    cases emitSymbolRef S w c.tables s with
    | bare => exact iff_of_false hvar (by simp)
    | function => exact iff_of_true hfun rfl
  | operator args =>
    rw [resolve, emitOperator, GlobalFunctionUse, ← hc.lexical,
      if_neg fun h => not_underLetfn hs ((hc.letfn s).mp h)]
    by_cases hlex : s ∈ c.tables.lexicalVars
    · rw [if_pos hlex]
      exact iff_of_false hvar fun h => h.1 hlex
    · rw [if_neg hlex]
      simp only [hlex, not_false_eq_true, true_and]
      cases globalOperator S w s args with
      | call g =>
        simp only [OperatorForm.call.injEq, reduceCtorEq, or_false]
        constructor
        · exact fun h => (clFunction_eq_global h).1
        · rintro rfl
          exact hfun
      | value => exact iff_of_false hvar (by simp)
      | checked => exact iff_of_true hchecked (.inr rfl)
  | step => exact iff_of_true hchecked trivial

theorem globalOperator_ne_value (s : Symbol) (args : List Ast) :
    globalOperator S w s args ≠ .value := by
  unfold globalOperator
  split_ifs <;> simp

/-- The use of a global variable. -/
theorem resolve_globalVariable (hc : Matches c) (hs : sourceBinder s c.scope = none)
    (position : Position) :
    resolve S w m c.tables c.scope s position = .global .variable s ↔
      GlobalVariableUse S w m c s position := by
  have hvar : clVariable m.dynamic s false c.scope = .global .variable s ↔ GlobalVisible m c s :=
    (clVariable_global false).trans (and_iff_right rfl)
  have hfun : ∀ g, clFunction g c.scope ≠ .global .variable s :=
    fun g h => absurd (clFunction_eq_global h).2 (by simp)
  have hchecked : resolveChecked m c.scope s = .global .variable s ↔
      m.fbound s = false ∧ GlobalVisible m c s := by
    unfold resolveChecked
    split
    next h => exact iff_of_false (hfun s) fun hu => by simp [h] at hu
    next h => exact hvar.trans (and_iff_right (by simpa using h)).symm
  cases position with
  | reference =>
    rw [resolve, GlobalVariableUse, ← emitSymbolRef_bare hc]
    cases emitSymbolRef S w c.tables s with
    | bare => exact hvar.trans (and_iff_right rfl).symm
    | function => exact iff_of_false (hfun s) fun h => absurd h.1 (by simp)
  | operator args =>
    rw [resolve, emitOperator, GlobalVariableUse, ← hc.lexical,
      if_neg fun h => not_underLetfn hs ((hc.letfn s).mp h)]
    by_cases hlex : s ∈ c.tables.lexicalVars
    · rw [if_pos hlex]
      exact hvar.trans (and_iff_right (.inl hlex)).symm
    · rw [if_neg hlex]
      simp only [hlex, false_or]
      cases hop : globalOperator S w s args with
      | call g => exact iff_of_false (hfun g) fun h => absurd h.1.1 (by simp)
      | value => exact absurd hop (globalOperator_ne_value s args)
      | checked => simpa using hchecked
  | step => exact hchecked

/-- An occurrence is resolved right when it meets its condition. -/
theorem resolves_iff {o : Occurrence} (hc : Matches o.context) :
    o.Resolves S w m ↔ o.Sound S w m := by
  unfold Occurrence.Resolves Occurrence.Sound Right
  cases hs : sourceBinder o.name o.context.scope with
  | none =>
    rw [folBinder_eq_none hs]
    cases hdef : m.definition o.name with
    | none => simp [GlobalUse]
    | some kind =>
      have hkind : (∀ k, some kind = some k → resolve S w m o.context.tables o.context.scope o.name
          o.position = .global k o.name) ↔ resolve S w m o.context.tables o.context.scope o.name
          o.position = .global kind o.name :=
        ⟨fun h => h kind rfl, fun h k hk => Option.some.inj hk ▸ h⟩
      refine hkind.trans ?_
      cases kind with
      | function => exact resolve_globalFunction hc hs hdef o.position
      | «variable» => exact resolve_globalVariable hc hs o.position
  | some e =>
    obtain ⟨d, hd⟩ := folBinder_isSome hs
    rw [hd]
    cases e with
    | «variable» name written special => exact resolve_variable hc hs hd o.position
    | function name letfn => exact resolve_function hc hs hd o.position
    | lambda specials => exact absurd (List.find?_some hs) (by simp [Entry.binds])

end

theorem Right.target {m : Moment} {scope : Scope} {s : Symbol} {target : Target} {d : Nat}
    (h : Right m scope s target) (hd : folBinder s scope = some d) : target = .binder d := by
  unfold Right at h
  rw [hd] at h
  exact h

/-- `(fn fact [n] (fact n))`. -/
def selfCall : Ast :=
  .fn (some ⟨"FACT", "USER"⟩) [(⟨[.symbol ⟨"N", "USER"⟩], false⟩,
    [.call (.symbolRef ⟨"FACT", "USER"⟩) [.symbolRef ⟨"N", "USER"⟩]])]

/-- No name is special to the compiler. -/
def plainSetting : Setting where
  constant := fun _ => false
  standard := fun _ => false
  aroundMethods := fun _ => false
  inlineMethods := false
  compilingFile := false
  package := "USER"
  loopId := fun _ => 0

end Fol.Names
