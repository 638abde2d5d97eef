/-
Fol.Escape.Aliases — what an alias of a parameter, or a form around one of its uses, does to the
effect that `infer-summary` finds.

The walk follows a parameter by its name and only to the places where it stands bare, so a name
bound to it, or a form around it, takes its uses away. The effect is still as strong exactly if what
each use gave the parameter reaches it through the uses that are left.

  §1 Effects  — `le_paramEffect_iff`: the effect from the uses.
  §2 Contexts — `Frame`, `Position`: what the walk sees of a form inside another.
  §3 Aliases  — `aliasing_never_weakens_iff`.
-/
import Fol.Escape.Inline
import Fol.Escape.PostFixpoint

namespace Fol.Escape

open Lib EscapeSummary

/-! ## §1 Effects -/

section Effects

variable {Γ : Env} {name : Option Symbol} {params : Params} {body body' : List Ast} {i : Nat}

/-- The sources of the parameters of a function of this body, from what the walk has seen. -/
def sources (Γ : Env) (name : Option Symbol) (params : Params) (body : List Ast)
    (seen : List Seen) :
    Nat → List (Source Nat Effect) :=
  flowsOf Γ (assumedName name params body) params seen

/-- Without self-calls every use has an effect of its own. -/
theorem settledAfter_single (n : Nat) (seen : List Seen) :
    SettledAfter (flowsOf Γ none params seen) (n + 1) := by
  intro i a h
  cases h with
  | const hmem hle => exact .inr (.const hmem hle)
  | of hmem _ =>
    obtain ⟨u, -, hu⟩ := List.mem_map.mp hmem
    cases u with
    | passed operator kw index => cases operator <;> simp [sourceOf, callsSelf] at hu
    | returned => cases hu
    | captured => cases hu

/-- The inferred effect of a parameter is at least `e` exactly if four rounds do not settle the
effects, or such an effect reaches it through its uses. -/
theorem le_paramEffect_iff {e : Effect} (hi : i < params.names.length) :
    e ≤ effectForArg (inferSummary Γ name params body) i ↔
      e = .none ∨ ¬SettledAfter (sources Γ name params body (inferWalkBody true body)) 4 ∨
        FlowsTo (sources Γ name params body (inferWalkBody true body)) e i := by
  rw [sources]
  cases hname : assumedName name params body with
  | none =>
    obtain ⟨hshaped, hiff⟩ := singlePass_solves Γ params body
    rw [inferSummary_of_none hname, effectForArg_of_lt (hshaped.length ▸ hi), hiff]
    simp only [settledAfter_single 3, not_true_eq_false, false_or]
    rfl
  | some f =>
    rw [inferSummary_of_some hname, ← rounds_exhausted_iff]
    cases hrounds : inferRounds Γ f params body 5 (optimisticSummary params body) with
    | none =>
      have hlisted := listed_replicate (s := conservativeSummary params body) rfl hi
      have hlt : i < (conservativeSummary params body).paramEffects.length := by
        simpa [conservativeSummary] using hi
      rw [Option.getD_none, effectForArg_of_lt hlt, hlisted]
      simp [Effect.le_retained]
    | some F =>
      obtain ⟨hshaped, hiff⟩ := inferRounds_solves shaped_optimistic grounded_optimistic hrounds
      rw [Option.getD_some, effectForArg_of_lt (hshaped.length ▸ hi), hiff]
      simp
      rfl

/-- Four rounds do not settle the effects of the second body; or they settle those of the first,
unless `:retained` reaches the parameter, and what each use of the parameter gave it still reaches
it. -/
def Upheld (flows flows' : Nat → List (Source Nat Effect)) (i : Nat) : Prop :=
  SettledAfter flows' 4 →
    (SettledAfter flows 4 ∨ FlowsTo flows' .retained i) ∧ ∀ s ∈ flows i,
    StillReaches flows flows' i s

theorem mem_sources {seen seen' : List Seen} (h : ∀ s, s ∈ seen ↔ s ∈ seen') (j : Nat)
    (s : Source Nat Effect) :
    s ∈ sources Γ name params body seen j ↔ s ∈ sources Γ name params body seen' j := by
  simp only [sources, flowsOf, usesAt, List.mem_map, List.mem_filterMap, h]

/-- A body leaves the effect of a parameter as strong as another does. -/
theorem paramEffect_le_iff {seen seen' : List Seen} (hi : i < params.names.length)
    (hseen : ∀ s, s ∈ inferWalkBody true body ↔ s ∈ seen)
    (hseen' : ∀ s, s ∈ inferWalkBody true body' ↔ s ∈ seen') :
    effectForArg (inferSummary Γ name params body) i ≤
    effectForArg (inferSummary Γ name params body') i ↔
      Upheld (sources Γ name params body seen) (sources Γ name params body' seen') i := by
  have hflows (e : Effect) (body : List Ast) (seen : List Seen)
      (hseen : ∀ s, s ∈ inferWalkBody true body ↔ s ∈ seen) :
      e ≤ effectForArg (inferSummary Γ name params body) i ↔
        e = ⊥ ∨ ¬SettledAfter (sources Γ name params body seen) 4 ∨
          FlowsTo (sources Γ name params body seen) e i := by
    rw [le_paramEffect_iff hi, SettledAfter.congr (mem_sources hseen)]
    refine or_congr_right
      (or_congr_right ⟨fun h => h.mono fun j s => ?_, fun h => h.mono fun j s => ?_⟩)
    · exact (mem_sources hseen j s).mp
    · exact (mem_sources hseen j s).mpr
  have hfirst (e : Effect) := hflows e body seen hseen
  have hsecond (e : Effect) := hflows e body' seen' hseen'
  rw [Upheld, ← stillReaches_iff]
  constructor
  · intro h hsettled'
    have hreach (e : Effect) (hne : e ≠ ⊥)
    (he : e ≤ effectForArg (inferSummary Γ name params body) i) :
        FlowsTo (sources Γ name params body' seen') e i :=
      (((hsecond e).mp (he.trans h)).resolve_left hne).resolve_left (not_not.mpr hsettled')
    refine ⟨or_iff_not_imp_left.mpr fun hsettled => ?_, fun e hne he => ?_⟩
    · exact hreach .retained nofun ((hfirst .retained).mpr (.inr (.inl hsettled)))
    · exact hreach e hne ((hfirst e).mpr (.inr (.inr he)))
  · intro h
    rw [hsecond]
    refine or_iff_not_imp_left.mpr fun hne => or_iff_not_imp_left.mpr fun hsettled' => ?_
    obtain ⟨hretained, hstill⟩ := h (not_not.mp hsettled')
    rcases ((hfirst _).mp le_rfl).resolve_left hne with hsettled | hreach
    · exact (hretained.resolve_left hsettled).le (Effect.le_retained _)
    · exact hstill _ hne hreach

end Effects

/-! ## §2 Contexts -/

/-- A node with a hole for one child. -/
inductive Frame where
  | operator (args : List Ast)
  | arg (op : Ast) (pre post : List Ast)
  | ifTest (thn : Ast) (els : List Ast)
  | ifThen (test : Ast) (els : List Ast)
  | ifElse (test thn : Ast) (pre post : List Ast)
  | doForm (pre post : List Ast)
  | bindInit (pre : List (Pattern × Ast)) (p : Pattern) (post : List (Pattern × Ast))
      (body : List Ast)
  | bindForm (bindings : List (Pattern × Ast)) (pre post : List Ast)
  | letfnClause (fns : List (Symbol × List (Params × List Ast))) (f : Symbol)
      (clauses : List (Params × List Ast)) (ps : Params) (pre post : List Ast)
      (clauses' : List (Params × List Ast)) (fns' : List (Symbol × List (Params × List Ast)))
      (body : List Ast)
  | letfnForm (bindings : List (Symbol × List (Params × List Ast))) (pre post : List Ast)
  | fnForm (name : Option Symbol) (clauses : List (Params × List Ast)) (ps : Params)
      (pre post : List Ast) (clauses' : List (Params × List Ast))
  | loopInit (pre : List (Pattern × Ast)) (p : Pattern) (post : List (Pattern × Ast))
      (body : List Ast)
  | loopForm (bindings : List (Pattern × Ast)) (pre post : List Ast)
  | recurArg (pre post : List Ast)
  | caseExpr (clauses : List (List Literal × List Ast))
  | caseForm (expr : Ast) (clauses : List (List Literal × List Ast)) (keys : List Literal)
      (pre post : List Ast) (clauses' : List (List Literal × List Ast))
  | condTest (clauses : List (Ast × List Ast)) (body : List Ast) (clauses' : List (Ast × List Ast))
  | condForm (clauses : List (Ast × List Ast)) (test : Ast) (pre post : List Ast)
      (clauses' : List (Ast × List Ast))
  | threadForm (pre post : List Ast)
  | vectorElement (pre post : List Ast)
  | setElement (pre post : List Ast)
  | dictKey (entries : List (Ast × Ast)) (v : Ast) (entries' : List (Ast × Ast))
  | dictValue (entries : List (Ast × Ast)) (k : Ast) (entries' : List (Ast × Ast))
  | kid (kids : List (Bool × List Symbol × Ast)) (step : Bool) (binds : List Symbol)
      (kids' : List (Bool × List Symbol × Ast))

namespace Frame

/-- The node with the hole filled. -/
def plug (n : Ast) : Frame → Ast
  | operator args => .call n args
  | arg op pre post => .call op (pre ++ n :: post)
  | ifTest thn els => .ifNode n thn els
  | ifThen test els => .ifNode test n els
  | ifElse test thn pre post => .ifNode test thn (pre ++ n :: post)
  | doForm pre post => .doNode (pre ++ n :: post)
  | bindInit pre p post body => .bind (pre ++ (p, n) :: post) body
  | bindForm bindings pre post => .bind bindings (pre ++ n :: post)
  | letfnClause fns f clauses ps pre post clauses' fns' body =>
    .letfn (fns ++ (f, clauses ++ (ps, pre ++ n :: post) :: clauses') :: fns') body
  | letfnForm bindings pre post => .letfn bindings (pre ++ n :: post)
  | fnForm name clauses ps pre post clauses' =>
    .fn name (clauses ++ (ps, pre ++ n :: post) :: clauses')
  | loopInit pre p post body => .loop (pre ++ (p, n) :: post) body
  | loopForm bindings pre post => .loop bindings (pre ++ n :: post)
  | recurArg pre post => .recur (pre ++ n :: post)
  | caseExpr clauses => .case n clauses
  | caseForm expr clauses keys pre post clauses' =>
    .case expr (clauses ++ (keys, pre ++ n :: post) :: clauses')
  | condTest clauses body clauses' => .cond (clauses ++ (n, body) :: clauses')
  | condForm clauses test pre post clauses' =>
    .cond (clauses ++ (test, pre ++ n :: post) :: clauses')
  | threadForm pre post => .threadFirst (pre ++ n :: post)
  | vectorElement pre post => .vector (pre ++ n :: post)
  | setElement pre post => .set (pre ++ n :: post)
  | dictKey entries v entries' => .dict (entries ++ (n, v) :: entries')
  | dictValue entries k entries' => .dict (entries ++ (k, n) :: entries')
  | kid kids step binds kids' => .other (kids ++ (step, binds, n) :: kids')

end Frame

/-- Where the walk meets a form: as a value, in tail position or not; as an argument; in a
closure. -/
inductive Position where
  | value (tailp : Bool)
  | arg (operator : Option Symbol) (kw : Bool) (index : Nat)
  | closed

/-- The position of the hole of a node that is met as a value. -/
def Frame.position (tailp : Bool) : Frame → Position
  | .arg op pre _ =>
      .arg (Ast.call op []).operatorSymbol (Ast.call op []).keywordOperatorP pre.length
  | .ifThen _ _ => .value tailp
  | .ifElse _ _ _ _ => .value tailp
  | .doForm _ post => .value (tailp && post.isEmpty)
  | .bindForm _ _ post => .value (tailp && post.isEmpty)
  | .fnForm _ _ _ _ _ _ => .closed
  | _ => .value false

/-- The position of the hole of nested nodes, the outermost first. -/
def Position.into (pos : Position) : List Frame → Position
  | [] => pos
  | f :: fs =>
    match pos with
    | .value tailp => (f.position tailp).into fs
    | .arg _ _ _ => (f.position false).into fs
    | .closed => .closed

/-- The hole of nested nodes filled. -/
def plugAll (fs : List Frame) (n : Ast) : Ast := fs.foldr (fun f m => f.plug m) n

/-- What the walk sees of a form in a position. -/
def seenAt : Position → Ast → List Seen
  | .value tailp, n => inferWalk tailp n
  | .arg operator kw index, .symbolRef name => [.use name (.passed operator kw index)]
  | .arg _ _ _, n => inferWalk false n
  | .closed, n => (symbolRefs n).map fun s => .use s .captured

section Contexts

theorem inferWalkAll_eq (tailp : Bool) (ns : List Ast) :
    inferWalkAll tailp ns = ns.flatMap (inferWalk tailp) := by
  induction ns with
  | nil => rfl
  | cons n ns ih => rw [inferWalkAll, ih, List.flatMap_cons]

theorem inferWalkBody_middle (tailp : Bool) (pre post : List Ast) (n : Ast) :
    inferWalkBody tailp (pre ++ n :: post) =
      inferWalkAll false pre ++ inferWalk (tailp && post.isEmpty) n ++
      inferWalkBody tailp post := by
  induction pre with
  | nil => rfl
  | cons m pre ih =>
    have hne : (pre ++ n :: post).isEmpty = false := by cases pre <;> rfl
    rw [List.cons_append, inferWalkBody, ih, hne, Bool.and_false, inferWalkAll]
    simp only [List.append_assoc]

theorem inferWalkArgs_cons (o : Option Symbol) (kw : Bool) (i : Nat) (n : Ast) (ns : List Ast) :
    inferWalkArgs o kw i (n :: ns) = seenAt (.arg o kw i) n ++ inferWalkArgs o kw (i + 1) ns := by
  cases n <;> simp [inferWalkArgs, seenAt]

theorem inferWalkArgs_append (o : Option Symbol) (kw : Bool) (i : Nat) (pre post : List Ast) :
    inferWalkArgs o kw i (pre ++ post) =
      inferWalkArgs o kw i pre ++ inferWalkArgs o kw (i + pre.length) post := by
  induction pre generalizing i with
  | nil => simp [inferWalkArgs]
  | cons n pre ih =>
    rw [List.cons_append, inferWalkArgs_cons, ih, inferWalkArgs_cons, List.length_cons,
      List.append_assoc, Nat.add_assoc, Nat.add_comm 1]

theorem inferWalkInits_eq (bs : List (Pattern × Ast)) :
    inferWalkInits bs = bs.flatMap fun b => inferWalk false b.2 := by
  induction bs with
  | nil => rfl
  | cons b bs ih => rw [inferWalkInits, ih, List.flatMap_cons]

theorem inferWalkClauses_eq (cs : List (Params × List Ast)) :
    inferWalkClauses cs = cs.flatMap fun c => inferWalkAll false c.2 := by
  induction cs with
  | nil => rfl
  | cons c cs ih => rw [inferWalkClauses, ih, List.flatMap_cons]

theorem inferWalkFns_eq (fs : List (Symbol × List (Params × List Ast))) :
    inferWalkFns fs = fs.flatMap fun f => inferWalkClauses f.2 := by
  induction fs with
  | nil => rfl
  | cons f fs ih => rw [inferWalkFns, ih, List.flatMap_cons]

theorem inferWalkCases_eq (cs : List (List Literal × List Ast)) :
    inferWalkCases cs = cs.flatMap fun c => inferWalkAll false c.2 := by
  induction cs with
  | nil => rfl
  | cons c cs ih => rw [inferWalkCases, ih, List.flatMap_cons]

theorem inferWalkConds_eq (cs : List (Ast × List Ast)) :
    inferWalkConds cs = cs.flatMap fun c => inferWalk false c.1 ++ inferWalkAll false c.2 := by
  induction cs with
  | nil => rfl
  | cons c cs ih => rw [inferWalkConds, ih, List.flatMap_cons]

theorem inferWalkEntries_eq (es : List (Ast × Ast)) :
    inferWalkEntries es = es.flatMap fun e => inferWalk false e.1 ++ inferWalk false e.2 := by
  induction es with
  | nil => rfl
  | cons e es ih => rw [inferWalkEntries, ih, List.flatMap_cons]

theorem inferWalkKids_eq (ks : List (Bool × List Symbol × Ast)) :
    inferWalkKids ks = ks.flatMap fun k => inferWalk false k.2.2 := by
  induction ks with
  | nil => rfl
  | cons k ks ih => rw [inferWalkKids, ih, List.flatMap_cons]

theorem operatorSymbol_call (op : Ast) (args : List Ast) :
    (Ast.call op args).operatorSymbol = (Ast.call op []).operatorSymbol := by
  cases op <;> rfl

theorem keywordOperatorP_call (op : Ast) (args : List Ast) :
    (Ast.call op args).keywordOperatorP = (Ast.call op []).keywordOperatorP := by
  cases op with
  | literal v => cases v <;> rfl
  | _ => rfl

/-- Neither a variable nor a literal. -/
def Ast.compound (n : Ast) : Prop := n.isRefOrLiteral = false

theorem compound_plug (f : Frame) (n : Ast) : (f.plug n).compound := by
  unfold Ast.compound
  cases f <;> rfl

theorem symbolRefsClauses_eq (cs : List (Params × List Ast)) :
    symbolRefsClauses cs = cs.flatMap fun c => symbolRefsList c.2 := by
  induction cs with
  | nil => rfl
  | cons c cs ih => rw [symbolRefsClauses, ih, List.flatMap_cons]

theorem symbolRefsList_eq (ns : List Ast) : symbolRefsList ns = ns.flatMap symbolRefs := by
  induction ns with
  | nil => rfl
  | cons n ns ih => rw [symbolRefsList, ih, List.flatMap_cons]

/-- The walk sees of a node what it sees of it with the hole empty, and what it sees of the
hole. -/
theorem mem_inferWalk_plug (f : Frame) (tailp : Bool) (n : Ast)
    (hn : ∀ args, f = .operator args → n.compound) (s : Seen) :
    s ∈ inferWalk tailp (f.plug n) ↔
      s ∈ inferWalk tailp (f.plug (.literal .nil)) ∨ s ∈ seenAt (f.position tailp) n := by
  cases f with
  | operator args =>
    have hcomp := hn args rfl
    have hop : (Ast.call n args).operatorSymbol = none := by
      cases n <;> first | rfl | cases hcomp
    have hkw : (Ast.call n args).keywordOperatorP = false := by
      cases n <;> first | rfl | cases hcomp
    have hnil : (Ast.call (.literal .nil) args).operatorSymbol = none := rfl
    have hknil : (Ast.call (.literal .nil) args).keywordOperatorP = false := rfl
    simp only [Frame.plug, Frame.position, inferWalk, seenAt, hop, hkw, hnil, hknil,
      List.mem_append, List.not_mem_nil]
    tauto
  | arg op pre post =>
    simp only [Frame.plug, Frame.position, inferWalk, operatorSymbol_call op (pre ++ _),
      keywordOperatorP_call op (pre ++ _), inferWalkArgs_append, inferWalkArgs_cons,
      List.mem_append, Nat.zero_add]
    simp only [seenAt, inferWalk, List.not_mem_nil]
    tauto
  | fnForm name clauses ps pre post clauses' =>
    simp only [Frame.plug, Frame.position, inferWalk, seenAt, symbolRefs, symbolRefsClauses_eq,
      symbolRefsList_eq, List.flatMap_append, List.flatMap_cons, List.map_append, List.mem_append,
      List.map_nil, List.not_mem_nil]
    tauto
  | _ =>
    simp only [Frame.plug, Frame.position, inferWalk, seenAt, inferWalkAll_eq, inferWalkBody_middle,
      inferWalkInits_eq, inferWalkClauses_eq, inferWalkFns_eq, inferWalkCases_eq, inferWalkConds_eq,
      inferWalkEntries_eq, inferWalkKids_eq, List.flatMap_append, List.flatMap_cons,
      List.mem_append,
      List.not_mem_nil]
    tauto

def Position.tailp : Position → Bool
  | .value tailp => tailp
  | _ => false

/-- A parameter standing bare in the position is a use the walk sees. -/
def Position.use? : Position → Option ParamUse
  | .value true => some .returned
  | .value false => none
  | .arg operator kw index => some (.passed operator kw index)
  | .closed => none

theorem seenAt_symbolRef {pos : Position} (h : pos ≠ .closed) (name : Symbol) :
    seenAt pos (.symbolRef name) = (pos.use?.map (Seen.use name)).toList := by
  cases pos with
  | value tailp => cases tailp <;> rfl
  | arg operator kw index => rfl
  | closed => exact absurd rfl h

theorem seenAt_nil (pos : Position) : seenAt pos (.literal .nil) = [] := by
  cases pos <;> rfl

theorem seenAt_compound {pos : Position} {n : Ast} (h : pos ≠ .closed) (hn : n.compound) :
    seenAt pos n = inferWalk pos.tailp n := by
  cases pos with
  | value tailp => rfl
  | arg operator kw index => cases n <;> first | rfl | cases hn
  | closed => exact absurd rfl h

theorem closed_into (fs : List Frame) : Position.closed.into fs = .closed := by
  cases fs <;> rfl

theorem into_cons {pos : Position} (h : pos ≠ .closed) (f : Frame) (fs : List Frame) :
    pos.into (f :: fs) = (f.position pos.tailp).into fs := by
  cases pos with
  | value tailp => rfl
  | arg operator kw index => rfl
  | closed => exact absurd rfl h

theorem compound_plugAll {fs : List Frame} (h : fs ≠ []) (n : Ast) : (plugAll fs n).compound := by
  cases fs with
  | nil => exact absurd rfl h
  | cons f fs => exact compound_plug f _

theorem ne_closed {pos : Position} {fs : List Frame} {u : ParamUse}
    (h : (pos.into fs).use? = some u) : pos ≠ .closed := by
  rintro rfl
  rw [closed_into] at h
  cases h

/-- The walk sees of nested nodes what it sees of them with the hole empty, and what it sees
of the hole. -/
theorem mem_seenAt_plugAll {fs : List Frame} {pos : Position} {u : ParamUse}
    (h : (pos.into fs).use? = some u) (n : Ast) (s : Seen) :
    s ∈ seenAt pos (plugAll fs n) ↔
      s ∈ seenAt pos (plugAll fs (.literal .nil)) ∨ s ∈ seenAt (pos.into fs) n := by
  induction fs generalizing pos with
  | nil => simp [plugAll, Position.into, seenAt_nil]
  | cons f fs ih =>
    have hpos := ne_closed h
    rw [into_cons hpos] at h ⊢
    have hplug (m : Ast) : s ∈ seenAt pos (plugAll (f :: fs) m) ↔
        s ∈ inferWalk pos.tailp (f.plug (.literal .nil)) ∨
          s ∈ seenAt (f.position pos.tailp) (plugAll fs m) := by
      rw [plugAll, List.foldr_cons, seenAt_compound hpos (compound_plug f _), ← plugAll]
      refine mem_inferWalk_plug f pos.tailp (plugAll fs m) ?_ s
      -- an operator is no use, so the hole is further in
      rintro args rfl
      refine compound_plugAll ?_ m
      rintro rfl
      cases h
    rw [hplug, hplug, ih h, or_assoc]

end Contexts

/-- A body with a hole. -/
structure Context where
  pre : List Ast
  frames : List Frame
  post : List Ast

/-- The body with the hole filled. -/
def Context.fill (C : Context) (n : Ast) : List Ast := C.pre ++ plugAll C.frames n :: C.post

/-- What a parameter is used for that stands in the hole. -/
def Context.position (C : Context) : Position := (Position.value C.post.isEmpty).into C.frames

theorem Context.mem_walk_fill {C : Context} {u : ParamUse} (h : C.position.use? = some u)
    (n : Ast) (s : Seen) :
    s ∈ inferWalkBody true (C.fill n) ↔
      s ∈ inferWalkBody true (C.fill (.literal .nil)) ∨ s ∈ seenAt C.position n := by
  have hwalk (m : Ast) : inferWalkBody true (C.fill m) = inferWalkAll false C.pre ++
      seenAt (.value C.post.isEmpty) (plugAll C.frames m) ++ inferWalkBody true C.post := by
    rw [Context.fill, inferWalkBody_middle, Bool.true_and]
    rfl
  rw [hwalk, hwalk]
  simp only [List.mem_append, mem_seenAt_plugAll h n s, Context.position]
  tauto

/-! ## §3 Aliases -/

/-- The body with `x` bound to `p` in front and put for it. -/
def aliasBody (p x : Symbol) (body : List Ast) : List Ast :=
  [.bind [(.symbol x, .symbolRef p)] (betaSubstList (actuals [(p, .symbolRef x)]) body)]

/-- A collection literal, an `if` whose branch has the value in the hole, or a call of
`identity`. -/
def Frame.Wraps : Frame → Prop
  | .vectorElement _ _ => True
  | .setElement _ _ => True
  | .dictKey _ _ _ => True
  | .dictValue _ _ _ => True
  | .ifThen _ _ => True
  | .ifElse _ _ _ post => post = []
  | .arg (.symbolRef s) [] [] => s.name = "IDENTITY"
  | _ => False

/-- What is left of the use of a parameter with the wrapper around it: nothing under a
literal and under an `if` that is passed on. -/
def Context.keeps (C : Context) (w : Frame) (p : Symbol) : List Seen :=
  ((w.position C.position.tailp).use?.map (Seen.use p)).toList

section Aliases

variable {Γ : Env} {name : Option Symbol} {params : Params}

theorem mem_walk_aliasBody (p x : Symbol) (body : List Ast) (s : Seen) :
    s ∈ inferWalkBody true (aliasBody p x body) ↔
      s ∈ inferWalkBody true (betaSubstList (actuals [(p, .symbolRef x)]) body) := by
  simp [aliasBody, inferWalkBody, inferWalk, inferWalkInits]

theorem lt_of_paramIndex {names : List (Option Symbol)} {p : Symbol} {i : Nat}
    (h : paramIndex names p = some i) : i < names.length :=
  (List.findIdx?_eq_some_iff_getElem.mp h).1

theorem Context.position_ne_closed {C : Context} {u : ParamUse} (h : C.position.use? = some u) :
    C.position ≠ .closed := by
  intro hclosed
  rw [hclosed] at h
  cases h

theorem Context.mem_walk_use {C : Context} {u : ParamUse} (h : C.position.use? = some u)
    (p : Symbol) (s : Seen) :
    s ∈ inferWalkBody true (C.fill (.symbolRef p)) ↔
      s ∈ inferWalkBody true (C.fill (.literal .nil)) ++ [.use p u] := by
  have hpos : C.position ≠ .closed := C.position_ne_closed h
  rw [C.mem_walk_fill h, seenAt_symbolRef hpos, h, List.mem_append]
  rfl

theorem Context.mem_walk_wrapped {C : Context} {u : ParamUse} (h : C.position.use? = some u)
    {w : Frame} (hw : w.Wraps) (p : Symbol) (s : Seen) :
    s ∈ inferWalkBody true (C.fill (w.plug (.symbolRef p))) ↔
      s ∈ inferWalkBody true (C.fill (w.plug (.literal .nil))) ++ C.keeps w p := by
  have hpos : C.position ≠ .closed := C.position_ne_closed h
  have hopen : w.position C.position.tailp ≠ .closed := by
    cases w <;> first | exact Position.noConfusion | exact absurd hw id
  have hop (args : List Ast) : w ≠ .operator args := by
    rintro rfl
    exact hw
  rw [C.mem_walk_fill h, List.mem_append, C.mem_walk_fill h (w.plug (.literal .nil)),
    seenAt_compound hpos (compound_plug w _), seenAt_compound hpos (compound_plug w _),
    mem_inferWalk_plug w _ _ (fun args heq => absurd heq (hop args)), seenAt_symbolRef hopen,
    or_assoc]
  rfl

/-- An alias of a parameter, or a wrapper around one of its uses, leaves the inferred effect at
least as strong exactly if what each of its uses gave it still reaches it: with the alias, through
the uses under a rebinding of its name; with the wrapper, through the other uses and what the
wrapper leaves of this one. -/
theorem aliasing_never_weakens_iff {p : Symbol} {i : Nat}
    (hp : paramIndex params.names p = some i) :
    (∀ body x, effectForArg (inferSummary Γ name params body) i ≤
          effectForArg (inferSummary Γ name params (aliasBody p x body)) i ↔
        Upheld (sources Γ name params body (inferWalkBody true body))
          (sources Γ name params (aliasBody p x body)
            (inferWalkBody true (betaSubstList (actuals [(p, .symbolRef x)]) body))) i) ∧
      ∀ (C : Context) (u : ParamUse) (w : Frame), C.position.use? = some u → w.Wraps →
        (effectForArg (inferSummary Γ name params (C.fill (.symbolRef p))) i ≤
            effectForArg (inferSummary Γ name params (C.fill (w.plug (.symbolRef p)))) i ↔
          Upheld
            (sources Γ name params (C.fill (.symbolRef p))
              (inferWalkBody true (C.fill (.literal .nil)) ++ [.use p u]))
            (sources Γ name params (C.fill (w.plug (.symbolRef p)))
              (inferWalkBody true (C.fill (w.plug (.literal .nil))) ++ C.keeps w p)) i) := by
  have hi := lt_of_paramIndex hp
  constructor
  · intro body x
    exact paramEffect_le_iff hi (fun s => Iff.rfl) (mem_walk_aliasBody p x body)
  · intro C u w hu hw
    exact paramEffect_le_iff hi (C.mem_walk_use hu p) (C.mem_walk_wrapped hu hw p)

/-- `(fn [p] (bind [p 1] (retain p)))`, where the use under the rebinding is not the
parameter's, and `(fn [p] (identity p))`. -/
theorem aliasing_never_weakens_iff_identity :
    let p : Symbol := { name := "P" }
    let effect (body : List Ast) := effectForArg (inferSummary {} none ⟨[.symbol p], false⟩ body) 0
    let retain : Ast := .call (.symbolRef { name := "RETAIN" }) [.symbolRef p]
    let shadowed : Ast := .bind [(.symbol p, .literal (.num 1))] [retain]
    effect [shadowed] ≤ effect (aliasBody p { name := "X" } [shadowed]) ∧
      effect [.symbolRef p] ≤
        effect [.call (.symbolRef { name := "IDENTITY" }) [.symbolRef p]] := by
  intro p effect retain shadowed
  have hp : paramIndex (Params.names ⟨[.symbol p], false⟩) p = some 0 := by decide
  constructor
  · refine ((aliasing_never_weakens_iff hp).1 _ _).mpr fun _ =>
      ⟨.inl (settledAfter_single 3 _), fun s hs => ?_⟩
    exact stillReaches_iff.mp (fun _ _ h => h) s hs
  · refine ((aliasing_never_weakens_iff hp).2 ⟨[], [], []⟩ .returned
      (.arg (.symbolRef { name := "IDENTITY" }) [] []) rfl rfl).mpr fun _ =>
      ⟨.inl (settledAfter_single 3 _), ?_⟩
    intro s hs
    obtain rfl : s = .const .sharedWithResult := List.mem_singleton.mp hs
    exact .inr (.const (List.mem_singleton_self _) le_rfl)

/-- `(fn [p] (retain p))`: the alias keeps nothing of the use, and neither does the literal
in `(fn [p] (retain [p]))`. -/
theorem alias_and_literal_weaken :
    let p : Symbol := { name := "P" }
    let retain : Symbol := { name := "RETAIN" }
    let effect (body : List Ast) := effectForArg (inferSummary {} none ⟨[.symbol p], false⟩ body) 0
    let C : Context := ⟨[], [.arg (.symbolRef retain) [] []], []⟩
    C.position.use? = some (.passed (some retain) false 0) ∧
      effect (C.fill (.symbolRef p)) = .retained ∧
      ¬effect (C.fill (.symbolRef p)) ≤
      effect (aliasBody p { name := "X" } (C.fill (.symbolRef p))) ∧
      ¬effect (C.fill (.symbolRef p)) ≤
      effect (C.fill ((Frame.vectorElement [] []).plug (.symbolRef p))) := by
  decide +kernel

end Aliases

end Fol.Escape
