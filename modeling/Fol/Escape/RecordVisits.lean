/-
Fol.Escape.RecordVisits — which functions are inlined into a loop whose record accumulator is
unboxed.

The rewriter calls itself on parts of the body and on the registered bodies of functions. Its calls
are read off the tree (`RecordVisit.subs`): where the attempt succeeds, a function has been inlined
exactly if some visit that is reached from the body expands a call of it.

  §1 Visits   — `RecordVisit`, `Inlines`.
  §2 Logs     — `Adds`: what a part of the rewriter adds to the names it keeps.
  §3 Rewriter — `expand_adds`, `rewrite_adds`.
  §4 Loops    — `Recorded`: what a converted loop assumes and what has been inlined into it.
-/
import Mathlib.Logic.Relation
import Fol.Escape.RecordLoop

namespace Fol.Escape

/-! ## §1 Visits -/

/-- A call of `expand-acc`, or of `rw` outside the loops inside the body. -/
inductive RecordVisit where
  | expand (n : Ast)
  | rewrite (n : Ast)

section Visits

variable (acc : RecordAcc) (fns : InlinableFns)

/-- The registered function that the node calls, with its parameters and body. -/
def registered (n : Ast) : Option (Symbol × List Symbol × Ast) :=
  n.operatorSymbol.bind fun f => (fns f).map (f, ·)

namespace RecordVisit

/-- The function that is inlined. -/
def own : RecordVisit → Option Symbol
  | .expand n => (registered fns n).map Prod.fst
  | .rewrite _ => none

/-- The values of the fields that a constructor or an `assoc` gives. -/
def fieldSubs (n : Ast) (args : List Ast) : List RecordVisit :=
  if acc.isCtor n then
    (srCtorFields args).elim [] fun cf => acc.fields.map fun f =>
    .rewrite ((cf.lookup f.1).getD (.literal .nil))
  else
    match namedArgs "ASSOC" n with
    | some (_ :: kvs) =>
      (srUpdates acc.fields kvs).elim [] fun updates =>
        acc.fields.filterMap fun f => (updates.lookup f.1).map .rewrite
    | _ => []

/-- The visits that a visit makes. An inlined call visits the body of the function and the record
argument. -/
def subs : RecordVisit → List RecordVisit
  | .expand n =>
    match n with
    | .call _ args =>
      match registered fns n with
      | some (_, _, fbody) => .expand fbody :: args.map .expand
      | none => fieldSubs acc n args
    | .bind bindings body => bindings.map (fun b => .rewrite b.2) ++ body.map .expand
    | .doNode body => body.map .expand
    | .ifNode test thn els =>
        [.rewrite test, .expand thn, .expand (els.headD (.symbolRef acc.pname))]
    | .cond clauses =>
      clauses.map (fun c => .rewrite c.1) ++ clauses.map fun c =>
        .expand (c.2.headD (.literal .nil))
    | .case expr clauses => .rewrite expr :: clauses.map fun c =>
        .expand (c.2.headD (.literal .nil))
    | _ => []
  | .rewrite n =>
    match n with
    | .recur args => args.zipIdx.map fun a => if a.2 = acc.pos then .expand a.1 else .rewrite a.1
    | .loop bindings _ => bindings.map fun b => .rewrite b.2
    | .call op args => .rewrite op :: args.map .rewrite
    | .ifNode test thn els => .rewrite test :: .rewrite thn :: els.map .rewrite
    | .doNode body => body.map .rewrite
    | .bind bindings body => bindings.map (fun b => .rewrite b.2) ++ body.map .rewrite
    | .cond clauses => clauses.flatMap fun c => .rewrite c.1 :: c.2.map .rewrite
    | .case expr clauses => .rewrite expr :: clauses.flatMap fun c => c.2.map .rewrite
    | _ => []

end RecordVisit

/-- A call of the function is expanded on a visit that this one leads to. -/
def Inlines (v : RecordVisit) (f : Symbol) : Prop :=
  ∃ w, Relation.ReflTransGen (fun v w => w ∈ v.subs acc fns) v w ∧ w.own fns = some f

theorem inlines_iff {v : RecordVisit} {f : Symbol} :
    Inlines acc fns v f ↔ v.own fns = some f ∨ ∃ w ∈ v.subs acc fns, Inlines acc fns w f := by
  constructor
  · rintro ⟨w, hvw, hw⟩
    rcases Relation.ReflTransGen.cases_head hvw with rfl | ⟨u, hu, huw⟩
    · exact .inl hw
    · exact .inr ⟨u, hu, w, huw, hw⟩
  · rintro (hv | ⟨u, hu, w, huw, hw⟩)
    · exact ⟨v, .refl, hv⟩
    · exact ⟨w, .head hu huw, hw⟩

end Visits

/-! ## §2 Logs -/

/-- A part of the rewriter that succeeds adds these names, and its result is as `R` says. -/
def Adds {α : Type} (m : Expander α) (P : Symbol → Prop) (R : α → Prop := fun _ => True) : Prop :=
  ∀ log r log', m.run log = .ok (r, log') → R r ∧ ∀ f, f ∈ log' ↔ f ∈ log ∨ P f

section Logs

variable {α β : Type} {m : Expander α} {k : α → Expander β} {P Q : Symbol → Prop} {R : α → Prop}
    {R' : β → Prop}

theorem Adds.congr (h : Adds m P R) (hPQ : ∀ f, P f ↔ Q f) : Adds m Q R := fun log r log' hrun =>
  ⟨(h log r log' hrun).1, fun f => by rw [(h log r log' hrun).2 f, hPQ]⟩

theorem adds_pure {a : α} (ha : R a) : Adds (pure a) (fun _ => False) R := by
  intro log r log' h
  cases h
  exact ⟨ha, by simp⟩

theorem adds_failed : Adds (failed : Expander α) P R := fun _ _ _ h => by cases h

theorem Adds.bind (hm : Adds m P R) (hk : ∀ a, R a → Adds (k a) Q R') :
    Adds (m >>= k) (fun f => P f ∨ Q f) R' := by
  intro log r log' h
  rw [StateT.run_bind] at h
  cases hrun : m.run log with
  | error e => rw [hrun] at h; cases h
  | ok p =>
    obtain ⟨a, mid⟩ := p
    rw [hrun] at h
    obtain ⟨ha, hmid⟩ := hm log a mid hrun
    obtain ⟨hr, hlog⟩ := hk a ha mid r log' h
    exact ⟨hr, fun f => by rw [hlog, hmid, or_assoc]⟩

/-- Before a part that adds nothing. -/
theorem Adds.bind_pure (hm : Adds m P R) (hk : ∀ a, R a → Adds (k a) (fun _ => False) R') :
    Adds (m >>= k) P R' :=
  (hm.bind hk).congr fun _ => or_iff_left id

theorem Adds.weaken (h : Adds m P R) :
    Adds m P := fun log r log' hrun => ⟨trivial, (h log r log' hrun).2⟩

theorem adds_mapM {γ : Type} {g : γ → Expander α} {P : γ → Symbol → Prop} {l : List γ}
    (h : ∀ x ∈ l, Adds (g x) (P x)) :
    Adds (l.mapM g) (fun f => ∃ x ∈ l, P x f) fun rs => rs.length = l.length := by
  induction l with
  | nil =>
    rw [List.mapM_nil]
    exact Adds.congr (P := fun _ => False) (adds_pure rfl) (by simp)
  | cons x l ih =>
    rw [List.mapM_cons]
    refine ((h x List.mem_cons_self).bind fun a _ =>
      (ih fun y hy => h y (List.mem_cons_of_mem _ hy)).bind_pure fun as has =>
        adds_pure ?_).congr ?_
    · simp [has]
    · simp

end Logs

/-! ## §3 Rewriter -/

section Rewriter

variable {acc : RecordAcc} {fns : InlinableFns} {fuel : Nat} {aliases : List Symbol}
    {overrides : Overrides}

theorem adds_rwList {rw : Bool → Ast → Expander Ast} {P : Ast → Symbol → Prop} {l : List Ast}
    (h : ∀ b, ∀ n ∈ l, Adds (rw b n) (P n)) (tailp : Bool) :
    Adds (rwList rw tailp l) fun f => ∃ n ∈ l, P n f := by
  induction l with
  | nil => exact Adds.congr (P := fun _ => False) (adds_pure trivial) (by simp)
  | cons n l ih =>
    rw [rwList]
    refine ((h _ n List.mem_cons_self).bind fun _ _ =>
      (ih fun b m hm => h b m (List.mem_cons_of_mem _ hm)).bind_pure fun _ _ =>
        adds_pure trivial).congr ?_
    simp

theorem adds_rwRecurArgs {expand : Ast → Expander (List Ast × List (List (Pattern × Ast)))}
    {rw : Ast → Expander Ast} {P Q : Ast → Symbol → Prop} (hexpand : ∀ a, Adds (expand a) (P a))
    (hrw : ∀ a, Adds (rw a) (Q a)) (pos i : Nat) (args : List Ast) :
    Adds (rwRecurArgs expand rw pos i args) fun f =>
      ∃ q ∈ args.zipIdx i, (q.2 = pos ∧ P q.1 f) ∨ (q.2 ≠ pos ∧ Q q.1 f) := by
  induction args generalizing i with
  | nil => exact Adds.congr (P := fun _ => False) (adds_pure trivial) (by simp)
  | cons a args ih =>
    rw [rwRecurArgs]
    split
    case isTrue hi =>
      refine ((hexpand a).bind fun _ _ => (ih (i + 1)).bind_pure fun _ _ =>
        adds_pure trivial).congr ?_
      simp [hi]
    case isFalse hi =>
      refine ((hrw a).bind fun _ _ => (ih (i + 1)).bind_pure fun _ _ => adds_pure trivial).congr ?_
      simp [hi]

theorem adds_paramLayer {rw : Ast → Expander Ast} {accIdx i : Nat} {ps : List (Symbol × Ast)}
    (h : ∀ q ∈ ps.zipIdx i, q.2 ≠ accIdx → Adds (rw q.1.2) fun _ => False) :
    Adds (paramLayer rw accIdx i ps) fun _ => False := by
  induction ps generalizing i with
  | nil => exact adds_pure trivial
  | cons q ps ih =>
    obtain ⟨p, a⟩ := q
    have hrest := ih (i := i + 1) fun q hq => h q (by simp [hq])
    rw [paramLayer]
    split
    case isTrue => exact hrest
    case isFalse hi =>
      exact (((h ((p, a), i) (by simp) hi).bind_pure fun _ _ => hrest.bind_pure fun _ _ =>
        adds_pure trivial))

/-- What the rewriter inlines on a visit is what is inlined on the visits that it leads to. -/
structure Faithful (acc : RecordAcc) (fns : InlinableFns) (fuel : Nat) : Prop where
  expand : ∀ aliases wrappers overrides n,
    Adds (srExpandAcc acc fns fuel aliases wrappers overrides n) (Inlines acc fns (.expand n))
  rewrite : ∀ aliases overrides tailp n,
    Adds (srRewrite acc fns fuel aliases overrides false tailp n) (Inlines acc fns (.rewrite n))
  nested : ∀ aliases overrides tailp n,
    Adds (srRewrite acc fns fuel aliases overrides true tailp n) fun _ => False

theorem not_inlines_of_leaf {n : Ast} (hn : n.isRefOrLiteral) (f : Symbol) :
    ¬ Inlines acc fns (.expand n) f ∧ ¬ Inlines acc fns (.rewrite n) f := by
  rw [inlines_iff, inlines_iff]
  cases n <;> simp_all [Ast.isRefOrLiteral, RecordVisit.own, RecordVisit.subs, registered,
    Ast.operatorSymbol]

theorem nested_adds (h : Faithful acc fns fuel) (tailp : Bool) (n : Ast) :
    Adds (srRewrite acc fns (fuel + 1) aliases overrides true tailp n) fun _ => False := by
  have hlist : ∀ (ns : List Ast) (tailp : Bool),
      Adds (rwList (srRewrite acc fns fuel aliases overrides true) tailp ns) fun _ => False :=
      fun ns tailp =>
    (adds_rwList (fun b n _ => h.nested aliases overrides b n) tailp).congr (by simp)
  have hmap : ∀ {γ δ : Type} {xs : List γ} {g : γ → Expander δ}, (∀ x, Adds (g x) fun _ => False) →
      Adds (xs.mapM g) fun _ => False :=
      fun hg => ((adds_mapM fun x _ => hg x).congr (by simp)).weaken
  have hbindings : ∀ bs : List (Pattern × Ast),
      Adds (bs.mapM fun b => do return (b.1, ← srRewrite acc fns fuel aliases overrides true false
        b.2)) fun _ => False :=
    fun bs => hmap fun b => (h.nested _ _ _ _).bind_pure fun _ _ => adds_pure trivial
  cases n <;> unfold srRewrite <;> simp only [if_true]
  case literal => exact adds_pure trivial
  case quote => exact adds_pure trivial
  case symbolRef s =>
    split
    · simp only [Bool.not_true, Bool.and_false, Bool.false_eq_true, if_false]
      exact adds_failed
    · exact adds_pure trivial
  case recur args => exact (hmap fun a => h.nested _ _ _ a).bind_pure fun _ _ => adds_pure trivial
  case loop bindings body =>
    split
    · exact adds_failed
    · exact (hbindings bindings).bind_pure fun _ _ => (hlist body true).bind_pure fun _ _ =>
        adds_pure trivial
  case call op args =>
    split
    · split <;> [exact adds_pure trivial; exact adds_failed]
    · exact (h.nested _ _ _ op).bind_pure fun _ _ =>
        (hmap fun a => h.nested _ _ _ a).bind_pure fun _ _ => adds_pure trivial
  case ifNode test thn els =>
    exact (h.nested _ _ _ test).bind_pure fun _ _ => (h.nested _ _ _ thn).bind_pure fun _ _ =>
      (hlist els tailp).bind_pure fun _ _ => adds_pure trivial
  case doNode body => exact (hlist body tailp).bind_pure fun _ _ => adds_pure trivial
  case bind bindings body =>
    split
    · exact adds_failed
    · exact (hbindings bindings).bind_pure fun _ _ => (hlist body tailp).bind_pure fun _ _ =>
        adds_pure trivial
  case cond clauses =>
    refine (hmap fun c => ?_).bind_pure fun _ _ => adds_pure trivial
    exact (h.nested _ _ _ c.1).bind_pure fun _ _ => (hlist c.2 tailp).bind_pure fun _ _ =>
      adds_pure trivial
  case case expr clauses =>
    refine (h.nested _ _ _ expr).bind_pure fun _ _ => (hmap fun c => ?_).bind_pure fun _ _ =>
      adds_pure trivial
    exact (hlist c.2 tailp).bind_pure fun _ _ => adds_pure trivial
  all_goals (split <;> [exact adds_failed; exact adds_pure trivial])

theorem srGetOfAlias_leaves {op : Ast} {args : List Ast} {q : Symbol × String}
    (h : srGetOfAlias aliases (.call op args) = some q) :
    ∀ a ∈ op :: args, a.isRefOrLiteral = true := by
  unfold srGetOfAlias at h
  split at h
  next hargs =>
    cases op with
    | symbolRef s =>
      simp only [namedArgs, Option.ite_none_right_eq_some, Option.some.injEq] at hargs
      rw [hargs.2]
      simp [Ast.isRefOrLiteral]
    | _ => simp [namedArgs] at hargs
  next => cases h

theorem rewrite_adds (h : Faithful acc fns fuel) (tailp : Bool) (n : Ast) :
    Adds (srRewrite acc fns (fuel + 1) aliases overrides false tailp n)
    (Inlines acc fns (.rewrite n)) := by
  have hsubs : ∀ f, Inlines acc fns (.rewrite n) f ↔
      ∃ w ∈ (RecordVisit.rewrite n).subs acc fns, Inlines acc fns w f := fun f => by
    rw [inlines_iff]
    exact or_iff_right fun hown => by cases hown
  have hlist : ∀ (ns : List Ast) (tailp : Bool),
      Adds (rwList (srRewrite acc fns fuel aliases overrides false) tailp ns)
        fun f => ∃ n ∈ ns, Inlines acc fns (.rewrite n) f := fun ns tailp =>
    adds_rwList (fun b n _ => h.rewrite aliases overrides b n) tailp
  have hbindings : ∀ bs : List (Pattern × Ast),
      Adds (bs.mapM fun b => do return (b.1, ← srRewrite acc fns fuel aliases overrides false false
        b.2))
        fun f => ∃ b ∈ bs, Inlines acc fns (.rewrite b.2) f := fun bs =>
    (adds_mapM fun b _ => (h.rewrite _ _ _ _).bind_pure fun _ _ => adds_pure trivial).weaken
  refine Adds.congr ?_ fun f => (hsubs f).symm
  cases n <;> unfold srRewrite
    <;> simp only [Bool.false_eq_true, if_false, Bool.not_false, Bool.and_true] <;>
    clear hsubs
  case literal => exact (adds_pure trivial).congr (by simp [RecordVisit.subs])
  case quote => exact (adds_pure trivial).congr (by simp [RecordVisit.subs])
  case symbolRef s =>
    have hnone : ∀ m : Ast, Adds (pure m : Expander Ast)
        fun f => ∃ w ∈ (RecordVisit.rewrite (.symbolRef s)).subs acc fns, Inlines acc fns w f :=
        fun m =>
      (adds_pure trivial).congr (by simp [RecordVisit.subs])
    split
    · split <;> [exact hnone _; exact adds_failed]
    · exact hnone _
  case recur args =>
    refine ((adds_rwRecurArgs (h.expand aliases [] overrides) (h.rewrite aliases overrides false)
      acc.pos 0 args).bind_pure
      fun _ _ => adds_pure trivial).congr fun f => ?_
    simp only [RecordVisit.subs, List.mem_map, exists_exists_and_eq_and]
    refine exists_congr fun q => and_congr_right fun _ => ?_
    by_cases hq : q.2 = acc.pos <;> simp [hq]
  case loop bindings body =>
    split
    · exact adds_failed
    · have hbody : Adds (rwList (srRewrite acc fns fuel aliases overrides true) true body) fun _ =>
        False :=
        (adds_rwList (fun b n _ => h.nested aliases overrides b n) true).congr (by simp)
      exact ((hbindings bindings).bind_pure fun _ _ => hbody.bind_pure fun _ _ =>
        adds_pure trivial).congr
        (by simp [RecordVisit.subs])
  case call op args =>
    split
    case h_1 q hget =>
      have hnone : ∀ m : Ast, Adds (pure m : Expander Ast)
          fun f => ∃ w ∈ (RecordVisit.rewrite (.call op args)).subs acc fns,
          Inlines acc fns w f := by
        refine fun m => Adds.congr (P := fun _ => False) (adds_pure trivial) fun f =>
          (iff_of_false id ?_)
        rintro ⟨w, hw, hf⟩
        have hw : w ∈ (op :: args).map RecordVisit.rewrite := hw
        obtain ⟨a, ha, rfl⟩ := List.mem_map.mp hw
        exact (not_inlines_of_leaf (srGetOfAlias_leaves hget a ha) f).2 hf
      split <;> [exact hnone _; exact adds_failed]
    case h_2 =>
      refine ((h.rewrite _ _ _ op).bind fun _ _ =>
        (adds_mapM fun a _ => h.rewrite aliases overrides false a).bind_pure
        fun _ _ => adds_pure trivial).congr (by simp [RecordVisit.subs])
  case ifNode test thn els =>
    exact ((h.rewrite _ _ _ test).bind fun _ _ => (h.rewrite _ _ _ thn).bind fun _ _ =>
      (hlist els tailp).bind_pure fun _ _ => adds_pure trivial).congr (by simp [RecordVisit.subs])
  case doNode body =>
    exact ((hlist body tailp).bind_pure fun _ _ => adds_pure trivial).congr
      (by simp [RecordVisit.subs])
  case bind bindings body =>
    split
    · exact adds_failed
    · exact ((hbindings bindings).bind fun _ _ => (hlist body tailp).bind_pure fun _ _ =>
        adds_pure trivial).congr
        (by simp [RecordVisit.subs, or_and_right, exists_or])
  case cond clauses =>
    refine ((adds_mapM (P := fun c f => Inlines acc fns (.rewrite c.1) f ∨ ∃ n ∈ c.2,
      Inlines acc fns (.rewrite n) f)
      fun c _ => ?_).bind_pure fun _ _ => adds_pure trivial).congr fun f => ?_
    rotate_left
    · simp only [RecordVisit.subs, List.mem_flatMap, List.mem_cons, List.mem_map]
      constructor
      · rintro ⟨c, hc, hf | ⟨n, hn, hf⟩⟩
        · exact ⟨_, ⟨c, hc, .inl rfl⟩, hf⟩
        · exact ⟨_, ⟨c, hc, .inr ⟨n, hn, rfl⟩⟩, hf⟩
      · rintro ⟨_, ⟨c, hc, rfl | ⟨n, hn, rfl⟩⟩, hf⟩
        · exact ⟨c, hc, .inl hf⟩
        · exact ⟨c, hc, .inr ⟨n, hn, hf⟩⟩
    exact (h.rewrite _ _ _ c.1).bind fun _ _ => (hlist c.2 tailp).bind_pure fun _ _ =>
      adds_pure trivial
  case case expr clauses =>
    have hclauses := adds_mapM (l := clauses) fun c _ =>
      (hlist c.2 tailp).bind_pure (k := fun body => pure (c.1, body)) fun _ _ =>
        adds_pure (R := fun _ => True) trivial
    refine ((h.rewrite _ _ _ expr).bind fun _ _ => hclauses.bind_pure fun _ _ =>
      adds_pure trivial).congr fun f => ?_
    simp only [RecordVisit.subs, List.exists_mem_cons_iff]
    refine or_congr_right ⟨?_, ?_⟩
    · rintro ⟨c, hc, n, hn, hf⟩
      exact ⟨_, List.mem_flatMap.mpr ⟨c, hc, List.mem_map_of_mem hn⟩, hf⟩
    · rintro ⟨w, hw, hf⟩
      obtain ⟨c, hc, hw⟩ := List.mem_flatMap.mp hw
      obtain ⟨n, hn, rfl⟩ := List.mem_map.mp hw
      exact ⟨c, hc, n, hn, hf⟩
  all_goals
    split
    · exact adds_failed
    · exact Adds.congr (P := fun _ => False) (adds_pure trivial) (by simp [RecordVisit.subs])

theorem two_le_countP {α : Type} {p : α → Bool} {xs : List α} {i j : Nat} {a b : α} (hij : i < j)
    (hi : xs[i]? = some a) (ha : p a) (hj : xs[j]? = some b) (hb : p b) : 2 ≤ xs.countP p := by
  have hleft : a ∈ xs.take (i + 1) :=
    List.mem_of_getElem? (i := i) (by rw [List.getElem?_take_of_lt (by omega), hi])
  have hright : b ∈ xs.drop (i + 1) := List.mem_of_getElem? (i := j - (i + 1))
    (by rw [List.getElem?_drop, Nat.add_sub_cancel' hij, hj])
  have h₁ := List.countP_pos_iff.mpr ⟨a, hleft, ha⟩
  have h₂ := List.countP_pos_iff.mpr ⟨b, hright, hb⟩
  rw [← List.take_append_drop (i + 1) xs, List.countP_append]
  omega

/-- The record argument of an inlined call is the only one that is no variable and no literal, if it
is one. -/
theorem inlineAccIdx_args {params : List Symbol} {args : List Ast} {i : Nat} {bare : Bool}
    (h : inlineAccIdx acc aliases params args = some (i, bare)) :
    (∀ j a, args[j]? = some a → j ≠ i → a.isRefOrLiteral = true) ∧
      ∃ a, args[i]? = some a ∧ (bare = true → a.isRefOrLiteral = true) := by
  unfold inlineAccIdx at h
  simp only [Option.ite_none_right_eq_some] at h
  obtain ⟨⟨-, hone, hall⟩, h⟩ := h
  have hplain : ∀ a ∈ args, ¬ srAssocAliasP acc.fields aliases a → a.isRefOrLiteral = true :=
    fun a ha hno => by
    simpa [hno] using List.all_eq_true.mp hall a ha
  cases hbare : args.findIdx? (srAliasP aliases) with
  | some k =>
    rw [hbare] at h
    obtain ⟨rfl, rfl⟩ := Prod.mk.inj (Option.some.inj h)
    obtain ⟨hk, hp, -⟩ := List.findIdx?_eq_some_iff_getElem.mp hbare
    have hpos : 0 < args.countP (srAliasP aliases) :=
      List.countP_pos_iff.mpr ⟨_, List.getElem_mem hk, hp⟩
    have hnone : ∀ a ∈ args, ¬ srAssocAliasP acc.fields aliases a :=
      List.countP_eq_zero.mp (by omega)
    refine ⟨fun j a ha _ => hplain a (List.mem_of_getElem? ha) (hnone a (List.mem_of_getElem? ha)),
      args[k], List.getElem?_eq_getElem hk,
      fun _ => hplain _ (List.getElem_mem hk) (hnone _ (List.getElem_mem hk))⟩
  | none =>
    rw [hbare] at h
    obtain ⟨k, hassoc, heq⟩ := Option.map_eq_some_iff.mp h
    obtain ⟨rfl, rfl⟩ := Prod.mk.inj heq
    obtain ⟨hk, hp, -⟩ := List.findIdx?_eq_some_iff_getElem.mp hassoc
    refine ⟨fun j a ha hj => hplain a (List.mem_of_getElem? ha) fun hp' => ?_, args[k],
      List.getElem?_eq_getElem hk, fun hfalse => by cases hfalse⟩
    have hk' := List.getElem?_eq_getElem hk
    rcases Nat.lt_or_gt_of_ne hj with hlt | hlt
    · exact absurd (two_le_countP hlt ha hp' hk' hp) (by omega)
    · exact absurd (two_le_countP hlt hk' hp ha hp') (by omega)

theorem exists_mem_zip {α β : Type} {xs : List α} {ys : List β} {Q : β → Prop}
    (h : xs.length = ys.length) :
    (∃ q ∈ xs.zip ys, Q q.2) ↔ ∃ y ∈ ys, Q y := by
  conv_rhs => rw [← List.map_snd_zip h.ge]
  simp only [List.mem_map, exists_exists_and_eq_and]

theorem exists_and_const_of {α : Type} {P : α → Prop} {Q : Prop} (h : ∃ a, P a) :
    (∃ a, P a ∧ Q) ↔ Q := by
  rw [exists_and_right]
  exact and_iff_right h

theorem unwrapped_adds (values : List Ast × List (List (Pattern × Ast))) :
    Adds (unwrapped values) fun _ => False := by
  unfold unwrapped
  split <;> [exact adds_pure trivial; exact adds_failed]

theorem adds_modify (f : Symbol) : Adds (modify (f :: ·) : Expander PUnit) (· = f) := by
  intro log r log' h
  cases h
  exact ⟨trivial, fun g => by rw [List.mem_cons, or_comm]⟩

/-- A constructor, or an `assoc` of an alias. -/
theorem fields_adds (h : Faithful acc fns fuel) {wrappers : List (List (Pattern × Ast))} (n : Ast)
    (args : List Ast) :
    Adds (if acc.isCtor n then do
        match srCtorFields args with
        | some cf =>
          if cf ≠ [] ∧ srFieldsMatch acc.fields cf then
            return (← acc.fields.mapM fun f => srRewrite acc fns fuel aliases overrides false false
              ((cf.lookup f.1).getD (.literal .nil)), wrappers)
          else failed
        | none => failed
      else
        match namedArgs "ASSOC" n with
        | some (.symbolRef base :: kvs) =>
          if aliases.contains base then
            match srUpdates acc.fields kvs with
            | some updates => do
              let nodes ← acc.fields.mapM fun f =>
                match updates.lookup f.1 with
                | some v => srRewrite acc fns fuel aliases overrides false false v
                | none => return fieldNode acc overrides base f
              return (nodes, wrappers)
            | none => failed
          else failed
        | _ => failed) fun f => ∃ w ∈ RecordVisit.fieldSubs acc n args, Inlines acc fns w f := by
  unfold RecordVisit.fieldSubs
  split
  · cases srCtorFields args with
    | none => exact adds_failed
    | some cf =>
      dsimp only
      split
      · exact ((adds_mapM fun f _ => h.rewrite _ _ _ _).bind_pure fun _ _ =>
          adds_pure trivial).congr (by simp)
      · exact adds_failed
  · cases namedArgs "ASSOC" n with
    | none => exact adds_failed
    | some as =>
      cases as with
      | nil => exact adds_failed
      | cons a kvs =>
        cases a <;> try exact adds_failed
        dsimp only
        split
        · cases srUpdates acc.fields kvs with
          | none => exact adds_failed
          | some updates =>
            refine ((adds_mapM (P := fun fl f => ∃ v, updates.lookup fl.1 = some v ∧
              Inlines acc fns (.rewrite v) f)
              fun fl _ => ?_).bind_pure fun _ _ => adds_pure trivial).congr ?_
            · cases updates.lookup fl.1 with
              | none => exact Adds.congr (P := fun _ => False) (adds_pure trivial) (by simp)
              | some v => exact (h.rewrite _ _ _ v).congr (by simp)
            · simp only [Option.elim_some, List.mem_filterMap, Option.map_eq_some_iff]
              refine fun f => ⟨?_, ?_⟩
              · rintro ⟨fl, hfl, v, hv, hf⟩
                exact ⟨_, ⟨fl, hfl, v, hv, rfl⟩, hf⟩
              · rintro ⟨_, ⟨fl, hfl, v, hv, rfl⟩, hf⟩
                exact ⟨fl, hfl, v, hv, hf⟩
        · exact adds_failed

theorem expand_adds (hfields : acc.fields ≠ []) (h : Faithful acc fns fuel)
    (wrappers : List (List (Pattern × Ast))) (n : Ast) :
    Adds (srExpandAcc acc fns (fuel + 1) aliases wrappers overrides n)
    (Inlines acc fns (.expand n)) := by
  have hsubs : registered fns n = none → ∀ f, Inlines acc fns (.expand n) f ↔
      ∃ w ∈ (RecordVisit.expand n).subs acc fns, Inlines acc fns w f := fun hn f => by
    rw [inlines_iff]
    exact or_iff_right fun hown => by simp [RecordVisit.own, hn] at hown
  have hbranch : ∀ a, Adds (srExpandAcc acc fns fuel aliases wrappers overrides a >>= unwrapped)
      (Inlines acc fns (.expand a)) :=
      fun a => (h.expand _ _ _ a).bind_pure fun _ _ => unwrapped_adds _
  have hsome : ∃ i, i ∈ List.range acc.fields.length :=
    ⟨0, List.mem_range.mpr (List.length_pos_iff.mpr hfields)⟩
  cases n <;> unfold srExpandAcc <;> try exact adds_failed
  case symbolRef s =>
    simp only
    split
    · exact Adds.congr (adds_pure trivial) fun f => by simp [hsubs rfl, RecordVisit.subs]
    · exact adds_failed
  case doNode body =>
    cases body with
    | nil => exact adds_failed
    | cons b bs =>
      cases bs with
      | nil => exact (h.expand _ _ _ b).congr fun f => by simp [hsubs rfl, RecordVisit.subs]
      | cons b' bs => exact adds_failed
  case bind bindings body =>
    cases body with
    | nil => exact adds_failed
    | cons b bs =>
      cases bs with
      | cons b' bs => exact adds_failed
      | nil =>
        refine ((adds_mapM (P := fun b f => Inlines acc fns (.rewrite b.2) f) fun b _ => ?_).bind
          fun layer _ =>
          h.expand aliases (wrappers ++ [layer]) overrides b).congr fun f => ?_
        · split
          · split
            · exact adds_failed
            · exact (h.rewrite _ _ _ b.2).bind_pure fun _ _ =>
                adds_pure (R := fun _ => True) trivial
          · exact adds_failed
        · rw [hsubs rfl]
          simp [RecordVisit.subs, or_and_right, exists_or]
  case ifNode test thn els =>
    refine ((h.rewrite _ _ _ test).bind fun _ _ => (h.expand _ _ _ thn).bind fun v _ =>
      (unwrapped_adds v).bind fun _ _ =>
      (h.expand _ _ _ _).bind fun v _ => (unwrapped_adds v).bind_pure fun _ _ =>
        adds_pure trivial).congr fun f => ?_
    rw [hsubs rfl]
    simp [RecordVisit.subs]
  case cond clauses =>
    have hvalues := adds_mapM (l := clauses) fun c _ => hbranch (c.2.headD (.literal .nil))
    refine (hvalues.bind fun values hlength => Adds.bind_pure
      (P := fun f => ∃ c ∈ clauses, Inlines acc fns (.rewrite c.1) f) (R := fun _ => True) ?_
      fun _ _ => adds_pure trivial).congr fun f => ?_
    · refine (adds_mapM (P := fun _ f => ∃ q ∈ values.zip clauses,
        Inlines acc fns (.rewrite q.2.1) f)
        fun i _ => ?_).weaken.congr fun f => ?_
      · exact (adds_mapM fun q _ => (h.rewrite aliases overrides false q.2.1).bind_pure fun _ _ =>
          adds_pure (R := fun _ => True) trivial).bind_pure fun _ _ => adds_pure trivial
      · rw [exists_and_const_of hsome,
          exists_mem_zip hlength (Q := fun c => Inlines acc fns (.rewrite c.1) f)]
    · rw [hsubs rfl]
      simp only [RecordVisit.subs, List.mem_append, List.mem_map, or_and_right, exists_or,
        exists_exists_and_eq_and]
      exact or_comm
  case case expr clauses =>
    have hvalues := adds_mapM (l := clauses) fun c _ => hbranch (c.2.headD (.literal .nil))
    refine (hvalues.bind fun values hlength => Adds.bind_pure (P := Inlines acc fns (.rewrite expr))
      (R := fun _ => True) ?_ fun _ _ => adds_pure trivial).congr fun f => ?_
    · refine (adds_mapM fun i _ => (h.rewrite aliases overrides false expr).bind_pure fun _ _ =>
        adds_pure (R := fun _ => True) trivial).weaken.congr fun f => ?_
      rw [exists_and_const_of hsome]
    · rw [hsubs rfl]
      simp only [RecordVisit.subs, List.exists_mem_cons_iff, List.mem_map, exists_exists_and_eq_and]
      exact or_comm
  case call op args =>
    dsimp only
    cases hreg : registered fns (.call op args) with
    | none =>
      rw [show (Ast.operatorSymbol (.call op args)).bind (fun f => (fns f).map (f, ·)) = none
        from hreg]
      dsimp only
      refine Adds.congr ?_ fun f => (hsubs hreg f).symm
      have hfield : (RecordVisit.expand (.call op args)).subs acc fns =
          RecordVisit.fieldSubs acc (.call op args) args := by
        simp only [RecordVisit.subs, hreg]
      rw [hfield]
      exact fields_adds h _ args
    | some q =>
      obtain ⟨f, params, fbody⟩ := q
      rw [show (Ast.operatorSymbol (.call op args)).bind (fun f => (fns f).map (f, ·)) =
        some (f, params, fbody) from hreg]
      dsimp only
      split
      next accIdx bare p₀ ps hacc =>
        obtain ⟨hothers, a, ha, hleaf⟩ := inlineAccIdx_args hacc
        have hlayer :
          Adds (paramLayer (srRewrite acc fns fuel aliases overrides false false) accIdx 0
            ((p₀ :: ps).zip args)) fun _ => False := by
          refine adds_paramLayer fun q hq hne => (h.rewrite _ _ _ _).congr fun g =>
            iff_of_false ?_ id
          have hget : ((p₀ :: ps).zip args)[q.2]? = some q.1 := List.mem_zipIdx_iff_getElem?.mp hq
          exact (not_inlines_of_leaf
            (hothers q.2 q.1.2 (List.getElem?_zip_eq_some.mp hget).2 hne) g).2
        have hargs : ∀ g, (∃ b ∈ args, Inlines acc fns (.expand b) g) ↔
          Inlines acc fns (.expand a) g := by
          refine fun g => ⟨?_, fun hg => ⟨a, List.mem_of_getElem? ha, hg⟩⟩
          rintro ⟨b, hb, hg⟩
          obtain ⟨j, hj⟩ := List.mem_iff_getElem?.mp hb
          by_cases hji : j = accIdx
          · rw [hji, ha] at hj
            rwa [Option.some.inj hj]
          · exact absurd hg (not_inlines_of_leaf (hothers j b hj hji) g).1
        have hall : ∀ g, Inlines acc fns (.expand (.call op args)) g ↔
            g = f ∨ Inlines acc fns (.expand a) g ∨ Inlines acc fns (.expand fbody) g := fun g => by
          rw [inlines_iff, ← hargs, or_comm (a := ∃ b ∈ args, _)]
          simp [RecordVisit.own, RecordVisit.subs, hreg, eq_comm]
        refine Adds.congr ?_ fun g => (hall g).symm
        refine (adds_modify f).bind fun _ _ => (hlayer.bind fun layer _ => ?_).congr fun g =>
          or_iff_right id
        split
        · exact adds_failed
        · cases bare with
          | true =>
            refine (h.expand _ _ _ fbody).congr fun g => (or_iff_right ?_).symm
            exact (not_inlines_of_leaf (hleaf rfl) g).1
          | false =>
            have hgetD :
              args.getD accIdx (.call op args) = a := by rw [List.getD_eq_getElem?_getD, ha]; rfl
            simp only [Bool.false_eq_true, if_false, hgetD, pure_bind]
            exact (h.expand _ _ _ a).bind fun _ _ => h.expand _ _ _ fbody
      next => exact adds_failed

theorem faithful (hfields : acc.fields ≠ []) (fuel : Nat) : Faithful acc fns fuel := by
  induction fuel with
  | zero =>
    refine ⟨fun _ _ _ _ => ?_, fun _ _ _ _ => ?_, fun _ _ _ _ => ?_⟩
      <;> first | unfold srExpandAcc | unfold srRewrite
    all_goals exact fun _ _ _ h => by cases h
  | succ fuel ih =>
    exact ⟨fun _ wrappers _ n => expand_adds hfields ih wrappers n,
      fun _ _ tailp n => rewrite_adds ih tailp n, fun _ _ tailp n => nested_adds ih tailp n⟩

end Rewriter

/-! ## §4 Loops -/

section Loops

variable {info : TypeInfo} {fns : InlinableFns} {fuel : Nat}

/-- A call of the function is expanded where the accumulator is unboxed. -/
def Unboxing.Inlines (fns : InlinableFns) (u : Unboxing) (f : Symbol) : Prop :=
  ∃ n ∈ u.body, Escape.Inlines u.acc fns (.rewrite n) f

/-- A loop assumes the classes of its unboxed accumulators, and has been inlined into what their
bodies call. -/
structure Recorded (fns : InlinableFns) (out : Unboxed) : Prop where
  assumptions : ∀ a, a ∈ out.assumptions ↔ ∃ u ∈ out.unboxings, u.type.name = a
  inlined : ∀ f, f ∈ out.inlined ↔ ∃ u ∈ out.unboxings, u.Inlines fns f

theorem recordInit_fields {init op : Ast} {type : Symbol} {fields : List (String × Symbol)}
    {ctorFields : Fields} (h : recordInit info init = some (type, fields, ctorFields, op)) :
    fields ≠ [] := by
  unfold recordInit at h
  cases init with
  | call op' args =>
    obtain ⟨type', -, h⟩ := Option.bind_eq_some_iff.mp h
    obtain ⟨fields', -, h⟩ := Option.bind_eq_some_iff.mp h
    obtain ⟨ctorFields', -, h⟩ := Option.bind_eq_some_iff.mp h
    split at h
    next hne =>
      obtain ⟨rfl, heq⟩ := Prod.mk.inj (Option.some.inj h)
      obtain ⟨rfl, -⟩ := Prod.mk.inj heq
      exact hne.1
    next => cases h
  | _ => cases h

theorem srTryAccumulator_recorded {bindings : List (Pattern × Ast)} {body : List Ast}
    {pname : Symbol} {pos : Nat} {init : Ast} {out : Unboxed}
    (h : srTryAccumulator info fns fuel bindings body pname pos init = .ok (some out)) :
    Recorded fns out := by
  unfold srTryAccumulator at h
  split at h
  · cases h
  next hinit =>
    dsimp only at h
    split at h
    · cases h
    · cases h
    next type fields ctorFields op _ _ _ hrun =>
      obtain rfl := Option.some.inj (Except.ok.inj h)
      have hacc : Faithful ⟨pname, pos, fields, op⟩ fns fuel :=
        faithful (recordInit_fields hinit) fuel
      have hadds := adds_rwList (l := body) (fun b n _ => hacc.rewrite [pname] [] b n) true
      refine ⟨fun a => by simp [eq_comm], fun f => ?_⟩
      rw [(hadds [] _ _ hrun).2 f]
      simp [Unboxing.Inlines]

theorem srReplaceFrom_recorded {bindings rest : List (Pattern × Ast)} {body : List Ast} {i : Nat}
    {out : Unboxed} (h : srReplaceFrom info fns fuel bindings body i rest = .ok (some out)) :
    Recorded fns out := by
  induction rest generalizing i with
  | nil => cases h
  | cons b rest ih =>
    obtain ⟨pattern, init⟩ := b
    cases pattern with
    | symbol pname =>
      rw [srReplaceFrom] at h
      cases htry : srTryAccumulator info fns fuel bindings body pname i init with
      | error e => rw [htry] at h; cases h
      | ok result =>
        rw [htry] at h
        cases result with
        | none => exact ih h
        | some out' =>
          obtain rfl := Option.some.inj (Except.ok.inj h)
          exact srTryAccumulator_recorded htry
    | tree mentions binds => exact ih h

theorem srRounds_recorded {budget : Nat} {current out : Unboxed}
    (h : srRounds info fns fuel budget current = .ok out) (hcurrent : Recorded fns current) :
    Recorded fns out := by
  induction budget generalizing current with
  | zero =>
    obtain rfl := Except.ok.inj h
    exact hcurrent
  | succ budget ih =>
    rw [srRounds] at h
    cases hone : srReplaceOne info fns fuel current.loop.1 current.loop.2 with
    | error e => rw [hone] at h; cases h
    | ok result =>
      rw [hone] at h
      cases result with
      | none =>
        obtain rfl := Except.ok.inj h
        exact hcurrent
      | some next =>
        have hnext := srReplaceFrom_recorded hone
        refine ih h ⟨fun a => ?_, fun f => ?_⟩
        · simp [List.mem_union_iff, hnext.assumptions, hcurrent.assumptions, or_and_right,
            exists_or, or_comm]
        · simp [hnext.inlined, hcurrent.inlined, or_and_right, exists_or]

/-- The record of a converted loop. -/
theorem maybeScalarReplaceLoop_recorded {flags : Flags} {bindings : List (Pattern × Ast)}
    {body : List Ast} {out : Unboxed}
    (h : maybeScalarReplaceLoop info fns fuel flags bindings body = .ok (some out)) :
    Recorded fns out := by
  unfold maybeScalarReplaceLoop at h
  split at h
  · cases hrounds : srRounds info fns fuel 128 { loop := (bindings, body) } with
    | error e => rw [hrounds] at h; cases h
    | ok out' =>
      rw [hrounds] at h
      change pure (if out'.assumptions.isEmpty then none else some out') = Except.ok (some out) at h
      split at h
      · cases h
      · obtain rfl := Option.some.inj (Except.ok.inj h)
        exact srRounds_recorded hrounds ⟨by simp, by simp⟩
  · cases h

end Loops

end Fol.Escape
