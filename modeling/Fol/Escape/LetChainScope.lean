/-
Fol.Escape.LetChainScope — when a folded bind of temporaries keeps its scope and its effects.

The fold looks at the last temporary only. That is enough if every other reference to a temporary
is the one in the next initialiser, and if whatever the fold moves an initialiser behind is silent.

  §1 Safety      — `FoldSafe`, `Foldable`.
  §2 References  — the references of a folded tree.
  §3 Sufficiency — `eval_foldLetExpand`.
  §4 Stamps      — an evaluator that dates every effect.
  §5 Theorem     — `foldSafe_iff`.
-/
import Fol.Escape.LetChain

namespace Fol.Escape

/-! ## §1 Safety -/

section Safety

variable (silent : Symbol → Bool)

/-- Every initialiser is put where it is evaluated as often as what it is put into. -/
def Kept (prev : Symbol) : List (Symbol × Ast) → Prop
  | [] => True
  | b :: bs => (ticksBefore silent prev b.2).isSome ∧ Kept b.1 bs

/-- The names of the temporaries. -/
def temporaries (var : Symbol) (bs : List (Symbol × Ast)) : List Symbol := var :: bs.map (·.1)

/-- The recur is as good as the bind: all initialisers are there, no reference is to a temporary, no
variable is free in it that was not, and the effects come in the same order with the same values. A
reference to a temporary is bound in the bind; in the recur it would be a free one more. -/
structure FoldSafe (var : Symbol) (init : Ast) (bs : List (Symbol × Ast)) (args : List Ast)
    (recur : Ast) : Prop where
  kept : Kept silent var bs
  closed : ∀ s ∈ temporaries var bs,
    (freeRefs recur).count s ≤
    (freeRefs (.bind (patterns ((var, init) :: bs)) [.recur args])).count s
  free : freeRefs recur ⊆ freeRefs (.bind (patterns ((var, init) :: bs)) [.recur args])
  order : ∀ (V W : Type) (S : Evaluator silent V W) (ρ : Symbol → V) (w : W),
    S.evalRecur ρ recur w = S.evalBind ρ ((var, init) :: bs) args w

/-- An initialiser refers to no temporary but the one before it. -/
def Scoped (bound : List Symbol) (prev : Symbol) : List (Symbol × Ast) → Prop
  | [] => True
  | b :: bs => (∀ s ∈ bound, s ∈ freeRefs b.2 → s = prev) ∧ Scoped (b.1 :: bound) b.1 bs

/-- Before the reference to the temporary nothing has an effect, or the initialisers so far have
none. -/
def Ordered (still : Bool) (prev : Symbol) : List (Symbol × Ast) → Prop
  | [] => True
  | b :: bs => (∃ t, ticksBefore silent prev b.2 = some t ∧ (t = 0 ∨ still = true)) ∧
    Ordered (still && silentNode silent b.2) b.1 bs

/-- The initialisers have no effect. -/
def silentInits (bs : List (Symbol × Ast)) : Bool := bs.all fun b => silentNode silent b.2

/-- What the fold does not look at. -/
structure Foldable (var : Symbol) (init : Ast) (bs : List (Symbol × Ast)) (args : List Ast) :
    Prop where
  refs : Scoped [var] var bs
  order : Ordered silent (silentNode silent init) var bs
  args_refs : ∀ a ∈ args, a ≠ .symbolRef (lastVar var bs) → ∀ s ∈ temporaries var bs, s ∉ freeRefs a
  args_order : silentList silent (args.takeWhile fun a => !a.isRef (lastVar var bs)) = true ∨
    silentInits silent ((var, init) :: bs) = true

end Safety

/-! ## §2 References -/

section References

variable {silent : Symbol → Bool} {cur : Symbol} {e : Ast}

theorem freeRefsList_append (ns ms : List Ast) :
    freeRefsList (ns ++ ms) = freeRefsList ns ++ freeRefsList ms := by
  induction ns with
  | nil => rfl
  | cons n ns ih => simp [freeRefsList, ih]

theorem count_freeRefs_of_not_mem {n : Ast} (h : cur ∉ symbolRefs n) : (freeRefs n).count cur = 0 :=
  List.count_eq_zero.mpr fun hm => h (freeRefs_subset n hm)

theorem count_freeRefsList_of_not_mem {ns : List Ast} (h : cur ∉ symbolRefsList ns) :
    (freeRefsList ns).count cur = 0 :=
  List.count_eq_zero.mpr fun hm => h (freeRefsList_subset (fun n _ => freeRefs_subset n) hm)

theorem Spine.count_freeRefs {n : Ast} {t : Nat} (h : Spine silent cur n t) :
    (freeRefs n).count cur = 1 := by
  induction h with
  | here => simp [freeRefs]
  | arg hop hpre hpost _ ih =>
    simp only [freeRefs, freeRefsList_append, freeRefsList, List.count_append, ih,
      count_freeRefs_of_not_mem hop, count_freeRefsList_of_not_mem hpre,
      count_freeRefsList_of_not_mem hpost]
  | first hsteps _ ih =>
    simp only [freeRefs, freeRefsList, List.count_append, ih, count_freeRefsList_of_not_mem hsteps]
  | step hf hbefore hop hpre hpost hafter _ ih =>
    simp only [freeRefs, freeRefsList_append, freeRefsList, List.count_append, ih,
      count_freeRefs_of_not_mem hf, count_freeRefsList_of_not_mem hbefore,
      count_freeRefs_of_not_mem hop, count_freeRefsList_of_not_mem hpre,
      count_freeRefsList_of_not_mem hpost, count_freeRefsList_of_not_mem hafter]

/-- The filling takes the place of the one reference. -/
theorem Spine.count_inlineSubst {n : Ast} {t : Nat} (h : Spine silent cur n t) (s : Symbol) :
    (freeRefs (inlineSubst [(cur, e)] n)).count s + [cur].count s =
    (freeRefs n).count s + (freeRefs e).count s := by
  induction h with
  | here => simp [inlineSubst, freeRefs, Nat.add_comm]
  | arg hop hpre hpost _ ih =>
    simp only [inlineSubst, inlineSubstList_hole hpre hpost, freeRefs, freeRefsList_append,
      freeRefsList, List.count_append]
    omega
  | first hsteps _ ih =>
    simp only [inlineSubst, inlineSubstList,
      inlineSubstList_of_not_mem (fun _ _ => inlineSubst_of_not_mem) hsteps,
      freeRefs, freeRefsList, List.count_append]
    omega
  | step hf hbefore hop hpre hpost hafter _ ih =>
    simp only [inlineSubst, inlineSubstList, inlineSubst_of_not_mem hf,
      inlineSubstList_hole hbefore hafter, inlineSubstList_hole hpre hpost, freeRefs,
      freeRefsList_append, freeRefsList, List.count_append]
    omega

/-- The references to `s` in the scope of the temporary of that name, those in the next initialiser
apart. -/
def strayRefs (s : Symbol) (bound : Bool) (prev : Symbol) : List (Symbol × Ast) → Nat
  | [] => 0
  | b :: bs =>
      (if bound && s != prev then (freeRefs b.2).count s else 0) + strayRefs s (bound || s == b.1)
      b.1 bs

/-- Every initialiser has its reference on the way. -/
def Spines (silent : Symbol → Bool) (prev : Symbol) : List (Symbol × Ast) → Prop
  | [] => True
  | b :: bs => (∃ t, Spine silent prev b.2 t) ∧ Spines silent b.1 bs

theorem spines_of_kept {prev : Symbol} {bs : List (Symbol × Ast)} (hlinked : Linked prev bs)
    (hkept : Kept silent prev bs) : Spines silent prev bs := by
  induction bs generalizing prev with
  | nil => trivial
  | cons b bs ih =>
    obtain ⟨t, ht⟩ := Option.isSome_iff_exists.mp hkept.1
    exact ⟨⟨t, spine_of_ticksBefore ht hlinked.1⟩, ih hlinked.2 hkept.2⟩

theorem count_freeRefsBind_cons (s : Symbol) (b : Symbol × Ast) (bs : List (Symbol × Ast)) :
    (freeRefsBind (patterns (b :: bs))).count s =
      (freeRefs b.2).count s + if (s == b.1) = true then 0
      else (freeRefsBind (patterns bs)).count s := by
  have hcons : freeRefsBind (patterns (b :: bs)) =
      freeRefs b.2 ++ (freeRefsBind (patterns bs)).filter (· ∉ [b.1]) := rfl
  rw [hcons, List.count_append]
  by_cases heq : s = b.1
  · have hnone : s ∉ (freeRefsBind (patterns bs)).filter (· ∉ [b.1]) := by simp [heq]
    rw [if_pos (by simpa using heq), List.count_eq_zero.mpr hnone]
  · rw [if_neg (by simpa using heq), List.count_filter (by simpa using heq)]

/-- The references of the folded tree are the outer ones of the bind and the stray ones. -/
theorem count_foldLetExpand {s prev : Symbol} {expanded : Ast} {bs : List (Symbol × Ast)}
    {bound : Bool} (h : Spines silent prev bs) (hprev : bound = true ∨ s ≠ prev) :
    (freeRefs (foldLetExpand prev expanded bs)).count s = (freeRefs expanded).count s +
      (if bound then 0 else (freeRefsBind (patterns bs)).count s) + strayRefs s bound prev bs := by
  induction bs generalizing prev expanded bound with
  | nil => cases bound <;> simp [foldLetExpand, freeRefsBind, patterns, strayRefs]
  | cons b bs ih =>
    obtain ⟨⟨t, hspine⟩, hrest⟩ := h
    have hb : (bound || s == b.1) = true ∨ s ≠ b.1 := by
      by_cases heq : s = b.1 <;> simp [heq]
    have hsubst := hspine.count_inlineSubst (e := expanded) s
    rw [foldLetExpand, ih hrest hb, strayRefs, count_freeRefsBind_cons]
    by_cases hs : s = prev
    · -- the reference that is filled
      have hbound : bound = true := hprev.resolve_right fun hne => hne hs
      have hone := hspine.count_freeRefs
      subst hs
      rw [List.count_singleton_self] at hsubst
      simp only [hbound, Bool.true_or, if_true, bne_self_eq_false, Bool.and_false,
        Bool.false_eq_true, if_false]
      omega
    · have hzero : [prev].count s = 0 := List.count_eq_zero.mpr (by simpa using hs)
      have hne : (s != prev) = true := by simpa using hs
      rw [hzero, Nat.add_zero] at hsubst
      rw [hsubst, hne]
      cases bound with
      | true =>
        simp only [Bool.true_or, if_true, Bool.and_true]
        omega
      | false =>
        simp only [Bool.false_or, Bool.false_and, Bool.false_eq_true, if_false]
        omega

/-- No stray reference: every initialiser keeps to its scope. -/
theorem scoped_iff {bound : List Symbol} {prev : Symbol} {bs : List (Symbol × Ast)} :
    Scoped bound prev bs ↔ ∀ s, strayRefs s (bound.contains s) prev bs = 0 := by
  induction bs generalizing bound prev with
  | nil => simp [Scoped, strayRefs]
  | cons b bs ih =>
    have hcontains : ∀ s, (b.1 :: bound).contains s = (bound.contains s || s == b.1) := by
      intro s
      rw [List.contains_cons, Bool.or_comm]
    have hhead :
      ∀ s, (if (bound.contains s && s != prev) = true then (freeRefs b.2).count s else 0) = 0 ↔
        (s ∈ bound → s ∈ freeRefs b.2 → s = prev) := by
      intro s
      by_cases hs : s ∈ bound <;> by_cases heq : s = prev <;> simp [hs, heq, List.count_eq_zero]
    simp only [Scoped, strayRefs, ih, hcontains, Nat.add_eq_zero_iff, hhead, forall_and]

/-- Of the bind with its recur. -/
theorem count_freeRefs_bind {s var : Symbol} {init : Ast} {bs : List (Symbol × Ast)}
    {args : List Ast} :
    (freeRefs (.bind (patterns ((var, init) :: bs)) [.recur args])).count s =
      (freeRefsBind (patterns ((var, init) :: bs))).count s +
        if s ∈ temporaries var bs then 0 else (freeRefsList args).count s := by
  have hnames : ∀ cs : List (Symbol × Ast), bindingsBind (patterns cs) = cs.map (·.1) := by
    intro cs
    induction cs with
    | nil => rfl
    | cons c cs ih =>
      rw [List.map_cons, ← ih]
      rfl
  have hcons : freeRefs (.bind (patterns ((var, init) :: bs)) [.recur args]) =
      freeRefsBind (patterns ((var, init) :: bs)) ++
        (freeRefsList [.recur args]).filter (· ∉ bindingsBind (patterns ((var, init) :: bs))) := rfl
  rw [hcons, hnames, List.count_append, freeRefsList, freeRefsList, List.append_nil, freeRefs]
  by_cases hs : s ∈ temporaries var bs
  · have hnone : s ∉ (freeRefsList args).filter (· ∉ ((var, init) :: bs).map (·.1)) := by
      intro hmem
      exact absurd hs (by simpa [temporaries] using (List.mem_filter.mp hmem).2)
    rw [if_pos hs, List.count_eq_zero.mpr hnone]
  · rw [if_neg hs, List.count_filter (by simpa [temporaries] using hs)]

theorem strayRefs_eq_zero {s prev : Symbol} {bs : List (Symbol × Ast)} (h : s ∉ bs.map (·.1)) :
    strayRefs s false prev bs = 0 := by
  induction bs generalizing prev with
  | nil => rfl
  | cons b bs ih =>
    simp only [List.map_cons, List.mem_cons, not_or] at h
    have hne : (s == b.1) = false := by simpa using h.1
    simp [strayRefs, hne, ih h.2]

section Counted

variable {var s : Symbol} {init : Ast} {bs : List (Symbol × Ast)} {before after : List Ast}

/-- The references of the new recur: those of the bind's initialisers to outer variables, the stray
ones and those of the other arguments. -/
theorem count_folded (h : Spines silent var bs) (s : Symbol) :
    (freeRefs (.recur (before ++ foldLetExpand var init bs :: after))).count s =
      (freeRefsBind (patterns ((var, init) :: bs))).count s + strayRefs s ([var].contains s)
      var bs +
        (freeRefsList (before ++ after)).count s := by
  have hvar : [var].contains s = true ∨ s ≠ var := by
    by_cases heq : s = var <;> simp [heq]
  have hcontains : (s == var) = [var].contains s := by
    by_cases heq : s = var <;> simp [heq]
  have hcons := count_freeRefsBind_cons s (var, init) bs
  dsimp only at hcons
  rw [freeRefs, freeRefsList_append, freeRefsList_append, freeRefsList, List.count_append,
    List.count_append, List.count_append, count_foldLetExpand h hvar, hcons, hcontains]
  omega

theorem count_freeRefsList {ns : List Ast} :
    (freeRefsList ns).count s = 0 ↔ ∀ n ∈ ns, s ∉ freeRefs n := by
  induction ns with
  | nil => simp [freeRefsList]
  | cons n ns ih => simp [freeRefsList, List.count_append, List.count_eq_zero, ih]

/-- No reference is to a temporary exactly if the initialisers and the other arguments have none. -/
theorem closed_iff {args : List Ast} (h : Spines silent var bs) : (∀ s ∈ temporaries var bs,
      (freeRefs (.recur (before ++ foldLetExpand var init bs :: after))).count s ≤
        (freeRefs (.bind (patterns ((var, init) :: bs)) [.recur args])).count s) ↔
    Scoped [var] var bs ∧ ∀ a ∈ before ++ after, ∀ s ∈ temporaries var bs, s ∉ freeRefs a := by
  have hcount : ∀ s ∈ temporaries var bs,
    ((freeRefs (.recur (before ++ foldLetExpand var init bs :: after))).count s ≤
        (freeRefs (.bind (patterns ((var, init) :: bs)) [.recur args])).count s ↔
      strayRefs s ([var].contains s) var bs = 0 ∧ ∀ a ∈ before ++ after, s ∉ freeRefs a) := by
    intro s hs
    rw [count_folded h, count_freeRefs_bind, if_pos hs, ← count_freeRefsList]
    omega
  rw [scoped_iff]
  constructor
  · intro hclosed
    refine ⟨fun s => ?_, fun a ha s hs => ((hcount s hs).mp (hclosed s hs)).2 a ha⟩
    by_cases hs : s ∈ temporaries var bs
    · exact ((hcount s hs).mp (hclosed s hs)).1
    · simp only [temporaries, List.mem_cons, not_or] at hs
      have hcontains : [var].contains s = false := by simpa using hs.1
      rw [hcontains]
      exact strayRefs_eq_zero hs.2
  · intro hscoped s hs
    exact (hcount s hs).mpr ⟨hscoped.1 s, fun a ha => hscoped.2 a ha s hs⟩

/-- Without a stray reference every free variable is one of the bind. -/
theorem free_of_closed {alias' : Ast} (h : Spines silent var bs)
    (hclosed : ∀ s ∈ temporaries var bs,
      (freeRefs (.recur (before ++ foldLetExpand var init bs :: after))).count s ≤
      (freeRefs (.bind (patterns ((var, init) :: bs)) [.recur (before ++ alias' :: after)])).count
      s) :
    freeRefs (.recur (before ++ foldLetExpand var init bs :: after)) ⊆
      freeRefs (.bind (patterns ((var, init) :: bs)) [.recur (before ++ alias' :: after)]) := by
  intro s hmem
  rw [← List.count_pos_iff] at hmem ⊢
  by_cases hs : s ∈ temporaries var bs
  · have hle := hclosed s hs
    omega
  · have hs' := hs
    simp only [temporaries, List.mem_cons, not_or] at hs'
    have hcontains : [var].contains s = false := by simpa using hs'.1
    rw [count_folded h, hcontains, strayRefs_eq_zero hs'.2] at hmem
    rw [count_freeRefs_bind, if_neg hs]
    simp only [freeRefsList_append, freeRefsList, List.count_append] at hmem ⊢
    omega

end Counted

end References

/-! ## §3 Sufficiency -/

namespace Evaluator

section Folding

variable {silent : Symbol → Bool} {V W : Type} (S : Evaluator silent V W) {ρ : Symbol → V}

theorem evalInits_other {s : Symbol} {bs : List (Symbol × Ast)} (h : s ∉ bs.map (·.1))
    (ρ : Symbol → V) (w : W) :
    (S.evalInits ρ bs w).1 s = ρ s := by
  induction bs generalizing ρ w with
  | nil => rfl
  | cons b bs ih =>
    simp only [List.map_cons, List.mem_cons, not_or] at h
    rw [evalInits, ih h.2]
    exact if_neg h.1

/-- What is known of the initialisers that are already folded: `done` evaluates them, the expanded
tree has the value of the last one, and the environment differs from the outer one at their names
only. -/
structure Expanded (ρ : Symbol → V) (bound : List Symbol) (still : Bool) (prev : Symbol)
    (expanded : Ast) (done : W → (Symbol → V) × W) : Prop where
  value : ∀ w, S.eval ρ expanded w = ((done w).1 prev, (done w).2)
  outer : ∀ w, ∀ s, s ∉ bound → (done w).1 s = ρ s
  still : still = true → Still (S.eval ρ expanded)

/-- The next initialiser. -/
theorem Expanded.next {bound : List Symbol} {still : Bool} {prev : Symbol} {expanded : Ast}
    {done : W → (Symbol → V) × W} {b : Symbol × Ast} {t : Nat}
    (h : S.Expanded ρ bound still prev expanded done) (hspine : Spine silent prev b.2 t)
    (hrefs : ∀ s ∈ bound, s ∈ freeRefs b.2 → s = prev) (horder : t = 0 ∨ still = true) :
    S.Expanded ρ (b.1 :: bound) (still && silentNode silent b.2) b.1
    (inlineSubst [(prev, expanded)] b.2)
      fun w => (upd (done w).1 b.1 (S.eval (done w).1 b.2 (done w).2).1,
        (S.eval (done w).1 b.2 (done w).2).2) := by
  have hfilled := S.eval_inlineSubst hspine (horder.imp_right h.still)
  have henv : ∀ w, S.eval (upd ρ prev (S.eval ρ expanded w).1) b.2 = S.eval (done w).1 b.2 := by
    intro w
    refine funext fun w' => S.eval_congr (fun s hs => ?_) w'
    rw [h.value, upd]
    by_cases heq : s = prev
    · rw [if_pos heq, heq]
    · rw [if_neg heq]
      exact (h.outer w s fun hbound => heq (hrefs s hbound hs)).symm
  refine ⟨fun w => ?_, fun w s hs => ?_, fun hstill => ?_⟩
  · have hw := hfilled w
    beta_reduce at hw
    rw [hw, henv, h.value]
    simp [upd]
  · simp only [List.mem_cons, not_or] at hs
    exact (if_neg hs.1).trans (h.outer w s hs.2)
  · rw [Bool.and_eq_true] at hstill
    intro w w'
    obtain ⟨hw, hv⟩ := h.still hstill.1 w w'
    obtain ⟨hw', -⟩ := h.still hstill.1 w' w
    rw [hfilled w, hfilled w', hw, hw', hv]
    exact S.eval_still hstill.2 _ w w'

/-- The folded tree does what the initialisers do, one after the other. -/
theorem eval_foldLetExpand {bound : List Symbol} {still : Bool} {prev : Symbol} {expanded : Ast}
    {done : W → (Symbol → V) × W} {bs : List (Symbol × Ast)}
    (h : S.Expanded ρ bound still prev expanded done)
    (hlinked : Linked prev bs) (hrefs : Scoped bound prev bs)
    (horder : Ordered silent still prev bs) :
    (∀ w, S.eval ρ (foldLetExpand prev expanded bs) w =
        ((S.evalInits (done w).1 bs (done w).2).1 (lastVar prev bs),
          (S.evalInits (done w).1 bs (done w).2).2)) ∧
      (still = true → silentInits silent bs = true →
        Still (S.eval ρ (foldLetExpand prev expanded bs))) := by
  induction bs generalizing bound still prev expanded done with
  | nil => exact ⟨h.value, fun hstill _ => h.still hstill⟩
  | cons b bs ih =>
    obtain ⟨⟨t, ht, hbefore⟩, horder⟩ := horder
    have hnext := h.next S (spine_of_ticksBefore ht hlinked.1) hrefs.1 hbefore
    obtain ⟨hvalue, hstill⟩ := ih hnext hlinked.2 hrefs.2 horder
    refine ⟨hvalue, fun hs hsilent => ?_⟩
    rw [silentInits, List.all_cons, Bool.and_eq_true] at hsilent
    exact hstill (by rw [hs, hsilent.1, Bool.and_true]) hsilent.2

/-- A folded recur has the arguments of the bind and leaves the same world. -/
theorem evalRecur_folded {var : Symbol} {init : Ast} {bs : List (Symbol × Ast)}
    {before after : List Ast} (hlinked : Linked var bs) (hrefs : Scoped [var] var bs)
    (horder : Ordered silent (silentNode silent init) var bs)
    (hargs : ∀ a ∈ before ++ after, ∀ s ∈ temporaries var bs, s ∉ freeRefs a)
    (hbefore : silentList silent before = true ∨ silentInits silent ((var, init) :: bs) = true)
    (w : W) :
    S.evalRecur ρ (.recur (before ++ foldLetExpand var init bs :: after)) w =
      S.evalBind ρ ((var, init) :: bs) (before ++ .symbolRef (lastVar var bs) :: after) w := by
  have hfirst : S.Expanded ρ [var] (silentNode silent init) var init
      fun w => (upd ρ var (S.eval ρ init w).1, (S.eval ρ init w).2) := by
    refine ⟨fun w => by simp [upd], fun w s hs => ?_, fun h => S.eval_still h ρ⟩
    exact if_neg (by simpa using hs)
  obtain ⟨hvalue, hstill⟩ := S.eval_foldLetExpand hfirst hlinked hrefs horder
  have hfold : S.eval ρ (foldLetExpand var init bs) w =
      ((S.evalInits ρ ((var, init) :: bs) w).1 (lastVar var bs),
        (S.evalInits ρ ((var, init) :: bs) w).2) := hvalue w
  have houter : ∀ ns : List Ast, (∀ n ∈ ns, n ∈ before ++ after) →
      S.evalList (S.evalInits ρ ((var, init) :: bs) w).1 ns = S.evalList ρ ns := by
    intro ns hns
    refine funext fun w' =>
      S.evalList_congr_free (fun s hs => S.evalInits_other (fun hmem => ?_) ρ w) w'
    have hzero := count_freeRefsList.mpr fun n hn => hargs n (hns n hn) s hmem
    exact List.count_eq_zero.mp hzero hs
  have hbefore' := houter before fun n hn => List.mem_append_left _ hn
  have hafter' := houter after fun n hn => List.mem_append_right _ hn
  have hcommutes : Commutes (S.evalList ρ before) (S.eval ρ (foldLetExpand var init bs)) := by
    refine commutes_of_still (hbefore.imp (fun h => S.evalList_still fun n hn => ?_) fun h => ?_)
    · exact S.eval_still (silentList_iff.mp h n hn) ρ
    · rw [silentInits, List.all_cons, Bool.and_eq_true] at h
      exact hstill h.1 h.2
  obtain ⟨h₁, h₂, h₃⟩ := hcommutes w
  rw [hfold] at h₁ h₂ h₃
  simp only [evalRecur, evalBind, evalList_append, evalList, eval, hbefore', hafter', h₁, h₂, h₃]

end Folding

end Evaluator

/-! ## §4 Stamps -/

/-- A value with the time of every effect it was made by. -/
inductive Stamped where
  | leaf
  | node (stamp : Nat) (op : Stamped) (args : List Stamped)

/-- The world is a clock, which every effect advances. -/
def stamps (silent : Symbol → Bool) : Evaluator silent Stamped Nat where
  literal _ := .leaf
  apply op f args w := (.node (w * opTick silent op) f args, w + opTick silent op)
  apply_silent op f args w w' h := by
    have hzero := opTick_eq_zero.mpr h
    simp [hzero]
  other n _ w :=
    let tick := if silentNode silent n then 0 else 1
    (.node (w * tick) .leaf [], w + tick)
  other_congr _ _ _ _ _ := rfl
  other_silent n _ w w' h := by simp [h]

section Stamps

variable {silent : Symbol → Bool}

theorem stamps_apply (op : Ast) (f : Stamped) (args : List Stamped) (w : Nat) :
    (stamps silent).apply op f args w = (.node (w * opTick silent op) f args,
      w + opTick silent op) := rfl

theorem clock_list {ρ : Symbol → Stamped} {ns : List Ast}
    (h : ∀ n ∈ ns, ∀ w, ((stamps silent).eval ρ n w).2 = w + ticks silent n) (w : Nat) :
    ((stamps silent).evalList ρ ns w).2 = w + ticksList silent ns := by
  induction ns generalizing w with
  | nil => rfl
  | cons n ns ih =>
    rw [Evaluator.evalList, ih fun m hm => h m (List.mem_cons_of_mem n hm), h n List.mem_cons_self,
      ticksList]
    omega

theorem clock_step (ρ : Symbol → Stamped) (n : Ast) :
    (∀ w, ((stamps silent).eval ρ n w).2 = w + ticks silent n) ∧
      ∀ v w, ((stamps silent).evalStep ρ v n w).2 = w + stepTicks silent n := by
  induction n with
  | literal v =>
    refine ⟨fun w => by simp [Evaluator.eval, ticks, silentNode], fun v w => ?_⟩
    simp [Evaluator.evalStep, Evaluator.eval, stamps_apply, stepTicks, ticks, silentNode]
  | symbolRef s =>
    refine ⟨fun w => by simp [Evaluator.eval, ticks, silentNode], fun v w => ?_⟩
    simp [Evaluator.evalStep, Evaluator.eval, stamps_apply, stepTicks, ticks, silentNode]
  | call op args hop hargs =>
    have hl := clock_list fun a ha => (hargs a ha).1
    constructor
    · intro w
      rw [Evaluator.eval, stamps_apply, hl, hop.1, ticks]
      dsimp only
      omega
    · intro v w
      rw [Evaluator.evalStep, stamps_apply, hl, hop.1, stepTicks]
      dsimp only
      omega
  | threadFirst forms hforms =>
    have hv : ∀ w, ((stamps silent).eval ρ (.threadFirst forms) w).2 =
      w + ticks silent (.threadFirst forms) := by
      intro w
      cases forms with
      | nil => rfl
      | cons f steps =>
        have hsteps : ∀ ns, (∀ n ∈ ns, n ∈ steps) → ∀ v w, ((stamps silent).evalSteps ρ v ns w).2 =
            w + ticksSteps silent ns := by
          intro ns hns
          induction ns with
          | nil => exact fun v w => rfl
          | cons n ns ih =>
            intro v w
            have hn := (hforms n (List.mem_cons_of_mem f (hns n List.mem_cons_self))).2
            rw [Evaluator.evalSteps_cons, ih fun m hm => hns m (List.mem_cons_of_mem n hm), hn,
              ticksSteps_cons]
            omega
        rw [Evaluator.eval, hsteps steps fun _ h => h, (hforms f List.mem_cons_self).1, ticks]
        omega
    refine ⟨hv, fun v w => ?_⟩
    have hstep := congrArg (· + opTick silent (.threadFirst forms)) (hv w)
    exact hstep.trans (Nat.add_assoc _ _ _)
  | _ =>
    constructor
    · intro w
      rfl
    · intro v w
      exact Nat.add_assoc _ _ _

theorem clock (ρ : Symbol → Stamped) (n : Ast) (w : Nat) :
    ((stamps silent).eval ρ n w).2 = w + ticks silent n := (clock_step ρ n).1 w

theorem clock_evalList (ρ : Symbol → Stamped) (ns : List Ast) (w : Nat) :
    ((stamps silent).evalList ρ ns w).2 = w + ticksList silent ns :=
    clock_list (fun n _ => clock ρ n) w

theorem clock_evalSteps (ρ : Symbol → Stamped) (v : Stamped) (ns : List Ast) (w : Nat) :
    ((stamps silent).evalSteps ρ v ns w).2 = w + ticksSteps silent ns := by
  induction ns generalizing v w with
  | nil => rfl
  | cons n ns ih =>
    rw [Evaluator.evalSteps_cons, ih, (clock_step ρ n).2, ticksSteps_cons]
    omega

/-- The same value is made at the same time, if an effect is part of it. -/
def Dated (ticks : Nat) (w w' : Nat) : Prop := 0 < ticks → w = w'

theorem dated_stamp {op : Ast} {w w' : Nat} (h : w * opTick silent op = w' * opTick silent op) :
    Dated (opTick silent op) w w' := by
  intro hpos
  exact Nat.eq_of_mul_eq_mul_right hpos h

theorem dated_add {a b w w' : Nat} (ha : Dated a w w') (hb : Dated b (w + a) (w' + a)) :
    Dated (a + b) w w' := by
  intro hpos
  by_cases h0 : 0 < a
  · exact ha h0
  · have heq := hb (by omega)
    omega

section Dates

variable {ρ ρ' : Symbol → Stamped}

theorem dated_list {ns : List Ast} (h : ∀ n ∈ ns, ∀ w w', ((stamps silent).eval ρ n w).1 =
      ((stamps silent).eval ρ' n w').1 → Dated (ticks silent n) w w') {w w' : Nat}
    (heq : ((stamps silent).evalList ρ ns w).1 = ((stamps silent).evalList ρ' ns w').1) :
    Dated (ticksList silent ns) w w' := by
  induction ns generalizing w w' with
  | nil => exact fun hpos => absurd hpos (Nat.lt_irrefl 0)
  | cons n ns ih =>
    simp only [Evaluator.evalList, clock, List.cons.injEq] at heq
    exact dated_add (h n List.mem_cons_self w w' heq.1)
      (ih (fun m hm => h m (List.mem_cons_of_mem n hm)) heq.2)

/-- The parts of a call that was made twice. -/
theorem dated_call {op : Ast} {args : List Ast} (hop : ∀ w w', ((stamps silent).eval ρ op w).1 =
      ((stamps silent).eval ρ' op w').1 → Dated (ticks silent op) w w')
    (hargs : ∀ n ∈ args, ∀ w w', ((stamps silent).eval ρ n w).1 = ((stamps silent).eval ρ' n w').1 →
      Dated (ticks silent n) w w') {w w' : Nat}
    (hf : ((stamps silent).eval ρ op w).1 = ((stamps silent).eval ρ' op w').1)
    (hl : ((stamps silent).evalList ρ args (w + ticks silent op)).1 =
      ((stamps silent).evalList ρ' args (w' + ticks silent op)).1)
    (hs : (w + ticks silent op + ticksList silent args) * opTick silent op =
      (w' + ticks silent op + ticksList silent args) * opTick silent op) :
    Dated (ticks silent op + ticksList silent args + opTick silent op) w w' := by
  refine dated_add (dated_add (hop w w' hf) (dated_list hargs hl)) ?_
  have hdated := dated_stamp hs
  rw [Nat.add_assoc, Nat.add_assoc] at hdated
  exact hdated

theorem dated_step (n : Ast) :
    (∀ w w', ((stamps silent).eval ρ n w).1 = ((stamps silent).eval ρ' n w').1 →
      Dated (ticks silent n) w w') ∧
    ∀ v v' w w', ((stamps silent).evalStep ρ v n w).1 = ((stamps silent).evalStep ρ' v' n w').1 →
      v = v' ∧ Dated (stepTicks silent n) w w' := by
  have hbare :
    ∀ n : Ast, (∀ w w', ((stamps silent).eval ρ n w).1 = ((stamps silent).eval ρ' n w').1 →
      Dated (ticks silent n) w w') → ∀ v v' w w',
      ((stamps silent).apply n ((stamps silent).eval ρ n w).1 [v] ((stamps silent).eval ρ n w).2).1
      =
        ((stamps silent).apply n ((stamps silent).eval ρ' n w').1 [v']
          ((stamps silent).eval ρ' n w').2).1 →
      v = v' ∧ Dated (ticks silent n + opTick silent n) w w' := by
    intro n hn v v' w w' heq
    simp only [stamps_apply, clock, Stamped.node.injEq, List.cons.injEq, and_true] at heq
    exact ⟨heq.2.2, dated_add (hn w w' heq.2.1) (dated_stamp heq.1)⟩
  have hother : ∀ (n : Ast) (w w' : Nat),
    Stamped.node (w * if silentNode silent n = true then 0 else 1) .leaf [] =
      .node (w' * if silentNode silent n = true then 0 else 1) .leaf [] →
      Dated (if silentNode silent n = true then 0 else 1) w w' := by
    intro n w w' heq hpos
    rw [Stamped.node.injEq] at heq
    exact Nat.eq_of_mul_eq_mul_right hpos heq.1
  induction n with
  | call op args hop hargs =>
    have hl := fun a ha => (hargs a ha).1
    constructor
    · intro w w' heq
      simp only [Evaluator.eval, stamps_apply, clock, clock_evalList, Stamped.node.injEq] at heq
      exact dated_call hop.1 hl heq.2.1 heq.2.2 heq.1
    · intro v v' w w' heq
      simp only [Evaluator.evalStep, stamps_apply, clock, clock_evalList, Stamped.node.injEq,
        List.cons.injEq] at heq
      exact ⟨heq.2.2.1, dated_call hop.1 hl heq.2.1 heq.2.2.2 heq.1⟩
  | threadFirst forms hforms =>
    have hv : ∀ w w', ((stamps silent).eval ρ (.threadFirst forms) w).1 =
        ((stamps silent).eval ρ' (.threadFirst forms) w').1 →
        Dated (ticks silent (.threadFirst forms)) w w' := by
      intro w w' heq
      cases forms with
      | nil => exact fun hpos => absurd hpos (Nat.lt_irrefl 0)
      | cons f steps =>
        have hsteps : ∀ ns, (∀ n ∈ ns, n ∈ steps) → ∀ v v' w w',
          ((stamps silent).evalSteps ρ v ns w).1 =
            ((stamps silent).evalSteps ρ' v' ns w').1 → v = v' ∧
            Dated (ticksSteps silent ns) w w' := by
          intro ns hns
          induction ns with
          | nil => exact fun v v' w w' heq => ⟨heq, fun hpos => absurd hpos (Nat.lt_irrefl 0)⟩
          | cons n ns ih =>
            intro v v' w w' heq
            have hn := (hforms n (List.mem_cons_of_mem f (hns n List.mem_cons_self))).2
            rw [Evaluator.evalSteps_cons, Evaluator.evalSteps_cons] at heq
            obtain ⟨hvalue, hdated⟩ :=
              ih (fun m hm => hns m (List.mem_cons_of_mem n hm)) _ _ _ _ heq
            rw [(clock_step ρ n).2, (clock_step ρ' n).2] at hdated
            obtain ⟨hv, hstep⟩ := hn v v' w w' hvalue
            rw [ticksSteps_cons]
            exact ⟨hv, dated_add hstep hdated⟩
        simp only [Evaluator.eval, clock] at heq
        obtain ⟨hvalue, hdated⟩ := hsteps steps (fun _ h => h) _ _ _ _ heq
        exact dated_add ((hforms f List.mem_cons_self).1 w w' hvalue) hdated
    exact ⟨hv, hbare _ hv⟩
  | literal v =>
    have hv : ∀ w w', ((stamps silent).eval ρ (.literal v) w).1 =
      ((stamps silent).eval ρ' (.literal v) w').1 →
        Dated (ticks silent (.literal v)) w w' := fun w w' _ hpos => absurd hpos (Nat.lt_irrefl 0)
    exact ⟨hv, hbare _ hv⟩
  | symbolRef s =>
    have hv : ∀ w w', ((stamps silent).eval ρ (.symbolRef s) w).1 =
      ((stamps silent).eval ρ' (.symbolRef s) w').1 →
        Dated (ticks silent (.symbolRef s)) w w' := fun w w' _ hpos => absurd hpos (Nat.lt_irrefl 0)
    exact ⟨hv, hbare _ hv⟩
  | _ => exact ⟨hother _, hbare _ (hother _)⟩

theorem dated_eval {n : Ast} {w w' : Nat}
    (h : ((stamps silent).eval ρ n w).1 = ((stamps silent).eval ρ' n w').1) :
    Dated (ticks silent n) w w' := (dated_step n).1 w w' h

theorem dated_evalList {ns : List Ast} {w w' : Nat}
    (h : ((stamps silent).evalList ρ ns w).1 = ((stamps silent).evalList ρ' ns w').1) :
    Dated (ticksList silent ns) w w' := dated_list (fun _ _ _ _ => dated_eval) h

theorem dated_evalSteps {ns : List Ast} {v v' : Stamped} {w w' : Nat}
    (h : ((stamps silent).evalSteps ρ v ns w).1 = ((stamps silent).evalSteps ρ' v' ns w').1) :
    v = v' ∧ Dated (ticksSteps silent ns) w w' := by
  induction ns generalizing v v' w w' with
  | nil => exact ⟨h, fun hpos => absurd hpos (Nat.lt_irrefl 0)⟩
  | cons n ns ih =>
    rw [Evaluator.evalSteps_cons, Evaluator.evalSteps_cons] at h
    obtain ⟨hvalue, hdated⟩ := ih h
    rw [(clock_step ρ n).2, (clock_step ρ' n).2] at hdated
    obtain ⟨hv, hstep⟩ := (dated_step n).2 v v' w w' hvalue
    rw [ticksSteps_cons]
    exact ⟨hv, dated_add hstep hdated⟩

theorem length_evalList (ρ : Symbol → Stamped) (ns : List Ast) (w : Nat) :
    ((stamps silent).evalList ρ ns w).1.length = ns.length := by
  induction ns generalizing w with
  | nil => rfl
  | cons n ns ih => simp [Evaluator.evalList, ih]

/-- Lists of arguments that differ in one of them. -/
theorem dated_append {pre post : List Ast} {n n' : Ast} {w w' : Nat}
    (h : ((stamps silent).evalList ρ (pre ++ n :: post) w).1 =
      ((stamps silent).evalList ρ' (pre ++ n' :: post) w').1) :
    Dated (ticksList silent pre) w w' ∧ ((stamps silent).eval ρ n (w + ticksList silent pre)).1 =
      ((stamps silent).eval ρ' n' (w' + ticksList silent pre)).1 := by
  simp only [Evaluator.evalList_append, Evaluator.evalList, clock_evalList] at h
  obtain ⟨hpre, hrest⟩ := List.append_inj h (by rw [length_evalList, length_evalList])
  rw [List.cons.injEq] at hrest
  exact ⟨dated_evalList hpre, hrest.1⟩

/-- A filled tree has the value of the tree with a value for its variable. Then that is the value of
the filling, and what has an effect before the hole has it at the same time. -/
theorem dated_fill {cur : Symbol} {e n : Ast} {t : Nat} (hn : Spine silent cur n t) {u w : Nat}
    (h : ((stamps silent).eval ρ (inlineSubst [(cur, e)] n) u).1 =
      ((stamps silent).eval ρ' n w).1) :
    Dated t u w ∧ ((stamps silent).eval ρ e (u + t)).1 = ρ' cur := by
  induction hn generalizing u w with
  | here =>
    refine ⟨fun hpos => absurd hpos (Nat.lt_irrefl 0), ?_⟩
    simpa [inlineSubst, Evaluator.eval] using h
  | @arg op n pre post t hop hpre hpost _ ih =>
    simp only [inlineSubst, inlineSubstList_hole hpre hpost, Evaluator.eval, stamps_apply, clock,
      Stamped.node.injEq] at h
    obtain ⟨hdated, hvalue⟩ := dated_append h.2.2
    obtain ⟨hhole, he⟩ := ih hvalue
    refine ⟨dated_add (dated_eval h.2.1) (dated_add hdated hhole), ?_⟩
    rw [← he, Nat.add_assoc, Nat.add_assoc]
  | first hsteps _ ih =>
    simp only [inlineSubst, inlineSubstList,
      inlineSubstList_of_not_mem (fun _ _ => inlineSubst_of_not_mem) hsteps,
      Evaluator.eval] at h
    exact ih (dated_evalSteps h).1
  | @step f op n before pre post after t hf hbefore hop hpre hpost hafter _ ih =>
    simp only [inlineSubst, inlineSubstList, inlineSubst_of_not_mem hf,
      inlineSubstList_hole hbefore hafter, inlineSubstList_hole hpre hpost, Evaluator.eval,
      Evaluator.evalSteps_append, Evaluator.evalSteps_cons] at h
    have hstep := (dated_evalSteps h).1
    simp only [Evaluator.evalStep, stamps_apply, clock, clock_evalSteps, Stamped.node.injEq,
      List.cons.injEq] at hstep
    obtain ⟨hsteps, hdated⟩ := dated_evalSteps hstep.2.2.1
    obtain ⟨hdated', hvalue⟩ := dated_append hstep.2.2.2
    obtain ⟨hhole, he⟩ := ih hvalue
    refine ⟨dated_add (dated_eval hsteps) (dated_add hdated
      (dated_add (dated_eval hstep.2.1) (dated_add hdated' hhole))), ?_⟩
    rw [← he]
    congr 2
    omega

/-- From the value of the folded tree back to what the fold put it together from. `u` is the time at
which the folded tree is evaluated and `w` the one at which the next initialiser of the bind is. -/
theorem ordered_of_value {still : Bool} {prev : Symbol} {expanded : Ast} {bs : List (Symbol × Ast)}
    {start u w : Nat} (hlinked : Linked prev bs) (hkept : Kept silent prev bs) (hle : start ≤ w)
    (hstart : start = w → still = true) (hu : u = start ∨ (still && silentInits silent bs) = true)
    (h : ((stamps silent).eval ρ (foldLetExpand prev expanded bs) u).1 =
      ((stamps silent).evalInits ρ' bs w).1 (lastVar prev bs)) :
    Ordered silent still prev bs ∧ ∃ u', (u' = start ∨ still = true) ∧
      ((stamps silent).eval ρ expanded u').1 = ρ' prev := by
  induction bs generalizing still prev expanded ρ' w with
  | nil => exact ⟨trivial, u, by simpa [silentInits] using hu, h⟩
  | cons b bs ih =>
    obtain ⟨t, ht⟩ := Option.isSome_iff_exists.mp hkept.1
    have hspine := spine_of_ticksBefore ht hlinked.1
    have hstart' : start = w + ticks silent b.2 → (still && silentNode silent b.2) = true := by
      intro heq
      rw [Bool.and_eq_true, ← ticks_eq_zero]
      exact ⟨hstart (by omega), by omega⟩
    have hu' : u = start ∨ ((still && silentNode silent b.2) && silentInits silent bs) = true := by
      rw [Bool.and_assoc]
      exact hu
    rw [foldLetExpand, lastVar, Evaluator.evalInits, clock] at h
    obtain ⟨hordered, u', hu', hvalue⟩ := ih hlinked.2 hkept.2 (by omega) hstart' hu' h
    rw [Evaluator.upd, if_pos rfl] at hvalue
    obtain ⟨hdated, he⟩ := dated_fill hspine hvalue
    have hstill : t = 0 ∨ still = true := by
      rcases hu' with rfl | hs
      · rcases Nat.eq_zero_or_pos t with h0 | hpos
        · exact .inl h0
        · exact .inr (hstart (hdated hpos))
      · exact .inr (Bool.and_eq_true _ _ ▸ hs).1
    refine ⟨⟨⟨t, ht, hstill⟩, hordered⟩, u' + t, ?_, he⟩
    rcases hstill with h0 | hs
    · rcases hu' with rfl | hs
      · exact .inl (by omega)
      · exact .inr (Bool.and_eq_true _ _ ▸ hs).1
    · exact .inr hs

end Dates

end Stamps

/-! ## §5 Theorem -/

section Theorem

variable {silent : Symbol → Bool}

theorem clock_evalInits (ρ : Symbol → Stamped) (bs : List (Symbol × Ast)) (w : Nat) :
    w ≤ ((stamps silent).evalInits ρ bs w).2 ∧
      (w = ((stamps silent).evalInits ρ bs w).2 → silentInits silent bs = true) := by
  induction bs generalizing ρ w with
  | nil => exact ⟨Nat.le_refl w, fun _ => rfl⟩
  | cons b bs ih =>
    rw [Evaluator.evalInits, clock]
    obtain ⟨hle, hsilent⟩ :=
      ih (Evaluator.upd ρ b.1 ((stamps silent).eval ρ b.2 w).1) (w + ticks silent b.2)
    refine ⟨by omega, fun heq => ?_⟩
    rw [silentInits, List.all_cons, Bool.and_eq_true, ← ticks_eq_zero]
    exact ⟨by omega, hsilent (by omega)⟩

theorem kept_of_ordered {still : Bool} {prev : Symbol} {bs : List (Symbol × Ast)}
    (h : Ordered silent still prev bs) : Kept silent prev bs := by
  induction bs generalizing still prev with
  | nil => trivial
  | cons b bs ih =>
    obtain ⟨⟨t, ht, -⟩, hrest⟩ := h
    exact ⟨by rw [ht, Option.isSome_some], ih hrest⟩

theorem takeWhile_before {s : Symbol} {before after : List Ast}
    (h : ∀ a ∈ before, s ∉ symbolRefs a) :
    (before ++ .symbolRef s :: after).takeWhile (fun a => !a.isRef s) = before := by
  have hbefore : ∀ a ∈ before, (!a.isRef s) = true := by
    intro a ha
    rw [Bool.not_eq_true', Bool.eq_false_iff]
    intro href
    rw [isRef_eq_true.mp href] at ha
    exact h _ ha (by simp [symbolRefs])
  rw [List.takeWhile_append_of_pos hbefore, List.takeWhile_cons, isRef_eq_true.mpr rfl]
  simp

/-- The effects keep their order only if nothing that has one is moved. -/
theorem foldable_of_order {var : Symbol} {init : Ast} {bs : List (Symbol × Ast)}
    {before after : List Ast} (hlinked : Linked var bs) (hkept : Kept silent var bs)
    (horder : ∀ (ρ : Symbol → Stamped) (w : Nat),
      (stamps silent).evalRecur ρ (.recur (before ++ foldLetExpand var init bs :: after)) w =
      (stamps silent).evalBind ρ ((var, init) :: bs)
      (before ++ .symbolRef (lastVar var bs) :: after) w) :
    Ordered silent (silentNode silent init) var bs ∧
      (silentList silent before = true ∨ silentInits silent ((var, init) :: bs) = true) := by
  have heq := congrArg Prod.fst (horder (fun _ => .leaf) 0)
  obtain ⟨hdated, hvalue⟩ := dated_append heq
  rw [Evaluator.eval, Nat.zero_add] at hvalue
  have hbefore : silentList silent before = true ∨ silentInits silent ((var, init) :: bs) =
    true := by
    rcases Nat.eq_zero_or_pos (ticksList silent before) with h0 | hpos
    · exact .inl ((ticksList_eq_zero fun n _ => ticks_eq_zero n).mp h0)
    · exact .inr ((clock_evalInits _ _ _).2 (hdated hpos))
  refine ⟨?_, hbefore⟩
  have hu : ticksList silent before = 0 ∨ (silentNode silent init && silentInits silent bs) =
    true :=
    hbefore.imp_left (ticksList_eq_zero fun n _ => ticks_eq_zero n).mpr
  have hstart : 0 = 0 + ticks silent init → silentNode silent init = true :=
    fun h0 => (ticks_eq_zero init).mp (by omega)
  rw [Evaluator.evalInits, clock] at hvalue
  exact (ordered_of_value hlinked hkept (Nat.zero_le _) hstart hu hvalue).1

/-- A folded recur is as good as its bind exactly if the fold moves nothing past an effect and no
other reference is to a temporary. -/
theorem foldSafe_iff {var : Symbol} {init : Ast} {bs : List (Symbol × Ast)} {args : List Ast}
    {recur : Ast} (h : Folded var init bs args recur) :
    FoldSafe silent var init bs args recur ↔ Foldable silent var init bs args := by
  obtain ⟨hlinked, before, after, rfl, hothers, rfl⟩ := h
  have hargs :
    (∀ a ∈ before ++ .symbolRef (lastVar var bs) :: after, a ≠ .symbolRef (lastVar var bs) →
      ∀ s ∈ temporaries var bs, s ∉ freeRefs a) ↔ ∀ a ∈ before ++ after, ∀ s ∈ temporaries var bs,
      s ∉ freeRefs a := by
    constructor
    · intro hall a ha
      have hne : a ≠ .symbolRef (lastVar var bs) := by
        rintro rfl
        exact hothers _ ha (by simp [symbolRefs])
      refine hall a ?_ hne
      rcases List.mem_append.mp ha with hb | hb
      · exact List.mem_append_left _ hb
      · exact List.mem_append_right _ (List.mem_cons_of_mem _ hb)
    · intro hall a ha hne
      refine hall a ?_
      rcases List.mem_append.mp ha with hb | hb
      · exact List.mem_append_left _ hb
      · exact List.mem_append_right _ ((List.mem_cons.mp hb).resolve_left hne)
  have htake :
    (before ++ .symbolRef (lastVar var bs) :: after).takeWhile
    (fun a => !a.isRef (lastVar var bs)) =
      before := takeWhile_before fun a ha => hothers a (List.mem_append_left after ha)
  constructor
  · intro hsafe
    obtain ⟨hscoped, hrefs⟩ := (closed_iff (spines_of_kept hlinked hsafe.kept)).mp hsafe.closed
    obtain ⟨hordered, hbefore⟩ :=
    foldable_of_order hlinked hsafe.kept (hsafe.order Stamped Nat (stamps silent))
    exact ⟨hscoped, hordered, hargs.mpr hrefs, by rwa [htake]⟩
  · intro hfoldable
    have hkept := kept_of_ordered hfoldable.order
    have hspines := spines_of_kept hlinked hkept
    have hrefs := hargs.mp hfoldable.args_refs
    have hbefore := hfoldable.args_order
    rw [htake] at hbefore
    have hclosed : ∀ s ∈ temporaries var bs,
        (freeRefs (.recur (before ++ foldLetExpand var init bs :: after))).count s ≤
        (freeRefs (.bind
          (patterns ((var, init) :: bs))
          [.recur (before ++ .symbolRef (lastVar var bs) :: after)])).count s :=
      (closed_iff hspines).mpr ⟨hfoldable.refs, hrefs⟩
    exact ⟨hkept, hclosed, free_of_closed hspines hclosed, fun V W S ρ w =>
      S.evalRecur_folded hlinked hfoldable.refs hfoldable.order hrefs hbefore w⟩

/-- Every recur that `try-let-chain-rw` builds. -/
theorem tryLetChainRw_foldSafe_iff (silent : Symbol → Bool) {Γ : Env} {fuel : Nat}
    {posNames : List (Option Symbol)} {bindings : List (Pattern × Ast)} {body : List Ast}
    {recur : Ast}
    (h : tryLetChainRw (chainKind Γ fuel) posNames bindings body = some (some recur)) :
    ∃ var init bs args, bindings = patterns ((var, init) :: bs) ∧ body = [.recur args] ∧
      (FoldSafe silent var init bs args recur ↔ Foldable silent var init bs args) := by
  obtain ⟨var, init, bs, args, hbindings, hbody, hfolded⟩ := tryLetChainRw_folded h
  exact ⟨var, init, bs, args, hbindings, hbody, foldSafe_iff hfolded⟩

/-- `[c1 (assoc m :k nil) c2 (assoc c1 :l nil)]` -/
def assocChain : List (Symbol × Ast) :=
  [({ name := "C1" }, .call (.symbolRef { name := "ASSOC" })
      [.symbolRef { name := "M" }, .literal (.keyword "K"), .literal .nil]),
    ({ name := "C2" }, .call (.symbolRef { name := "ASSOC" })
      [.symbolRef { name := "C1" }, .literal (.keyword "L"), .literal .nil])]

/-- `(recur c2 n)` is folded as it should be. -/
theorem tryLetChainRw_foldSafe_iff_plain : ∃ recur var init bs args,
    tryLetChainRw (chainKind {} 9) [some { name := "M" }, none] (patterns assocChain)
      [.recur [.symbolRef { name := "C2" }, .symbolRef { name := "N" }]] = some (some recur) ∧
    patterns assocChain = patterns ((var, init) :: bs) ∧
      FoldSafe (fun _ => false) var init bs args recur := by
  obtain ⟨recur, hrecur⟩ :
    ∃ recur, tryLetChainRw (chainKind {} 9) [some { name := "M" }, none] (patterns assocChain)
      [.recur [.symbolRef { name := "C2" }, .symbolRef { name := "N" }]] = some (some recur) :=
      ⟨_, rfl⟩
  obtain ⟨var, init, bs, args, hbindings, hbody, hiff⟩ :=
    tryLetChainRw_foldSafe_iff (fun _ => false) hrecur
  refine ⟨recur, var, init, bs, args, hrecur, hbindings, hiff.mpr ?_⟩
  have hinj : Function.Injective fun b : Symbol × Ast => (Pattern.symbol b.1, b.2) := by
    intro b c h
    simp only [Prod.mk.injEq, Pattern.symbol.injEq] at h
    exact Prod.ext h.1 h.2
  have hbs : assocChain = (var, init) :: bs := List.map_injective_iff.mpr hinj hbindings
  rw [assocChain, List.cons.injEq, Prod.mk.injEq] at hbs
  obtain ⟨⟨rfl, rfl⟩, rfl⟩ := hbs
  simp only [List.cons.injEq, Ast.recur.injEq, and_true] at hbody
  subst hbody
  refine ⟨by simp [Scoped], ?_, ?_, .inl rfl⟩
  · simp [Ordered, ticksBefore, ticksBeforeList, ticks, silentNode]
  · simp [temporaries, lastVar, freeRefs]

/-- `(recur c2 (count c1))` is folded too, in a loop that qualifies, and then nothing binds `c1`. -/
theorem not_foldSafe : ∃ recur,
    (classifyLoopParam {} 20 { name := "M" } 0
      [.bind (patterns assocChain) [.recur [.symbolRef { name := "C2" },
      .call (.symbolRef { name := "COUNT" }) [.symbolRef { name := "C1" }]]]]).map
      (paramVerdict ∘ usesOf) =
        some .qualified ∧
    tryLetChainRw (chainKind {} 9) [some { name := "M" }, none] (patterns assocChain)
      [.recur [.symbolRef { name := "C2" },
        .call (.symbolRef { name := "COUNT" }) [.symbolRef { name := "C1" }]]] = some (some recur) ∧
    { name := "C1" } ∈ freeRefs recur ∧ { name := "C1" } ∉ freeRefs (.bind (patterns assocChain)
      [.recur [.symbolRef { name := "C2" },
        .call (.symbolRef { name := "COUNT" }) [.symbolRef { name := "C1" }]]]) := by
  refine ⟨_, by decide, rfl, by decide, by decide⟩

end Theorem

end Fol.Escape
