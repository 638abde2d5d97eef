/-
Fol.Lib.Bindings — finite maps up to a key equivalence, and lists of bindings.

A finite map is a function `κ → Option ν`; keys are compared with `==`, which is
any equivalence relation, so two different key objects may be the same key. A
list of bindings `Enumerates` a map when it lists every bound key exactly once.
-/
import Mathlib.Data.List.Perm.Basic

namespace Fol.Lib

variable {κ ν : Type*}

/-! ## §1 Finite maps -/

/-- A finite map, as the function that looks a key up. -/
abbrev FMap (κ ν : Type*) := κ → Option ν

namespace FMap

variable [BEq κ]

def empty : FMap κ ν := fun _ => none

def insert (m : FMap κ ν) (k : κ) (v : ν) : FMap κ ν := fun k' => if k == k' then some v else m k'

def erase (m : FMap κ ν) (k : κ) : FMap κ ν := fun k' => if k == k' then none else m k'

end FMap

/-! ## §2 Binding lists -/

section Bindings

variable [BEq κ]

/-- The value the first binding of `k` gives. -/
def lookup (k : κ) (es : List (κ × ν)) : Option ν := (es.find? fun e => e.1 == k).map (·.2)

/-- Is `k` bound? -/
def bound (k : κ) (es : List (κ × ν)) : Bool := es.any fun e => e.1 == k

/-- The bindings of the other keys. -/
def without (k : κ) (es : List (κ × ν)) : List (κ × ν) := es.filter fun e => !(e.1 == k)

/-- Bind `k` to `v`, replacing any binding of `k`. -/
def put (k : κ) (v : ν) (es : List (κ × ν)) : List (κ × ν) := (k, v) :: without k es

/-- No key is bound twice. -/
def Distinct (es : List (κ × ν)) : Prop := es.Pairwise fun a b => (a.1 == b.1) = false

@[simp] theorem lookup_nil (k : κ) : lookup k ([] : List (κ × ν)) = none := rfl
@[simp] theorem bound_nil (k : κ) : bound k ([] : List (κ × ν)) = false := rfl
@[simp] theorem without_nil (k : κ) : without k ([] : List (κ × ν)) = [] := rfl
@[simp] theorem distinct_nil : Distinct ([] : List (κ × ν)) := List.Pairwise.nil

theorem bound_cons (k : κ) (e : κ × ν) (es : List (κ × ν)) :
    bound k (e :: es) = ((e.1 == k) || bound k es) := rfl

@[simp] theorem bound_append (k : κ) (l r : List (κ × ν)) :
    bound k (l ++ r) = (bound k l || bound k r) := List.any_append

@[simp] theorem without_append (k : κ) (l r : List (κ × ν)) :
    without k (l ++ r) = without k l ++ without k r := List.filter_append l r

theorem lookup_cons_pos {k : κ} {e : κ × ν} (es : List (κ × ν)) (h : (e.1 == k) = true) :
    lookup k (e :: es) = some e.2 := by simp [lookup, h]

theorem lookup_cons_neg {k : κ} {e : κ × ν} (es : List (κ × ν)) (h : (e.1 == k) = false) :
    lookup k (e :: es) = lookup k es := by simp [lookup, h]

theorem bound_eq_false_iff {k : κ} {es : List (κ × ν)} :
    bound k es = false ↔ ∀ e ∈ es, (e.1 == k) = false := by
  simp only [bound, List.any_eq_false, Bool.not_eq_true]

theorem lookup_eq_none_iff {k : κ} {es : List (κ × ν)} :
    lookup k es = none ↔ bound k es = false := by
  simp only [lookup, Option.map_eq_none_iff, List.find?_eq_none, bound_eq_false_iff,
    Bool.not_eq_true]

theorem lookup_isSome (k : κ) (es : List (κ × ν)) : (lookup k es).isSome = bound k es := by
  cases hb : bound k es with
  | false => rw [lookup_eq_none_iff.mpr hb]; rfl
  | true =>
    cases hl : lookup k es with
    | none => rw [lookup_eq_none_iff.mp hl] at hb; exact absurd hb (by decide)
    | some v => rfl

theorem without_eq_self {k : κ} {es : List (κ × ν)} (h : bound k es = false) :
    without k es = es := by
  refine List.filter_eq_self.mpr fun e he => ?_
  simp [bound_eq_false_iff.mp h e he]

theorem lookup_append (k : κ) (l r : List (κ × ν)) :
    lookup k (l ++ r) = (lookup k l).or (lookup k r) := by
  rw [lookup, List.find?_append, Option.map_or]
  rfl

theorem lookup_append_of_not_bound {k : κ} {l : List (κ × ν)} (r : List (κ × ν))
    (h : bound k l = false) : lookup k (l ++ r) = lookup k r := by
  have hl : lookup k l = none := lookup_eq_none_iff.mpr h
  unfold lookup at *
  rw [List.find?_append, Option.map_eq_none_iff.mp hl, Option.none_or]

theorem lookup_append_right {k : κ} (l : List (κ × ν)) {r : List (κ × ν)}
    (h : bound k r = false) : lookup k (l ++ r) = lookup k l := by
  have hr : lookup k r = none := lookup_eq_none_iff.mpr h
  unfold lookup at *
  rw [List.find?_append, Option.map_eq_none_iff.mp hr, Option.or_none]

theorem perm_without {es es' : List (κ × ν)} (p : es.Perm es') (k : κ) :
    (without k es).Perm (without k es') := p.filter _

theorem perm_put {es es' : List (κ × ν)} (p : es.Perm es') (k : κ) (v : ν) :
    (put k v es).Perm (put k v es') := (perm_without p k).cons _

theorem Distinct.without {es : List (κ × ν)} (h : Distinct es) (k : κ) : Distinct (without k es) :=
  List.Pairwise.sublist List.filter_sublist h

end Bindings

section Equivalence

variable [BEq κ] [EquivBEq κ]

theorem beq_false_symm {a b : κ} (h : (a == b) = false) : (b == a) = false := by
  rw [BEq.comm]; exact h

theorem beq_congr_left {a b c : κ} (h : (a == b) = true) : (a == c) = (b == c) :=
  Bool.eq_iff_iff.mpr ⟨fun hac => BEq.trans (BEq.symm h) hac, fun hbc => BEq.trans h hbc⟩

theorem beq_congr_right {a b c : κ} (h : (a == b) = true) : (c == a) = (c == b) :=
  Bool.eq_iff_iff.mpr ⟨fun hca => BEq.trans hca h, fun hcb => BEq.trans hcb (BEq.symm h)⟩

theorem Distinct.perm {es es' : List (κ × ν)} (h : Distinct es) (p : es.Perm es') : Distinct es' :=
  p.pairwise h fun hab => beq_false_symm hab

theorem Distinct.put {es : List (κ × ν)} (h : Distinct es) (k : κ) (v : ν) :
    Distinct (put k v es) := by
  refine List.Pairwise.cons ?_ (h.without k)
  intro e he
  have := (List.mem_filter.mp he).2
  exact beq_false_symm (by simpa using this)

/-- In a list without duplicate keys the lookup does not depend on the order. -/
theorem lookup_eq_some_iff {k : κ} {v : ν} {es : List (κ × ν)} (h : Distinct es) :
    lookup k es = some v ↔ ∃ e ∈ es, (e.1 == k) = true ∧ e.2 = v := by
  induction es with
  | nil => simp
  | cons e es ih =>
    have hd := List.pairwise_cons.mp h
    cases hek : e.1 == k with
    | true =>
      rw [lookup_cons_pos es hek]
      constructor
      · intro hv
        exact ⟨e, List.mem_cons_self, hek, Option.some.inj hv⟩
      · rintro ⟨e', he', hk', rfl⟩
        rcases List.mem_cons.mp he' with rfl | he'
        · rfl
        · -- a second binding of `k` would be a duplicate of the head
          have := hd.1 e' he'
          rw [beq_congr_left hek, BEq.symm hk'] at this
          exact absurd this (by decide)
    | false =>
      rw [lookup_cons_neg es hek, ih hd.2]
      constructor
      · rintro ⟨e', he', h'⟩
        exact ⟨e', List.mem_cons_of_mem _ he', h'⟩
      · rintro ⟨e', he', hk', hv'⟩
        rcases List.mem_cons.mp he' with rfl | he'
        · rw [hek] at hk'; exact absurd hk' (by decide)
        · exact ⟨e', he', hk', hv'⟩

theorem lookup_perm {es es' : List (κ × ν)} (h : Distinct es) (p : es.Perm es') (k : κ) :
    lookup k es' = lookup k es := by
  refine Option.ext fun v => ?_
  rw [lookup_eq_some_iff (h.perm p), lookup_eq_some_iff h]
  simp only [p.mem_iff]

theorem lookup_without (k k' : κ) (es : List (κ × ν)) :
    lookup k' (without k es) = if k == k' then none else lookup k' es := by
  induction es with
  | nil => simp
  | cons e es ih =>
    unfold without at ih ⊢
    cases hek : e.1 == k with
    | true =>
      rw [List.filter_cons_of_neg (by simp [hek]), ih]
      cases hkk : k == k' with
      | true => rfl
      | false => rw [lookup_cons_neg es (by rw [beq_congr_left hek, hkk])]
    | false =>
      rw [List.filter_cons_of_pos (by simp [hek])]
      cases hek' : e.1 == k' with
      | true =>
        rw [lookup_cons_pos _ hek', lookup_cons_pos _ hek',
          if_neg (by rw [← beq_congr_right hek', BEq.comm, hek]; decide)]
      | false => rw [lookup_cons_neg _ hek', lookup_cons_neg _ hek', ih]

theorem lookup_put (k k' : κ) (v : ν) (es : List (κ × ν)) :
    lookup k' (put k v es) = if k == k' then some v else lookup k' es := by
  cases hkk : k == k' with
  | true => rw [put, lookup_cons_pos _ hkk]; rfl
  | false => rw [put, lookup_cons_neg _ hkk, lookup_without, hkk]; rfl

/-- Removing a bound key drops exactly one binding. -/
theorem length_without {es : List (κ × ν)} (h : Distinct es) (k : κ) :
    (without k es).length + (if bound k es then 1 else 0) = es.length := by
  induction es with
  | nil => simp
  | cons e es ih =>
    have hd := List.pairwise_cons.mp h
    have ih := ih hd.2
    unfold without at ih ⊢
    cases hek : e.1 == k with
    | true =>
      have hnb : bound k es = false := by
        refine bound_eq_false_iff.mpr fun e' he' => ?_
        have := hd.1 e' he'
        rw [beq_congr_left hek] at this
        exact beq_false_symm this
      rw [List.filter_cons_of_neg (by simp [hek]), bound_cons, hek]
      rw [hnb] at ih
      simpa using ih
    | false =>
      rw [List.filter_cons_of_pos (by simp [hek]), bound_cons, hek]
      simp only [List.length_cons, Bool.false_or]
      omega

theorem length_put {es : List (κ × ν)} (h : Distinct es) (k : κ) (v : ν) :
    (put k v es).length = es.length + (if bound k es then 0 else 1) := by
  have := length_without h k
  rw [put, List.length_cons]
  split at this <;> simp_all

/-! ## §3 Enumeration -/

/-- `es` lists every binding of the map `m` exactly once. -/
structure Enumerates (es : List (κ × ν)) (m : FMap κ ν) : Prop where
  distinct : Distinct es
  agrees : ∀ k, m k = lookup k es

/-- `n` is the number of keys bound in `m`. -/
def HasCount (m : FMap κ ν) (n : Nat) : Prop := ∃ es, Enumerates es m ∧ es.length = n

omit [EquivBEq κ] in
theorem Enumerates.nil : Enumerates [] (FMap.empty : FMap κ ν) := ⟨distinct_nil, fun _ => rfl⟩

theorem Enumerates.perm {es es' : List (κ × ν)} {m : FMap κ ν} (h : Enumerates es m)
    (p : es'.Perm es) : Enumerates es' m :=
  ⟨h.distinct.perm p.symm, fun k => by rw [h.agrees, lookup_perm h.distinct p.symm]⟩

theorem Enumerates.put {es : List (κ × ν)} {m : FMap κ ν} (h : Enumerates es m) (k : κ) (v : ν) :
    Enumerates (put k v es) (m.insert k v) :=
  ⟨h.distinct.put k v, fun k' => by rw [lookup_put, FMap.insert, h.agrees]⟩

theorem Enumerates.without {es : List (κ × ν)} {m : FMap κ ν} (h : Enumerates es m) (k : κ) :
    Enumerates (without k es) (m.erase k) :=
  ⟨h.distinct.without k, fun k' => by rw [lookup_without, FMap.erase, h.agrees]⟩

/-- Every binding of the map is in the list, and the list has no others. -/
theorem Enumerates.mem_iff {es : List (κ × ν)} {m : FMap κ ν} (h : Enumerates es m) {k : κ}
    {v : ν} :
    m k = some v ↔ ∃ e ∈ es, (e.1 == k) = true ∧ e.2 = v := by
  rw [h.agrees, lookup_eq_some_iff h.distinct]

omit [EquivBEq κ] in
theorem Enumerates.bound_iff {es : List (κ × ν)} {m : FMap κ ν} (h : Enumerates es m) (k : κ) :
    bound k es = (m k).isSome := by rw [h.agrees, lookup_isSome]

/-- Two lists that enumerate one map have the same length, so `HasCount` is a
function of the map. -/
theorem Enumerates.length_eq {es es' : List (κ × ν)} {m : FMap κ ν} (h : Enumerates es m)
    (h' : Enumerates es' m) : es.length = es'.length := by
  induction es generalizing es' m with
  | nil =>
    cases es' with
    | nil => rfl
    | cons e' es' =>
      have := h'.agrees e'.1
      rw [lookup_cons_pos es' BEq.rfl, h.agrees] at this
      exact absurd this (by simp)
  | cons e es ih =>
    have hd := List.pairwise_cons.mp h.distinct
    have hnb : bound e.1 es = false :=
      bound_eq_false_iff.mpr fun e' he' => beq_false_symm (hd.1 e' he')
    have hes : Enumerates es (m.erase e.1) := by
      have := h.without e.1
      unfold Lib.without at this
      rw [List.filter_cons_of_neg (by simp)] at this
      change Enumerates (Lib.without e.1 es) _ at this
      rwa [without_eq_self hnb] at this
    have hb : bound e.1 es' = true := by
      rw [h'.bound_iff, h.agrees, lookup_cons_pos es BEq.rfl]; rfl
    have hlen := length_without h'.distinct e.1
    rw [hb] at hlen
    rw [List.length_cons, ih hes (h'.without e.1)]
    simpa using hlen

omit [EquivBEq κ] in
/-- For keys that are equal when they are the same, the bindings are the pairs of the list. -/
theorem Enumerates.mem_pair_iff [LawfulBEq κ] {es : List (κ × ν)} {m : FMap κ ν}
    (h : Enumerates es m) {k : κ} {v : ν} : (k, v) ∈ es ↔ m k = some v := by
  rw [h.mem_iff]
  constructor
  · intro hmem
    exact ⟨_, hmem, BEq.rfl, rfl⟩
  · rintro ⟨e, he, hk, rfl⟩
    rw [← eq_of_beq hk]
    exact he

omit [EquivBEq κ] in
/-- Two lists that enumerate one map are permutations of each other. -/
theorem Enumerates.perm_of [LawfulBEq κ] {es es' : List (κ × ν)} {m : FMap κ ν}
    (h : Enumerates es m) (h' : Enumerates es' m) : es.Perm es' := by
  have hnodup {l : List (κ × ν)} (hd : Distinct l) : l.Nodup := by
    refine hd.imp fun hab heq => ?_
    rw [heq, BEq.rfl] at hab
    cases hab
  rw [List.perm_ext_iff_of_nodup (hnodup h.distinct) (hnodup h'.distinct)]
  rintro ⟨k, v⟩
  rw [h.mem_pair_iff, h'.mem_pair_iff]

end Equivalence

/-! ## §4 Splicing -/

section Splice

variable [BEq κ]

theorem perm_put_middle {k : κ} {v : ν} {l r m m' : List (κ × ν)} (hl : bound k l = false)
    (hr : bound k r = false) (p : m'.Perm (put k v m)) :
    (l ++ m' ++ r).Perm (put k v (l ++ m ++ r)) := by
  have hput : put k v (l ++ m ++ r) = (k, v) :: (l ++ without k m ++ r) := by
    simp [put, without_eq_self hl, without_eq_self hr]
  rw [hput]
  calc (l ++ m' ++ r).Perm (l ++ put k v m ++ r) := (p.append_left l).append_right r
    _ = l ++ (k, v) :: (without k m ++ r) := by simp [put]
    List.Perm _ ((k, v) :: (l ++ (without k m ++ r))) := List.perm_middle
    _ = (k, v) :: (l ++ without k m ++ r) := by simp

theorem perm_without_middle {k : κ} {l r m m' : List (κ × ν)} (hl : bound k l = false)
    (hr : bound k r = false) (p : m'.Perm (without k m)) :
    (l ++ m' ++ r).Perm (without k (l ++ m ++ r)) := by
  rw [without_append, without_append, without_eq_self hl, without_eq_self hr]
  exact (p.append_left l).append_right r

theorem bound_middle {k : κ} {l r : List (κ × ν)} (m : List (κ × ν)) (hl : bound k l = false)
    (hr : bound k r = false) : bound k (l ++ m ++ r) = bound k m := by
  simp [hl, hr]

theorem lookup_middle {k : κ} {l r : List (κ × ν)} (m : List (κ × ν)) (hl : bound k l = false)
    (hr : bound k r = false) : lookup k (l ++ m ++ r) = lookup k m := by
  rw [lookup_append_right _ hr, lookup_append_of_not_bound _ hl]

end Splice

end Fol.Lib
