/-
Fol.Lib.OrderedBindings — bindings in the order in which their keys were first bound.

`upsert` updates a bound key in place and appends an unbound one; the first binding's
key stays. Keys are compared with a boolean equivalence, so the key that stays need not
be identical to the one given.
-/
import Fol.Lib.Bindings

namespace Fol.Lib

variable {κ ν : Type*} [BEq κ]

/-! ## §1 Updates in place -/

/-- Bind `k` to `v` at the place where `k` is bound, at the end otherwise. -/
def upsert (k : κ) (v : ν) : List (κ × ν) → List (κ × ν)
  | [] => [(k, v)]
  | e :: es => if e.1 == k then (e.1, v) :: es else e :: upsert k v es

theorem keys_upsert (k : κ) (v : ν) (es : List (κ × ν)) :
    (upsert k v es).map Prod.fst =
      if bound k es then es.map Prod.fst else es.map Prod.fst ++ [k] := by
  induction es with
  | nil => rfl
  | cons e es ih =>
    rw [upsert, bound_cons]
    cases hek : e.1 == k with
    | true => simp
    | false =>
      simp only [Bool.false_eq_true, if_false, List.map_cons, ih, Bool.false_or]
      split <;> simp

theorem upsert_ne_nil (k : κ) (v : ν) (es : List (κ × ν)) : upsert k v es ≠ [] := by
  cases es with
  | nil => simp [upsert]
  | cons e es =>
    rw [upsert]
    split <;> simp

theorem distinct_map_fst {es es' : List (κ × ν)} (h : es.map Prod.fst = es'.map Prod.fst)
    (hd : Distinct es) : Distinct es' := by
  have hpair (l : List (κ × ν)) :
      Distinct l ↔ (l.map Prod.fst).Pairwise fun a b => (a == b) = false := by
    rw [Distinct, List.pairwise_map]
  rw [hpair] at hd ⊢
  rwa [← h]

theorem Distinct.upsert {es : List (κ × ν)} (h : Distinct es) (k : κ) (v : ν) :
    Distinct (upsert k v es) := by
  cases hb : bound k es with
  | true =>
    refine distinct_map_fst ?_ h
    rw [keys_upsert, hb, if_pos rfl]
  | false =>
    have hkeys : (es ++ [(k, v)]).map Prod.fst = (Lib.upsert k v es).map Prod.fst := by
      simp [keys_upsert, hb]
    refine distinct_map_fst hkeys (List.pairwise_append.mpr ⟨h, List.pairwise_singleton _ _, ?_⟩)
    intro e he e' he'
    rw [List.mem_singleton.mp he']
    exact bound_eq_false_iff.mp hb e he

section Equivalence

variable [EquivBEq κ]

theorem lookup_upsert (k k' : κ) (v : ν) (es : List (κ × ν)) :
    lookup k' (upsert k v es) = if k == k' then some v else lookup k' es := by
  induction es with
  | nil => cases hkk : k == k' <;> simp [upsert, lookup, hkk]
  | cons e es ih =>
    rw [upsert]
    cases hek : e.1 == k with
    | true =>
      have hcongr : (e.1 == k') = (k == k') := beq_congr_left hek
      cases hkk : k == k' <;> simp [lookup, hcongr, hkk]
    | false =>
      simp only [Bool.false_eq_true, if_false]
      cases hek' : e.1 == k' with
      | true =>
        have hkk : (k == k') = false := by
          rw [← beq_congr_right hek', BEq.comm]
          exact hek
        rw [lookup_cons_pos _ hek', hkk, lookup_cons_pos _ hek']
        rfl
      | false => rw [lookup_cons_neg _ hek', lookup_cons_neg _ hek', ih]

theorem bound_upsert (k k' : κ) (v : ν) (es : List (κ × ν)) :
    bound k' (upsert k v es) = ((k == k') || bound k' es) := by
  rw [← lookup_isSome, lookup_upsert, ← lookup_isSome]
  cases k == k' <;> simp

end Equivalence

/-! ## §2 Whole lists -/

/-- The pairs bound one after the other. -/
def upsertAll (es : List (κ × ν)) (pairs : List (κ × ν)) : List (κ × ν) :=
  pairs.foldl (fun es p => upsert p.1 p.2 es) es

/-- The keys not yet in `seen`, each at its first occurrence. -/
def firsts (seen : List κ) : List κ → List κ
  | [] => []
  | k :: ks => if seen.any (· == k) then firsts seen ks else k :: firsts (seen ++ [k]) ks

theorem keys_upsertAll (es pairs : List (κ × ν)) :
    (upsertAll es pairs).map Prod.fst =
      es.map Prod.fst ++ firsts (es.map Prod.fst) (pairs.map Prod.fst) := by
  induction pairs generalizing es with
  | nil => simp [upsertAll, firsts]
  | cons p pairs ih =>
    have hany : (es.map Prod.fst).any (· == p.1) = bound p.1 es := by
      rw [bound, List.any_map]
      rfl
    rw [upsertAll, List.foldl_cons, ← upsertAll, ih, keys_upsert, List.map_cons, firsts, hany]
    cases bound p.1 es with
    | true => rfl
    | false => simp

theorem upsertAll_ne_nil {es : List (κ × ν)} (h : es ≠ []) (pairs : List (κ × ν)) :
    upsertAll es pairs ≠ [] := by
  induction pairs generalizing es with
  | nil => exact h
  | cons p pairs ih => exact ih (upsert_ne_nil p.1 p.2 es)

theorem Distinct.upsertAll {es : List (κ × ν)} (h : Distinct es) (pairs : List (κ × ν)) :
    Distinct (upsertAll es pairs) := by
  induction pairs generalizing es with
  | nil => exact h
  | cons p pairs ih => exact ih (h.upsert p.1 p.2)

section Equivalence

variable [EquivBEq κ]

theorem lookup_upsertAll (k : κ) (es pairs : List (κ × ν)) :
    lookup k (upsertAll es pairs) = (lookup k pairs.reverse).or (lookup k es) := by
  induction pairs generalizing es with
  | nil => simp [upsertAll]
  | cons p pairs ih =>
    rw [upsertAll, List.foldl_cons, ← upsertAll, ih, lookup_upsert, List.reverse_cons,
      lookup_append, Option.or_assoc]
    cases hp : p.1 == k with
    | true => rw [lookup_cons_pos _ hp]; rfl
    | false => rw [lookup_cons_neg _ hp]; rfl

theorem bound_upsertAll (k : κ) (es pairs : List (κ × ν)) :
    bound k (upsertAll es pairs) = (bound k es || bound k pairs) := by
  induction pairs generalizing es with
  | nil => simp [upsertAll]
  | cons p pairs ih =>
    rw [upsertAll, List.foldl_cons, ← upsertAll, ih, bound_upsert, bound_cons, Bool.or_assoc,
      Bool.or_left_comm]

end Equivalence

end Fol.Lib
