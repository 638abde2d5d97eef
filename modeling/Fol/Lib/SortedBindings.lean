/-
Fol.Lib.SortedBindings — association lists sorted by a comparator.

A search structure over an ordered key type stores its bindings in key order.
`InsertsAt` and `RemovesAt` say how one operation changes such a list, as a
splice at the place of the key; both compose with what stands to the left and to
the right, and both mean on a map what they should.
-/
import Fol.Lib.Bindings

namespace Fol.Lib

open Std

variable {κ ν : Type} {cmp : κ → κ → Ordering}

/-! ## §1 Order -/

/-- The keys increase strictly. -/
def Sorted (cmp : κ → κ → Ordering) (es : List (κ × ν)) : Prop :=
  es.Pairwise fun a b => cmp a.1 b.1 = .lt

/-- Every key is below `k`. -/
def Below (cmp : κ → κ → Ordering) (es : List (κ × ν)) (k : κ) : Prop :=
  ∀ e ∈ es, cmp e.1 k = .lt

/-- Every key is above `k`. -/
def Above (cmp : κ → κ → Ordering) (k : κ) (es : List (κ × ν)) : Prop :=
  ∀ e ∈ es, cmp k e.1 = .lt

theorem Below.nil (k : κ) : Below cmp ([] : List (κ × ν)) k := by
  intro e he
  exact absurd he List.not_mem_nil

theorem Above.nil (k : κ) : Above cmp k ([] : List (κ × ν)) := by
  intro e he
  exact absurd he List.not_mem_nil

theorem Below.append {l r : List (κ × ν)} {k : κ} (hl : Below cmp l k) (hr : Below cmp r k) :
    Below cmp (l ++ r) k := by
  intro e he
  rcases List.mem_append.mp he with he | he
  · exact hl e he
  · exact hr e he

theorem Above.append {l r : List (κ × ν)} {k : κ} (hl : Above cmp k l) (hr : Above cmp k r) :
    Above cmp k (l ++ r) := by
  intro e he
  rcases List.mem_append.mp he with he | he
  · exact hl e he
  · exact hr e he

section Trans

variable [TransCmp cmp]

theorem Above.trans {es : List (κ × ν)} {a b : κ} (hab : cmp a b = .lt) (h : Above cmp b es) :
    Above cmp a es := fun e he => TransCmp.lt_trans hab (h e he)

/-- A sorted list cut at an element. -/
theorem sorted_middle {l r : List (κ × ν)} {e : κ × ν} :
    Sorted cmp (l ++ e :: r) ↔
      Sorted cmp l ∧ Sorted cmp r ∧ Below cmp l e.1 ∧ Above cmp e.1 r := by
  unfold Sorted
  rw [List.pairwise_append, List.pairwise_cons]
  constructor
  · rintro ⟨hl, ⟨her, hr⟩, hlr⟩
    exact ⟨hl, hr, fun a ha => hlr a ha e List.mem_cons_self, her⟩
  · rintro ⟨hl, hr, hle, her⟩
    refine ⟨hl, ⟨her, hr⟩, fun a ha b hb => ?_⟩
    rcases List.mem_cons.mp hb with rfl | hb
    · exact hle a ha
    · exact TransCmp.lt_trans (hle a ha) (her b hb)

omit [TransCmp cmp] in
theorem sorted_append {l r : List (κ × ν)} :
    Sorted cmp (l ++ r) ↔
      Sorted cmp l ∧ Sorted cmp r ∧ ∀ a ∈ l, ∀ b ∈ r, cmp a.1 b.1 = .lt := List.pairwise_append

end Trans

section Beq

variable [BEq κ] [LawfulBEqCmp cmp]

theorem beq_false_of_lt {a b : κ} (h : cmp a b = .lt) : (a == b) = false := by
  have hne : cmp a b ≠ .eq := by
    rw [h]
    decide
  exact LawfulBEqCmp.not_compare_eq_iff_beq_eq_false.mp hne

theorem Below.not_bound {es : List (κ × ν)} {k : κ} (h : Below cmp es k) : bound k es = false :=
  bound_eq_false_iff.mpr fun e he => beq_false_of_lt (h e he)

theorem Above.not_bound [EquivBEq κ] {es : List (κ × ν)} {k : κ} (h : Above cmp k es) :
    bound k es = false :=
  bound_eq_false_iff.mpr fun e he => beq_false_symm (beq_false_of_lt (h e he))

theorem Sorted.distinct {es : List (κ × ν)} (h : Sorted cmp es) : Distinct es :=
  List.Pairwise.imp beq_false_of_lt h

end Beq

/-! ## §2 Insertion -/

/-- The list after binding `k` to `v`. `old` is the value `k` had; its key object
stays. -/
def InsertsAt (cmp : κ → κ → Ordering) (k : κ) (v : ν) (es es' : List (κ × ν)) (old : Option ν) :
    Prop :=
  ∃ l r, Below cmp l k ∧ Above cmp k r ∧
    ((old = none ∧ es = l ++ r ∧ es' = l ++ (k, v) :: r) ∨
      ∃ k' v', cmp k k' = .eq ∧ old = some v' ∧ es = l ++ (k', v') :: r ∧
        es' = l ++ (k', v) :: r)

theorem InsertsAt.middle {k : κ} {v : ν} {es es' L R : List (κ × ν)} {old : Option ν}
    (h : InsertsAt cmp k v es es' old) (hL : Below cmp L k) (hR : Above cmp k R) :
    InsertsAt cmp k v (L ++ es ++ R) (L ++ es' ++ R) old := by
  obtain ⟨l, r, hl, hr, ⟨rfl, rfl, rfl⟩ | ⟨k', v', hk, rfl, rfl, rfl⟩⟩ := h
  · exact ⟨L ++ l, r ++ R, hL.append hl, hr.append hR, .inl ⟨rfl, by simp, by simp⟩⟩
  · exact ⟨L ++ l, r ++ R, hL.append hl, hr.append hR,
      .inr ⟨k', v', hk, rfl, by simp, by simp⟩⟩

theorem InsertsAt.length {k : κ} {v : ν} {es es' : List (κ × ν)} {old : Option ν}
    (h : InsertsAt cmp k v es es' old) :
    es'.length = if old.isSome then es.length else es.length + 1 := by
  obtain ⟨l, r, -, -, ⟨rfl, rfl, rfl⟩ | ⟨k', v', -, rfl, rfl, rfl⟩⟩ := h
  · simp
    omega
  · simp

section Trans

variable [TransCmp cmp]

/-- A first binding below the key stays first. -/
theorem InsertsAt.head {k : κ} {v : ν} {e : κ × ν} {es es' : List (κ × ν)} {old : Option ν}
    (h : InsertsAt cmp k v (e :: es) es' old) (he : cmp e.1 k = .lt) : ∃ t, es' = e :: t := by
  obtain ⟨l, r, -, hr, ⟨-, hes, rfl⟩ | ⟨k', v', hk, -, hes, rfl⟩⟩ := h
  · cases l with
    | nil =>
      rw [List.nil_append] at hes
      have hgt := hr e (by rw [← hes]; exact List.mem_cons_self)
      exact absurd he (OrientedCmp.not_lt_of_lt hgt)
    | cons a l =>
      cases hes
      exact ⟨_, rfl⟩
  · cases l with
    | nil =>
      cases hes
      rw [OrientedCmp.eq_symm hk] at he
      cases he
    | cons a l =>
      cases hes
      exact ⟨_, rfl⟩

theorem InsertsAt.sorted {k : κ} {v : ν} {es es' : List (κ × ν)} {old : Option ν}
    (h : InsertsAt cmp k v es es' old) (hs : Sorted cmp es) : Sorted cmp es' := by
  obtain ⟨l, r, hl, hr, ⟨-, rfl, rfl⟩ | ⟨k', v', -, -, rfl, rfl⟩⟩ := h
  · obtain ⟨hsl, hsr, -⟩ := sorted_append.mp hs
    exact sorted_middle.mpr ⟨hsl, hsr, hl, hr⟩
  · obtain ⟨hsl, hsr, hle, her⟩ := sorted_middle.mp hs
    exact sorted_middle.mpr ⟨hsl, hsr, hle, her⟩

omit [TransCmp cmp] in
/-- Where no binding is equal to the key, the new one comes in addition. -/
theorem InsertsAt.perm_of_absent {k : κ} {v : ν} {es es' : List (κ × ν)} {old : Option ν}
    (h : InsertsAt cmp k v es es' old) (hk : ∀ e ∈ es, cmp k e.1 ≠ .eq) :
    es'.Perm ((k, v) :: es) := by
  obtain ⟨l, r, -, -, ⟨-, rfl, rfl⟩ | ⟨k', v', heq, -, rfl, -⟩⟩ := h
  · exact List.perm_middle
  · exact absurd heq (hk (k', v') (by simp))

end Trans

section Beq

variable [BEq κ] [EquivBEq κ] [LawfulBEqCmp cmp]

/-- Exchanging the key of a binding for an equal one does not change the map. -/
theorem Enumerates.congr_key {k k' : κ} {v : ν} {es : List (κ × ν)} {m : FMap κ ν}
    (h : Enumerates ((k, v) :: es) m) (hk : (k == k') = true) : Enumerates ((k', v) :: es) m := by
  obtain ⟨hd, ha⟩ := h
  obtain ⟨hd₁, hd₂⟩ := List.pairwise_cons.mp hd
  refine ⟨List.pairwise_cons.mpr ⟨fun e he => ?_, hd₂⟩, fun k'' => ?_⟩
  · rw [← beq_congr_left hk]
    exact hd₁ e he
  · rw [ha]
    have hkk : (k == k'') = (k' == k'') := beq_congr_left hk
    cases hb : k == k'' with
    | true => rw [lookup_cons_pos _ hb, lookup_cons_pos _ (hkk ▸ hb)]
    | false => rw [lookup_cons_neg _ hb, lookup_cons_neg _ (hkk ▸ hb)]

theorem InsertsAt.enumerates {k : κ} {v : ν} {es es' : List (κ × ν)} {old : Option ν}
    {m : FMap κ ν} (h : InsertsAt cmp k v es es' old) (he : Enumerates es m) :
    Enumerates es' (m.insert k v) := by
  have hput := he.put k v
  obtain ⟨l, r, hl, hr, ⟨-, rfl, rfl⟩ | ⟨k', v', hk, -, rfl, rfl⟩⟩ := h
  · rw [put, without_eq_self (by rw [bound_append, hl.not_bound, hr.not_bound]; rfl)] at hput
    exact hput.perm List.perm_middle
  · have hkk : (k == k') = true := LawfulBEqCmp.compare_eq_iff_beq.mp hk
    have hwo : without k (l ++ (k', v') :: r) = l ++ r := by
      rw [without_append, without_eq_self hl.not_bound]
      congr 1
      have hcons : without k ((k', v') :: r) = without k r := by
        simp [without, BEq.symm hkk]
      rw [hcons, without_eq_self hr.not_bound]
    rw [put, hwo] at hput
    exact (hput.congr_key hkk).perm List.perm_middle

end Beq

/-! ## §3 Removal -/

/-- The list after unbinding `k`; `old` is the value `k` had. -/
def RemovesAt (cmp : κ → κ → Ordering) (k : κ) (es es' : List (κ × ν)) (old : Option ν) : Prop :=
  ∃ l r, Below cmp l k ∧ Above cmp k r ∧
    ((old = none ∧ es = l ++ r ∧ es' = l ++ r) ∨
      ∃ k' v', cmp k k' = .eq ∧ old = some v' ∧ es = l ++ (k', v') :: r ∧ es' = l ++ r)

theorem RemovesAt.middle {k : κ} {es es' L R : List (κ × ν)} {old : Option ν}
    (h : RemovesAt cmp k es es' old) (hL : Below cmp L k) (hR : Above cmp k R) :
    RemovesAt cmp k (L ++ es ++ R) (L ++ es' ++ R) old := by
  obtain ⟨l, r, hl, hr, ⟨rfl, rfl, rfl⟩ | ⟨k', v', hk, rfl, rfl, rfl⟩⟩ := h
  · exact ⟨L ++ l, r ++ R, hL.append hl, hr.append hR, .inl ⟨rfl, by simp, by simp⟩⟩
  · exact ⟨L ++ l, r ++ R, hL.append hl, hr.append hR,
      .inr ⟨k', v', hk, rfl, by simp, by simp⟩⟩

theorem RemovesAt.length {k : κ} {es es' : List (κ × ν)} {old : Option ν}
    (h : RemovesAt cmp k es es' old) :
    es'.length = if old.isSome then es.length - 1 else es.length := by
  obtain ⟨l, r, -, -, ⟨rfl, rfl, rfl⟩ | ⟨k', v', -, rfl, rfl, rfl⟩⟩ := h
  · simp
  · simp

theorem RemovesAt.absent {k : κ} {es es' : List (κ × ν)} (h : RemovesAt cmp k es es' none) :
    es' = es := by
  obtain ⟨l, r, -, -, ⟨-, rfl, rfl⟩ | ⟨k', v', -, hold, -⟩⟩ := h
  · rfl
  · cases hold

section Trans

variable [TransCmp cmp]

theorem RemovesAt.sorted {k : κ} {es es' : List (κ × ν)} {old : Option ν}
    (h : RemovesAt cmp k es es' old) (hs : Sorted cmp es) : Sorted cmp es' := by
  obtain ⟨l, r, hl, hr, ⟨-, rfl, rfl⟩ | ⟨k', v', -, -, rfl, rfl⟩⟩ := h
  · exact hs
  · obtain ⟨hsl, hsr, hle, her⟩ := sorted_middle.mp hs
    exact sorted_append.mpr ⟨hsl, hsr, fun a ha b hb => TransCmp.lt_trans (hle a ha) (her b hb)⟩

/-- A binding of the key itself is the one that goes. -/
theorem RemovesAt.perm_of_mem {k : κ} {v : ν} {es es' : List (κ × ν)} {old : Option ν}
    (h : RemovesAt cmp k es es' old) (hmem : (k, v) ∈ es) : es.Perm ((k, v) :: es') := by
  have heq : cmp k k = .eq := ReflCmp.compare_self
  have hself : cmp k k ≠ .lt := by rw [heq]; decide
  obtain ⟨l, r, hl, hr, ⟨-, rfl, -⟩ | ⟨k', v', -, -, rfl, rfl⟩⟩ := h
  · rcases List.mem_append.mp hmem with hmem | hmem
    · exact absurd (hl _ hmem) hself
    · exact absurd (hr _ hmem) hself
  · rcases List.mem_append.mp hmem with hmem | hmem
    · exact absurd (hl _ hmem) hself
    · rcases List.mem_cons.mp hmem with hkv | hmem
      · rw [hkv]
        exact List.perm_middle
      · exact absurd (hr _ hmem) hself

/-- A first binding below the key stays first. -/
theorem RemovesAt.head {k : κ} {e : κ × ν} {es es' : List (κ × ν)} {old : Option ν}
    (h : RemovesAt cmp k (e :: es) es' old) (he : cmp e.1 k = .lt) : ∃ t, es' = e :: t := by
  obtain ⟨l, r, -, hr, ⟨-, hes, rfl⟩ | ⟨k', v', hk, -, hes, rfl⟩⟩ := h
  · exact ⟨es, hes.symm⟩
  · cases l with
    | nil =>
      cases hes
      rw [OrientedCmp.eq_symm hk] at he
      cases he
    | cons a l =>
      cases hes
      exact ⟨_, rfl⟩

end Trans

section Beq

variable [BEq κ] [EquivBEq κ] [LawfulBEqCmp cmp]

theorem RemovesAt.enumerates {k : κ} {es es' : List (κ × ν)} {old : Option ν} {m : FMap κ ν}
    (h : RemovesAt cmp k es es' old) (he : Enumerates es m) : Enumerates es' (m.erase k) := by
  have hwo := he.without k
  obtain ⟨l, r, hl, hr, ⟨-, rfl, rfl⟩ | ⟨k', v', hk, -, rfl, rfl⟩⟩ := h
  · rw [without_eq_self (by rw [bound_append, hl.not_bound, hr.not_bound]; rfl)] at hwo
    exact hwo
  · have hkk : (k' == k) = true := BEq.symm (LawfulBEqCmp.compare_eq_iff_beq.mp hk)
    have hcons : without k ((k', v') :: r) = without k r := by simp [without, hkk]
    rw [without_append, hcons, without_eq_self hl.not_bound, without_eq_self hr.not_bound] at hwo
    exact hwo

end Beq

end Fol.Lib
