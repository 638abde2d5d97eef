/-
Fol.SortedDict.BulkLoad — `btree-bulk-load` keeps the separator invariant.

The sort puts the later of two pairs with equal keys first, and the loop after it
drops the others: the last pair of a key wins. The levels are then built from the
bottom, and every routing key is the first key of the child behind it.
-/
import Fol.SortedDict.Invariant

namespace Fol.SortedDict

open Lib Std

variable {κ ν : Type} {cmp : κ → κ → Ordering}

/-- The pairs of a flat sequence bound one after the other. -/
def bindAll [BEq κ] (pairs : List (κ × ν)) : FMap κ ν :=
  pairs.foldl (fun m p => m.insert p.1 p.2) FMap.empty

/-! ## §1 Sorting -/

section Sorting

/-- The order of the sort, as a weak one. -/
theorem sortsBefore_iff (a b : (κ × ν) × Nat) :
    sortsBefore cmp a b = true ↔
      cmp a.1.1 b.1.1 = .lt ∨ (cmp a.1.1 b.1.1 = .eq ∧ b.2 < a.2) := by
  unfold sortsBefore
  cases h : cmp a.1.1 b.1.1 <;> simp

theorem not_sortsBefore_iff [OrientedCmp cmp] (a b : (κ × ν) × Nat) :
    (!sortsBefore cmp b a) = true ↔
      cmp a.1.1 b.1.1 = .lt ∨ (cmp a.1.1 b.1.1 = .eq ∧ b.2 ≤ a.2) := by
  rw [Bool.not_eq_true', ← Bool.not_eq_true, sortsBefore_iff]
  cases h : cmp a.1.1 b.1.1 with
  | lt => simp [OrientedCmp.gt_of_lt h]
  | eq => simp [OrientedCmp.eq_symm h]
  | gt => simp [OrientedCmp.lt_of_gt h]

variable [TransCmp cmp]

theorem sorts_trans (a b c : (κ × ν) × Nat) (hab : (!sortsBefore cmp b a) = true)
    (hbc : (!sortsBefore cmp c b) = true) : (!sortsBefore cmp c a) = true := by
  rw [not_sortsBefore_iff] at hab hbc ⊢
  rcases hab with hab | ⟨hab, hi⟩ <;> rcases hbc with hbc | ⟨hbc, hj⟩
  · exact .inl (TransCmp.lt_trans hab hbc)
  · exact .inl (TransCmp.lt_of_lt_of_eq hab hbc)
  · exact .inl (TransCmp.lt_of_eq_of_lt hab hbc)
  · exact .inr ⟨TransCmp.eq_trans hab hbc, Nat.le_trans hj hi⟩

theorem sorts_total (a b : (κ × ν) × Nat) :
    (!sortsBefore cmp b a || !sortsBefore cmp a b) = true := by
  rw [Bool.or_eq_true, not_sortsBefore_iff, not_sortsBefore_iff]
  cases h : cmp a.1.1 b.1.1 with
  | lt => exact .inl (.inl rfl)
  | gt => exact .inr (.inl (OrientedCmp.lt_of_gt h))
  | eq =>
    rcases Nat.le_total b.2 a.2 with hle | hle
    · exact .inl (.inr ⟨rfl, hle⟩)
    · exact .inr (.inr ⟨OrientedCmp.eq_symm h, hle⟩)

variable [BEq κ] [LawfulBEqCmp cmp]

omit [TransCmp cmp] [LawfulBEqCmp cmp] in
theorem find?_map_fst (k : κ) (s : List ((κ × ν) × Nat)) :
    (s.map (·.1)).find? (fun p => p.1 == k) = (s.filter fun t => t.1.1 == k).head?.map (·.1) := by
  rw [List.head?_filter, List.find?_map]
  rfl

/-- Among the pairs of one key the sort keeps the order of the tagged list, where
later pairs come first. -/
theorem find?_sorted [EquivBEq κ] {tagged : List ((κ × ν) × Nat)}
    (h : tagged.Pairwise fun a b => b.2 < a.2) (k : κ) :
    ((tagged.mergeSort fun a b => !sortsBefore cmp b a).map (·.1)).find? (fun p => p.1 == k) =
      (tagged.map (·.1)).find? fun p => p.1 == k := by
  rw [find?_map_fst, find?_map_fst]
  congr 2
  have hsub : (tagged.filter fun t => t.1.1 == k).Sublist
      (tagged.mergeSort fun a b => !sortsBefore cmp b a) := by
    refine List.sublist_mergeSort sorts_trans sorts_total ?_ List.filter_sublist
    rw [List.pairwise_filter]
    refine h.imp fun {a b} hlt ha hb => ?_
    have hab : (a.1.1 == b.1.1) = true := BEq.trans ha (BEq.symm hb)
    exact (not_sortsBefore_iff a b).mpr
      (.inr ⟨LawfulBEqCmp.compare_eq_iff_beq.mpr hab, Nat.le_of_lt hlt⟩)
  have hfilter := hsub.filter fun t => t.1.1 == k
  rw [List.filter_filter] at hfilter
  simp only [Bool.and_self] at hfilter
  refine (hfilter.eq_of_length ?_).symm
  exact ((List.mergeSort_perm tagged _).filter _).length_eq.symm

omit [TransCmp cmp] [LawfulBEqCmp cmp] in
/-- Binding pair after pair, the last pair of a key wins. -/
theorem bindAll_eq_lookup (pairs : List (κ × ν)) (k : κ) :
    bindAll pairs k = lookup k pairs.reverse := by
  suffices h : ∀ m : FMap κ ν, pairs.foldl (fun m p => m.insert p.1 p.2) m k =
      (lookup k pairs.reverse).or (m k) by
    rw [bindAll, h, FMap.empty, Option.or_none]
  induction pairs with
  | nil => exact fun m => rfl
  | cons p pairs ih =>
    intro m
    rw [List.foldl_cons, ih, List.reverse_cons, FMap.insert]
    unfold lookup
    rw [List.find?_append, Option.map_or, Option.or_assoc]
    congr 1
    cases hp : p.1 == k <;> simp [hp]

end Sorting

/-! ## §2 Deduplication -/

section Dedup

variable [TransCmp cmp] [BEq κ] [EquivBEq κ] [LawfulBEqCmp cmp]

/-- Deduplicating a sorted list keeps the first pair of every key but the last one
kept before. -/
theorem uniquePairs_spec {s : List ((κ × ν) × Nat)}
    (hs : s.Pairwise fun a b => (cmp a.1.1 b.1.1).isLE) (last : Option κ)
    (hlast : ∀ k ∈ last, ∀ t ∈ s, (cmp k t.1.1).isLE) :
    Sorted cmp (uniquePairs cmp last s) ∧
      (∀ k ∈ last, Above cmp k (uniquePairs cmp last s)) ∧
      ∀ k, (last.any (· == k)) = false →
        (uniquePairs cmp last s).find? (fun p => p.1 == k) = (s.map (·.1)).find? fun p =>
        p.1 == k := by
  induction s generalizing last with
  | nil => exact ⟨List.Pairwise.nil, fun k _ => Above.nil k, fun k _ => rfl⟩
  | cons t s ih =>
    obtain ⟨p, i⟩ := t
    obtain ⟨hp, hs⟩ := List.pairwise_cons.mp hs
    rw [uniquePairs]
    by_cases hdup : last.any (fun k => (cmp p.1 k).isEq) = true
    · rw [if_pos hdup]
      obtain ⟨hsorted, habove, hlook⟩ :=
        ih hs last fun k hk t ht => hlast k hk t (List.mem_cons_of_mem _ ht)
      refine ⟨hsorted, habove, fun k hk => ?_⟩
      cases last with
      | none => cases hdup
      | some k' =>
        have hpk : (p.1 == k') = true :=
          LawfulBEqCmp.compare_eq_iff_beq.mp (Ordering.isEq_iff_eq_eq.mp hdup)
        have hne : (p.1 == k) = false := (beq_congr_left hpk).trans hk
        rw [hlook k hk, List.map_cons, List.find?_cons_of_neg (by simp [hne])]
    · rw [if_neg hdup]
      obtain ⟨hsorted, habove, hlook⟩ := ih hs (some p.1) fun k hk t ht => by
        cases hk
        exact hp t ht
      have habove := habove p.1 rfl
      refine ⟨List.pairwise_cons.mpr ⟨habove, hsorted⟩, fun k hk => ?_, fun k hk => ?_⟩
      · cases hk
        have hlt : cmp k p.1 = .lt := by
          have hle := hlast k rfl (p, i) List.mem_cons_self
          cases hcmp : cmp k p.1 with
          | lt => rfl
          | eq => exact absurd (Ordering.isEq_iff_eq_eq.mpr (OrientedCmp.eq_symm hcmp)) hdup
          | gt => rw [hcmp] at hle; cases hle
        intro e he
        rcases List.mem_cons.mp he with rfl | he
        · exact hlt
        · exact (Above.trans hlt habove) e he
      · rw [List.map_cons]
        cases hpk : p.1 == k with
        | true => simp [hpk]
        | false =>
          simp only [List.find?_cons, hpk]
          exact hlook k hpk

variable (cmp) in
/-- The pairs the tree is built from: of each key the last. -/
theorem unique_last (pairs : List (κ × ν)) :
    ∃ unique, btreeBulkLoad cmp pairs = buildBottomUp unique ∧ Sorted cmp unique ∧
      ∀ k, unique.find? (fun p => p.1 == k) = pairs.reverse.find? fun p => p.1 == k := by
  have hle : (pairs.zipIdx.reverse.mergeSort fun a b => !sortsBefore cmp b a).Pairwise
      fun a b => (!sortsBefore cmp b a) = true :=
    List.pairwise_mergeSort sorts_trans sorts_total pairs.zipIdx.reverse
  have hkeys : (pairs.zipIdx.reverse.mergeSort fun a b => !sortsBefore cmp b a).Pairwise
      fun a b => (cmp a.1.1 b.1.1).isLE := by
    refine hle.imp fun {a b} h => ?_
    rcases (not_sortsBefore_iff a b).mp h with h | ⟨h, -⟩ <;> rw [h] <;> rfl
  obtain ⟨hsorted, -, hlook⟩ := uniquePairs_spec hkeys none
    fun k hk => absurd hk.symm (Option.some_ne_none k)
  refine ⟨_, rfl, hsorted, fun k => ?_⟩
  have htags : pairs.zipIdx.reverse.Pairwise fun a b => b.2 < a.2 := by
    rw [List.pairwise_reverse]
    refine List.pairwise_iff_getElem.mpr fun i j hi hj hij => ?_
    rw [List.getElem_zipIdx, List.getElem_zipIdx]
    simpa using hij
  rw [hlook k rfl, find?_sorted htags, List.map_reverse, List.zipIdx_map_fst]

variable (cmp) in
/-- The pairs the tree is built from enumerate the map. -/
theorem unique_spec (pairs : List (κ × ν)) :
    ∃ unique, btreeBulkLoad cmp pairs = buildBottomUp unique ∧ Sorted cmp unique ∧
      Enumerates unique (bindAll pairs) := by
  obtain ⟨unique, hload, hsorted, hlast⟩ := unique_last cmp pairs
  refine ⟨unique, hload, hsorted, hsorted.distinct, fun k => ?_⟩
  rw [bindAll_eq_lookup, lookup, lookup, hlast k]

/-- Equality of keys as a comparator has it. -/
@[reducible] def cmpBEq (cmp : κ → κ → Ordering) : BEq κ := ⟨fun a b => (cmp a b).isEq⟩

omit [BEq κ] [EquivBEq κ] [LawfulBEqCmp cmp] in
theorem cmpBEq_equivBEq : @EquivBEq κ (cmpBEq cmp) :=
  let _ := cmpBEq cmp
  { rfl := Ordering.isEq_iff_eq_eq.mpr ReflCmp.compare_self
    symm := fun h =>
    Ordering.isEq_iff_eq_eq.mpr (OrientedCmp.eq_symm (Ordering.isEq_iff_eq_eq.mp h))
    trans := fun hab hbc => Ordering.isEq_iff_eq_eq.mpr
      (TransCmp.eq_trans (Ordering.isEq_iff_eq_eq.mp hab) (Ordering.isEq_iff_eq_eq.mp hbc)) }

omit [TransCmp cmp] [BEq κ] [EquivBEq κ] [LawfulBEqCmp cmp] in
theorem cmpBEq_lawful : @LawfulBEqCmp κ (cmpBEq cmp) cmp :=
  let _ := cmpBEq cmp
  { compare_eq_iff_beq := Ordering.isEq_iff_eq_eq.symm }

omit [BEq κ] [EquivBEq κ] [LawfulBEqCmp cmp] in
variable (cmp) in
/-- The pairs a tree is built from, with the equality of the comparator. -/
theorem unique_sorted (pairs : List (κ × ν)) :
    ∃ unique, btreeBulkLoad cmp pairs = buildBottomUp unique ∧ Sorted cmp unique ∧
      ∀ k, unique.find? (fun p => (cmp p.1 k).isEq) = pairs.reverse.find? fun p =>
      (cmp p.1 k).isEq := by
  let _ := cmpBEq cmp
  have : EquivBEq κ := cmpBEq_equivBEq
  have : LawfulBEqCmp cmp := cmpBEq_lawful
  exact unique_last cmp pairs

end Dedup

/-! ## §3 Levels -/

section Levels

variable [TransCmp cmp]

omit [TransCmp cmp] in
/-- Chunks are not empty and make up the list. -/
theorem chunks32_spec {α : Type} (xs : List α) :
    (∀ c ∈ chunks32 xs, c ≠ []) ∧ (chunks32 xs).flatten = xs := by
  induction xs using chunks32.induct with
  | case1 =>
    rw [chunks32]
    exact ⟨fun c hc => absurd hc List.not_mem_nil, rfl⟩
  | case2 x xs ih =>
    rw [chunks32]
    obtain ⟨hne, hflat⟩ := ih
    refine ⟨fun c hc => ?_, by rw [List.flatten_cons, hflat, List.take_append_drop]⟩
    rcases List.mem_cons.mp hc with rfl | hc
    · exact List.cons_ne_nil _ _
    · exact hne c hc

omit [TransCmp cmp] in
theorem firstKey_spec {t : BTree κ ν} (h : t.Wf cmp) :
    ∃ e es, t.entries = e :: es ∧ firstKey t = some e.1 := by
  induction t with
  | leaf keys vals =>
    obtain ⟨hne, hlen, -⟩ := h
    cases keys with
    | nil => exact absurd rfl hne
    | cons k keys =>
      cases vals with
      | nil => cases hlen
      | cons v vals => exact ⟨(k, v), keys.zip vals, rfl, rfl⟩
  | node keys children ih =>
    obtain ⟨hwf, hroute, -⟩ := (wf_node_iff cmp).mp h
    obtain ⟨c, cs, -, -, rfl⟩ := List.forall₂_cons_left_iff.mp hroute
    obtain ⟨e, es, hes, hk⟩ := ih c List.mem_cons_self (hwf c List.mem_cons_self)
    exact ⟨e, es ++ entriesList cs, by rw [entries_node, entriesList_cons, hes]; rfl, hk⟩

theorem parentNode_wf {children : List (BTree κ ν)} (hne : children ≠ [])
    (hwf : ∀ c ∈ children, c.Wf cmp) (hs : Sorted cmp (entriesList children)) :
    (parentNode children).Wf cmp := by
  cases children with
  | nil => exact absurd rfl hne
  | cons c cs =>
    refine (wf_node_iff cmp).mpr ⟨hwf, .cons (headKey_none cmp c) ?_, hs⟩
    have hwf' : ∀ d ∈ cs, d.Wf cmp := fun d hd => hwf d (List.mem_cons_of_mem _ hd)
    rw [List.tail_cons]
    clear hne hwf hs
    induction cs with
    | nil => exact .nil
    | cons d ds ih =>
      obtain ⟨e, es, hes, hk⟩ := firstKey_spec (hwf' d List.mem_cons_self)
      rw [List.filterMap_cons_some hk, List.map_cons]
      refine .cons (fun s hs => ?_) (ih fun d hd => hwf' d (List.mem_cons_of_mem _ hd))
      cases hs
      exact ⟨e, es, hes, ReflCmp.compare_self⟩

omit [TransCmp cmp] in
theorem entriesList_map_parentNode (chunks : List (List (BTree κ ν))) :
    entriesList (chunks.map parentNode) = entriesList chunks.flatten := by
  induction chunks with
  | nil => rfl
  | cons c cs ih =>
    rw [List.map_cons, entriesList_cons, List.flatten_cons, entriesList_append, ih]
    rfl

theorem map_parentNode_wf {chunks : List (List (BTree κ ν))} (hne : ∀ c ∈ chunks, c ≠ [])
    (hwf : ∀ t ∈ chunks.flatten, t.Wf cmp) (hs : Sorted cmp (entriesList chunks.flatten)) :
    ∀ t ∈ chunks.map parentNode, t.Wf cmp := by
  induction chunks with
  | nil => exact fun t ht => absurd ht List.not_mem_nil
  | cons c cs ih =>
    rw [List.flatten_cons, entriesList_append] at hs
    obtain ⟨hs₁, hs₂, -⟩ := sorted_append.mp hs
    intro t ht
    rw [List.map_cons] at ht
    rcases List.mem_cons.mp ht with rfl | ht
    · exact parentNode_wf (hne c List.mem_cons_self)
        (fun d hd => hwf d (List.mem_append_left _ hd)) hs₁
    · exact ih (fun d hd => hne d (List.mem_cons_of_mem _ hd))
        (fun d hd => hwf d (List.mem_append_right _ hd)) hs₂ t ht

/-- Level after level the bindings stay, down to one node. -/
theorem buildLevels_spec {nodes : List (BTree κ ν)} (hne : nodes ≠ [])
    (hwf : ∀ t ∈ nodes, t.Wf cmp) (hs : Sorted cmp (entriesList nodes)) :
    ∃ root, buildLevels nodes = [root] ∧ root.Wf cmp ∧ root.entries = entriesList nodes := by
  induction nodes using buildLevels.induct with
  | case1 nodes hle =>
    unfold buildLevels
    rw [if_pos hle]
    cases nodes with
    | nil => exact absurd rfl hne
    | cons t ts =>
      obtain rfl : ts = [] := by
        cases ts with
        | nil => rfl
        | cons u us => simp at hle
      exact ⟨t, rfl, hwf t List.mem_cons_self, (List.append_nil _).symm⟩
  | case2 nodes hgt ih =>
    obtain ⟨hchunks, hflat⟩ := chunks32_spec nodes
    have hentries : entriesList ((chunks32 nodes).map parentNode) = entriesList nodes := by
      rw [entriesList_map_parentNode, hflat]
    have hlevel : ∀ t ∈ (chunks32 nodes).map parentNode, t.Wf cmp :=
      map_parentNode_wf hchunks (by rwa [hflat]) (by rwa [hflat])
    have hsome : (chunks32 nodes).map parentNode ≠ [] := by
      intro hnil
      rw [List.map_eq_nil_iff] at hnil
      rw [hnil] at hflat
      exact hne hflat.symm
    obtain ⟨root, hroot, hrwf, hre⟩ := ih hsome hlevel (by rwa [hentries])
    unfold buildLevels
    rw [if_neg hgt]
    exact ⟨root, hroot, hrwf, hre.trans hentries⟩

omit [TransCmp cmp] in
/-- The leaves of a sorted list of pairs. -/
theorem leaves_spec {es : List (κ × ν)} {chunks : List (List (κ × ν))} (hne : ∀ c ∈ chunks, c ≠ [])
    (hflat : chunks.flatten = es) (hs : Sorted cmp es) :
    let leaves := chunks.map fun chunk => BTree.leaf (chunk.map (·.1)) (chunk.map (·.2))
    (∀ t ∈ leaves, t.Wf cmp) ∧ entriesList leaves = es := by
  subst hflat
  induction chunks with
  | nil => exact ⟨fun t ht => absurd ht List.not_mem_nil, rfl⟩
  | cons c cs ih =>
    rw [List.flatten_cons] at hs
    obtain ⟨hs₁, hs₂, -⟩ := sorted_append.mp hs
    obtain ⟨hwf, hentries⟩ := ih (fun d hd => hne d (List.mem_cons_of_mem _ hd)) hs₂
    have hzip : (c.map (·.1)).zip (c.map (·.2)) = c := by
      rw [List.zip_map', List.map_id']
    refine ⟨fun t ht => ?_, ?_⟩
    · rcases List.mem_cons.mp ht with rfl | ht
      · refine ⟨fun hnil => hne c List.mem_cons_self (List.map_eq_nil_iff.mp hnil), by simp, ?_⟩
        exact List.pairwise_map.mpr hs₁
      · exact hwf t ht
    · rw [List.map_cons, entriesList_cons, entries_leaf, hzip, hentries, List.flatten_cons]

end Levels

/-! ## §4 The root -/

/-- The tree built from sorted pairs. -/
theorem buildBottomUp_spec [TransCmp cmp] {unique : List (κ × ν)} (hs : Sorted cmp unique) :
    (∀ t, (buildBottomUp unique).root = some t → t.Wf cmp) ∧
      rootEntries (buildBottomUp unique).root = unique ∧
      (buildBottomUp unique).count = unique.length := by
  unfold buildBottomUp
  cases unique with
  | nil => exact ⟨fun t ht => absurd ht.symm (Option.some_ne_none t), rfl, rfl⟩
  | cons e es =>
    obtain ⟨hne, hflat⟩ := chunks32_spec (e :: es)
    obtain ⟨hwf, hentries⟩ := leaves_spec hne hflat hs
    obtain ⟨root, hroot, hrwf, hre⟩ := buildLevels_spec (by simp [chunks32]) hwf
      (by rw [hentries]; exact hs)
    rw [if_neg (by simp)]
    simp only [hroot, List.head?_cons]
    refine ⟨fun t ht => ?_, hre.trans hentries, trivial⟩
    cases ht
    exact hrwf

variable (cmp) in
/-- Bulk load binds the pairs one after the other. -/
theorem btreeBulkLoad_spec [TransCmp cmp] [BEq κ] [EquivBEq κ] [LawfulBEqCmp cmp]
    (pairs : List (κ × ν)) :
    (∀ t, (btreeBulkLoad cmp pairs).root = some t → t.Wf cmp) ∧
      Enumerates (rootEntries (btreeBulkLoad cmp pairs).root) (bindAll pairs) ∧
      (btreeBulkLoad cmp pairs).count = (rootEntries (btreeBulkLoad cmp pairs).root).length := by
  obtain ⟨unique, hload, hs, henum⟩ := unique_spec cmp pairs
  obtain ⟨hwf, hentries, hcount⟩ := buildBottomUp_spec hs
  rw [hload, hentries]
  exact ⟨hwf, henum, hcount⟩

theorem uniquePairs_of_sorted [OrientedCmp cmp] {s : List ((κ × ν) × Nat)}
    (hs : s.Pairwise fun a b => cmp a.1.1 b.1.1 = .lt) (last : Option κ)
    (hlast : ∀ k ∈ last, ∀ t ∈ s, cmp k t.1.1 = .lt) : uniquePairs cmp last s = s.map (·.1) := by
  induction s generalizing last with
  | nil => rfl
  | cons t s ih =>
    obtain ⟨p, i⟩ := t
    obtain ⟨hp, hs⟩ := List.pairwise_cons.mp hs
    have hany : (last.any fun k => (cmp p.1 k).isEq) = false := by
      cases last with
      | none => rfl
      | some k =>
        have hgt : cmp p.1 k = .gt :=
          OrientedCmp.gt_iff_lt.mpr (hlast k rfl (p, i) List.mem_cons_self)
        rw [Option.any_some, hgt]
        rfl
    rw [uniquePairs, hany, if_neg Bool.false_ne_true, List.map_cons]
    congr 1
    refine ih hs (some p.1) fun k hk t ht => ?_
    cases hk
    exact hp t ht

/-- Pairs of which no two have equal keys all come into the tree. -/
theorem btreeBulkLoad_of_no_ties [TransCmp cmp] {pairs : List (κ × ν)}
    (h : pairs.Pairwise fun a b => cmp a.1 b.1 ≠ .eq) :
    (∀ t, (btreeBulkLoad cmp pairs).root = some t → t.Wf cmp) ∧
      (rootEntries (btreeBulkLoad cmp pairs).root).Perm pairs ∧
      (btreeBulkLoad cmp pairs).count = pairs.length := by
  rw [btreeBulkLoad]
  have hperm := List.mergeSort_perm pairs.zipIdx.reverse fun a b => !sortsBefore cmp b a
  have hpairs : (pairs.zipIdx.reverse.map (·.1)).Perm pairs := by
    rw [List.map_reverse, List.zipIdx_map_fst]
    exact List.reverse_perm pairs
  have hall := (hperm.map (·.1)).trans hpairs
  have hle : (pairs.zipIdx.reverse.mergeSort fun a b => !sortsBefore cmp b a).Pairwise
      fun a b => (!sortsBefore cmp b a) = true :=
    List.pairwise_mergeSort sorts_trans sorts_total pairs.zipIdx.reverse
  generalize (pairs.zipIdx.reverse.mergeSort fun a b => !sortsBefore cmp b a) = sorted at *
  have hne : sorted.Pairwise fun a b => cmp a.1.1 b.1.1 ≠ .eq := by
    have hmap := h.perm hall.symm fun hab heq => hab (OrientedCmp.eq_symm heq)
    exact List.pairwise_map.mp hmap
  have hlt : sorted.Pairwise fun a b => cmp a.1.1 b.1.1 = .lt := by
    refine hle.imp₂ (fun a b hab hne => ?_) hne
    rcases (not_sortsBefore_iff a b).mp hab with hlt | ⟨heq, -⟩
    · exact hlt
    · exact absurd heq hne
  obtain ⟨hwf, hentries, hcount⟩ := buildBottomUp_spec (List.pairwise_map.mpr hlt : Sorted cmp _)
  rw [uniquePairs_of_sorted hlt none fun k hk => absurd hk.symm (Option.some_ne_none k)]
  exact ⟨hwf, by rw [hentries]; exact hall, hcount.trans hall.length_eq⟩

end Fol.SortedDict
