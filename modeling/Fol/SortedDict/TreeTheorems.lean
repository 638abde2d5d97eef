/-
Fol.SortedDict.TreeTheorems — search, insertion and removal against the bindings.

Each operation goes down the path `Route` describes. On a key that is no routing
key of its path it acts on the bindings as it should: `btreeGet` looks the key
up, `btreeAssocNode` splices a binding in, `btreeDissocNode` cuts it out. On a
routing key of its path `btreeGet` finds nothing, though the key is bound.

  §1 Conditions — `routing`, `promoted`, `insertable`, `emptiesLoneChild`.
  §2 Lookup     — `btreeGet_eq_lookup`, `btreeGet_routing`.
  §3 Insertion  — `splitNode_spec`, `assocParent_spec`, `btreeAssocNode_spec`.
  §4 Removal    — `dissocParent_spec`, `btreeDissocNode_spec`.
-/
import Fol.SortedDict.Invariant

namespace Fol.SortedDict

open Lib Std

variable {κ ν : Type} (cmp : κ → κ → Ordering)

/-! ## §1 Conditions -/

mutual

/-- The key is equal to a routing key that the search for it meets. -/
def routing (key : κ) (t : BTree κ ν) : Bool :=
  match t with
  | .leaf _ _ => false
  | .node keys children =>
    let idx := bsearchKeys cmp keys key
    hit cmp keys key idx || routingChild key children idx

def routingChild (key : κ) (children : List (BTree κ ν)) (idx : Nat) : Bool :=
  match children, idx with
  | [], _ => false
  | c :: _, 0 => routing key c
  | _ :: cs, i + 1 => routingChild key cs i

end

mutual

/-- The key that inserting `key` sends up to the parent, if the node is full: the
seventeenth of the keys it then has. -/
def promoted (key : κ) (t : BTree κ ν) : Option κ :=
  match t with
  | .leaf keys _ =>
    let idx := bsearchKeys cmp keys key
    if hit cmp keys key idx ∨ keys.length < bTreeOrder then none
    else (insertAt keys idx key)[16]?
  | .node keys children =>
    let idx := bsearchKeys cmp keys key
    match promotedChild key children idx with
    | none => none
    | some splitKey =>
      if children.length < bTreeOrder then none else (insertAt keys idx splitKey)[16]?

def promotedChild (key : κ) (children : List (BTree κ ν)) (idx : Nat) : Option κ :=
  match children, idx with
  | [], _ => none
  | c :: _, 0 => promoted key c
  | _ :: cs, i + 1 => promotedChild key cs i

end

mutual

/-- The key is no routing key of its path, and no NIL is promoted inside `t`. -/
def insertable (isNil : κ → Bool) (key : κ) (t : BTree κ ν) : Bool :=
  match t with
  | .leaf _ _ => true
  | .node keys children =>
    let idx := bsearchKeys cmp keys key
    !hit cmp keys key idx && insertableChild isNil key children idx

def insertableChild (isNil : κ → Bool) (key : κ) (children : List (BTree κ ν)) (idx : Nat) : Bool :=
  match children, idx with
  | [], _ => true
  | c :: _, 0 => insertable isNil key c && (promoted cmp key c).all fun k => !isNil k
  | _ :: cs, i + 1 => insertableChild isNil key cs i

end

/-- Removing `key` leaves nothing of the leaf. -/
def empties (key : κ) (t : BTree κ ν) : Bool :=
  match t with
  | .leaf keys _ => keys.length = 1 && hit cmp keys key (bsearchKeys cmp keys key)
  | .node _ _ => false

mutual

/-- On the path of `key` a node without routing keys loses its only child. -/
def emptiesLoneChild (key : κ) (t : BTree κ ν) : Bool :=
  match t with
  | .leaf _ _ => false
  | .node keys children =>
    (keys.isEmpty && children.head?.any (empties cmp key)) ||
      emptiesLoneChildAt key children (bsearchKeys cmp keys key)

def emptiesLoneChildAt (key : κ) (children : List (BTree κ ν)) (idx : Nat) : Bool :=
  match children, idx with
  | [], _ => false
  | c :: _, 0 => emptiesLoneChild key c
  | _ :: cs, i + 1 => emptiesLoneChildAt key cs i

end

/-! ### Children at an index -/

section AtIndex

variable (L R : List (BTree κ ν)) (c : BTree κ ν) (key : κ)

theorem getChild_at : getChild cmp key (L ++ c :: R) L.length = btreeGet cmp key c := by
  induction L with
  | nil => rfl
  | cons t L ih => exact ih

theorem assocChild_at (isNil : κ → Bool) (val : ν) :
    assocChild cmp isNil key val (L ++ c :: R) L.length =
      some (btreeAssocNode cmp isNil key val c) := by
  induction L with
  | nil => rfl
  | cons t L ih => exact ih

theorem dissocChild_at :
    dissocChild cmp key (L ++ c :: R) L.length = btreeDissocNode cmp key c := by
  induction L with
  | nil => rfl
  | cons t L ih => exact ih

theorem routingChild_at : routingChild cmp key (L ++ c :: R) L.length = routing cmp key c := by
  induction L with
  | nil => rfl
  | cons t L ih => exact ih

theorem promotedChild_at : promotedChild cmp key (L ++ c :: R) L.length = promoted cmp key c := by
  induction L with
  | nil => rfl
  | cons t L ih => exact ih

theorem insertableChild_at (isNil : κ → Bool) :
    insertableChild cmp isNil key (L ++ c :: R) L.length =
      (insertable cmp isNil key c && (promoted cmp key c).all fun k => !isNil k) := by
  induction L with
  | nil => rfl
  | cons t L ih => exact ih

theorem emptiesLoneChildAt_at :
    emptiesLoneChildAt cmp key (L ++ c :: R) L.length = emptiesLoneChild cmp key c := by
  induction L with
  | nil => rfl
  | cons t L ih => exact ih

theorem set_at {α : Type} (l r : List α) (x y : α) :
    (l ++ x :: r).set l.length y = l ++ y :: r := by
  induction l with
  | nil => rfl
  | cons z l ih => exact congrArg (z :: ·) ih

theorem insertAt_at {α : Type} (l r : List α) (x : α) :
    insertAt (l ++ r) l.length x = l ++ x :: r := by
  rw [insertAt, List.take_left, List.drop_left]

end AtIndex

variable {cmp}

/-! ### Leaves -/

/-- A leaf around the place of the key. -/
theorem leaf_split [TransCmp cmp] {keys : List κ} {vals : List ν}
    (h : (BTree.leaf keys vals).Wf cmp) (key : κ) :
    ∃ ls rs lv rv, keys = ls ++ rs ∧ vals = lv ++ rv ∧ lv.length = ls.length ∧
      rv.length = rs.length ∧ bsearchKeys cmp keys key = ls.length ∧
      Below cmp (ls.zip lv) key ∧ ∀ s ∈ rs, (cmp key s).isLE := by
  obtain ⟨-, hlen, hs⟩ := h
  obtain ⟨ls, rs, rfl, hidx, hls, hrs⟩ := bsearchKeys_split cmp hs key
  rw [List.length_append] at hlen
  have htake : (vals.take ls.length).length = ls.length := by rw [List.length_take]; omega
  refine ⟨ls, rs, vals.take ls.length, vals.drop ls.length, rfl,
    (List.take_append_drop _ _).symm, htake, ?_, hidx, fun e he => ?_, hrs⟩
  · rw [List.length_drop]
    omega
  · exact OrientedCmp.lt_of_gt (hls e.1 (List.of_mem_zip he).1)

theorem zip_append_eq {ls rs : List κ} {lv rv : List ν} (h : lv.length = ls.length) :
    (ls ++ rs).zip (lv ++ rv) = ls.zip lv ++ rs.zip rv := List.zip_append h.symm

/-- The rest of a leaf where the key is missing. -/
theorem above_of_not_hit [TransCmp cmp] {ls rs : List κ} (rv : List ν) {key : κ}
    (hs : (ls ++ rs).Pairwise fun a b => cmp a b = .lt) (hle : ∀ s ∈ rs, (cmp key s).isLE)
    (hhit : hit cmp (ls ++ rs) key ls.length = false) : Above cmp key (rs.zip rv) := by
  rw [hit_split] at hhit
  intro e he
  have hmem := (List.of_mem_zip he).1
  cases rs with
  | nil => exact absurd hmem List.not_mem_nil
  | cons s rs =>
    have hks : cmp key s = .lt := by
      have hle' := hle s List.mem_cons_self
      cases hcmp : cmp key s with
      | lt => rfl
      | eq => rw [List.head?_cons, Option.any_some, hcmp] at hhit; cases hhit
      | gt => rw [hcmp] at hle'; cases hle'
    rcases List.mem_cons.mp hmem with heq | hmem
    · rw [heq]
      exact hks
    · have hsr := (List.pairwise_append.mp hs).2.1
      exact TransCmp.lt_trans hks ((List.pairwise_cons.mp hsr).1 _ hmem)

/-- The rest of a leaf that holds the key. -/
theorem leaf_hit [TransCmp cmp] {ls rs : List κ} {lv rv : List ν} {key : κ}
    (hs : (ls ++ rs).Pairwise fun a b => cmp a b = .lt) (hlen : rv.length = rs.length)
    (hhit : hit cmp (ls ++ rs) key ls.length = true) (hlv : lv.length = ls.length) :
    ∃ k v rs' rv', rs = k :: rs' ∧ rv = v :: rv' ∧ rv'.length = rs'.length ∧ cmp key k = .eq ∧
      Above cmp key (rs'.zip rv') ∧ (lv ++ rv)[ls.length]? = some v := by
  rw [hit_split] at hhit
  cases rs with
  | nil => cases hhit
  | cons k rs' =>
    cases rv with
    | nil => cases hlen
    | cons v rv' =>
      have heq : cmp key k = .eq := Ordering.isEq_iff_eq_eq.mp hhit
      refine ⟨k, v, rs', rv', rfl, rfl, by simpa using hlen, heq, fun e he => ?_, ?_⟩
      · have hsr := (List.pairwise_append.mp hs).2.1
        exact TransCmp.lt_of_eq_of_lt heq
          ((List.pairwise_cons.mp hsr).1 _ (List.of_mem_zip he).1)
      · rw [← hlv, List.getElem?_append_right le_rfl, Nat.sub_self]
        rfl

/-! ## §2 Lookup -/

section Lookup

variable [TransCmp cmp] [BEq κ] [EquivBEq κ] [LawfulBEqCmp cmp]

omit [TransCmp cmp] [EquivBEq κ] in
theorem beq_of_eq {a b : κ} (h : cmp a b = .eq) : (a == b) = true :=
  LawfulBEqCmp.compare_eq_iff_beq.mp h

omit [TransCmp cmp] in
theorem bound_of_mem {es : List (κ × ν)} {e : κ × ν} {key : κ} (he : e ∈ es)
    (hk : cmp key e.1 = .eq) : bound key es = true :=
  List.any_eq_true.mpr ⟨e, he, BEq.symm (beq_of_eq hk)⟩

/-- Lookup off the routing keys reads the bindings. -/
theorem btreeGet_eq_lookup {t : BTree κ ν} (h : t.Wf cmp) {key : κ}
    (hr : routing cmp key t = false) : btreeGet cmp key t = lookup key t.entries := by
  induction t with
  | leaf keys vals =>
    obtain ⟨ls, rs, lv, rv, rfl, rfl, hlv, hrv, hidx, hbelow, hle⟩ := leaf_split h key
    rw [btreeGet, entries_leaf, zip_append_eq hlv]
    simp only [hidx]
    cases hhit : hit cmp (ls ++ rs) key ls.length with
    | false =>
      have habove := above_of_not_hit rv h.2.2 hle hhit
      rw [lookup_append_right _ habove.not_bound,
        lookup_eq_none_iff.mpr hbelow.not_bound]
      rfl
    | true =>
      obtain ⟨k, v, rs', rv', rfl, rfl, -, heq, -, hval⟩ := leaf_hit h.2.2 hrv hhit hlv
      rw [if_pos rfl, hval, lookup_append_of_not_bound _ hbelow.not_bound, List.zip_cons_cons,
        lookup_cons_pos _ (BEq.symm (beq_of_eq heq))]
  | node keys children ih =>
    obtain ⟨ls, rs, L, c, R, A, o, route⟩ := exists_route h key
    obtain ⟨hwf, -, hs⟩ := (wf_node_iff cmp).mp h
    rw [routing, Bool.or_eq_false_iff, route.idx] at hr
    have habove := route.above hs hr.1
    have hchild : routing cmp key c = false := by
      have hr2 := hr.2
      rw [route.children_eq, ← route.length_left, routingChild_at] at hr2
      exact hr2
    have hc : c ∈ children := by rw [route.children_eq]; simp
    rw [btreeGet, route.idx, ← route.length_left, route.children_eq, getChild_at,
      ih c hc (hwf c hc) hchild, entries_node, entriesList_append, entriesList_cons,
      ← List.append_assoc, lookup_middle _ route.below.not_bound habove.not_bound]

omit [BEq κ] [EquivBEq κ] [LawfulBEqCmp cmp] in
/-- Whatever `btree-get` finds is stored below the node. -/
theorem btreeGet_sound {t : BTree κ ν} (h : t.Wf cmp) {key : κ} {v : ν}
    (hget : btreeGet cmp key t = some v) : ∃ e ∈ t.entries, cmp key e.1 = .eq := by
  induction t with
  | leaf keys vals =>
    obtain ⟨ls, rs, lv, rv, rfl, rfl, hlv, hrv, hidx, -, -⟩ := leaf_split h key
    rw [btreeGet] at hget
    simp only [hidx] at hget
    cases hhit : hit cmp (ls ++ rs) key ls.length with
    | false => rw [hhit] at hget; cases hget
    | true =>
      obtain ⟨k, v', rs', rv', rfl, rfl, -, heq, -, -⟩ := leaf_hit h.2.2 hrv hhit hlv
      refine ⟨(k, v'), ?_, heq⟩
      rw [entries_leaf, zip_append_eq hlv]
      simp
  | node keys children ih =>
    obtain ⟨ls, rs, L, c, R, A, o, route⟩ := exists_route h key
    obtain ⟨hwf, -, -⟩ := (wf_node_iff cmp).mp h
    have hc : c ∈ children := by rw [route.children_eq]; simp
    rw [btreeGet, route.idx, ← route.length_left, route.children_eq, getChild_at] at hget
    obtain ⟨e, he, hk⟩ := ih c hc (hwf c hc) hget
    refine ⟨e, ?_, hk⟩
    rw [entries_node, route.children_eq, entriesList_append, entriesList_cons]
    exact List.mem_append_right _ (List.mem_append_left _ he)

omit [BEq κ] [EquivBEq κ] [LawfulBEqCmp cmp] in
/-- A routing key of its own path is stored, and `btree-get` misses it. -/
theorem btreeGet_routing {t : BTree κ ν} (h : t.Wf cmp) {key : κ}
    (hr : routing cmp key t = true) :
    btreeGet cmp key t = none ∧ ∃ e ∈ t.entries, cmp key e.1 = .eq := by
  induction t with
  | leaf keys vals => cases hr
  | node keys children ih =>
    obtain ⟨ls, rs, L, c, R, A, o, route⟩ := exists_route h key
    obtain ⟨hwf, -, hs⟩ := (wf_node_iff cmp).mp h
    have hc : c ∈ children := by rw [route.children_eq]; simp
    rw [routing, route.idx, Bool.or_eq_true] at hr
    rw [btreeGet, route.idx, entries_node]
    rcases hr with hhit | hr
    · obtain ⟨⟨e, he, hke⟩, hbelow⟩ := route.hit_right hs hhit
      constructor
      · rw [route.children_eq, ← route.length_left, getChild_at]
        cases hget : btreeGet cmp key c with
        | none => rfl
        | some v =>
          obtain ⟨e', he', hk'⟩ := btreeGet_sound (hwf c hc) hget
          have hlt := hbelow e' he'
          rw [OrientedCmp.eq_symm hk'] at hlt
          cases hlt
      · refine ⟨e, ?_, hke⟩
        rw [route.children_eq, entriesList_append, entriesList_cons]
        exact List.mem_append_right _ (List.mem_append_right _ he)
    · rw [route.children_eq, ← route.length_left, routingChild_at] at hr
      obtain ⟨hget, e, he, hke⟩ := ih c hc (hwf c hc) hr
      rw [route.children_eq, ← route.length_left, getChild_at]
      refine ⟨hget, e, ?_, hke⟩
      rw [entriesList_append, entriesList_cons]
      exact List.mem_append_right _ (List.mem_append_left _ he)

/-- `btree-get` is right exactly off the routing keys of the path. -/
theorem btreeGet_iff {t : BTree κ ν} (h : t.Wf cmp) (key : κ) :
    btreeGet cmp key t = lookup key t.entries ↔ routing cmp key t = false := by
  constructor
  · intro heq
    rw [← Bool.not_eq_true]
    intro hr
    obtain ⟨hget, e, he, hk⟩ := btreeGet_routing h hr
    have hb := bound_of_mem he hk
    rw [hget] at heq
    rw [lookup_eq_none_iff.mp heq.symm] at hb
    cases hb
  · exact btreeGet_eq_lookup h

end Lookup

/-! ## §3 Insertion -/

section Insertion

variable [TransCmp cmp]

/-- The node, or the two halves, an insertion returns. -/
def AssocResult.parts (r : AssocResult κ ν) : List (BTree κ ν) :=
  r.node :: (r.split.map (·.2)).toList

/-- What an insertion delivers. -/
structure AssocSpec (cmp : κ → κ → Ordering) (key : κ) (val : ν) (t : BTree κ ν)
    (r : AssocResult κ ν) : Prop where
  inserts : InsertsAt cmp key val t.entries (entriesList r.parts) r.oldVal
  wf : ∀ p ∈ r.parts, p.Wf cmp
  routed : List.Forall₂ (HeadKey cmp) (none :: (r.split.map fun s => some s.1).toList) r.parts
  promoted : r.split.map (·.1) = promoted cmp key t
  found : r.oldVal.isSome = true → r.split = none

/-- A list with more than 16 elements, cut at number 16. -/
theorem exists_cut {α : Type} (xs : List α) (h : 16 < xs.length) :
    ∃ l x r, xs = l ++ x :: r ∧ l.length = 16 ∧ xs[16]? = some x := by
  refine ⟨xs.take 16, xs[16], xs.drop 17, ?_, by rw [List.length_take]; omega,
    List.getElem?_eq_getElem h⟩
  rw [← List.drop_eq_getElem_cons h, List.take_append_drop]

omit [TransCmp cmp] in
theorem splitLeaf_at {K₁ K₂ : List κ} {V₁ V₂ : List ν} {k : κ} (hK : K₁.length = 16)
    (hV : V₁.length = 16) :
    splitLeaf (K₁ ++ k :: K₂) (V₁ ++ V₂) =
      { node := .leaf K₁ V₁, split := some (k, .leaf (k :: K₂) V₂) } := by
  have hget : (K₁ ++ k :: K₂)[16]? = some k := by
    rw [← hK, List.getElem?_append_right le_rfl, Nat.sub_self]
    rfl
  rw [splitLeaf, hget, List.take_left' hK, List.take_left' hV, List.drop_left' hK,
    List.drop_left' hV]
  rfl

omit [TransCmp cmp] in
theorem splitNode_at {K₁ K₂ : List κ} {C₁ C₂ : List (BTree κ ν)} {k : κ} (hK : K₁.length = 16)
    (hC : C₁.length = 17) :
    splitNode (K₁ ++ k :: K₂) (C₁ ++ C₂) =
      { node := .node K₁ C₁, split := some (k, .node K₂ C₂) } := by
  have hget : (K₁ ++ k :: K₂)[16]? = some k := by
    rw [← hK, List.getElem?_append_right le_rfl, Nat.sub_self]
    rfl
  have hdrop : (K₁ ++ k :: K₂).drop 17 = K₂ := by
    rw [show K₁ ++ k :: K₂ = (K₁ ++ [k]) ++ K₂ by simp]
    exact List.drop_left' (by simp [hK])
  rw [splitNode, hget, List.take_left' hK, hdrop, List.take_left' hC, List.drop_left' hC]
  rfl

/-- What a split delivers: two trees with the same bindings, cut at number 16 of
the keys. -/
structure SplitSpec (cmp : κ → κ → Ordering) (keys : List κ) (es : List (κ × ν))
    (r : AssocResult κ ν) : Prop where
  promoted : r.split.map (·.1) = keys[16]?
  wf : ∀ p ∈ r.parts, p.Wf cmp
  routed : List.Forall₂ (HeadKey cmp) (none :: (r.split.map fun s => some s.1).toList) r.parts
  entries : entriesList r.parts = es
  fresh : r.oldVal = none

theorem splitLeaf_spec {keys : List κ} {vals : List ν} (hlen : keys.length = vals.length)
    (hmid : 16 < keys.length) (hs : keys.Pairwise fun a b => cmp a b = .lt) :
    SplitSpec cmp keys (keys.zip vals) (splitLeaf keys vals) := by
  obtain ⟨K₁, k, K₂, rfl, hK, hk⟩ := exists_cut keys hmid
  obtain ⟨V₁, v, V₂, rfl, hV, -⟩ := exists_cut vals (by omega)
  obtain ⟨hs₁, hs₂, -⟩ := List.pairwise_append.mp hs
  have hlen₂ : K₂.length = V₂.length := by
    simp only [List.length_append, List.length_cons] at hlen
    omega
  rw [splitLeaf_at hK hV]
  refine ⟨hk.symm, fun p hp => ?_, .cons (headKey_none cmp _) (.cons ?_ .nil), ?_, rfl⟩
  · rcases List.mem_pair.mp hp with rfl | rfl
    · refine ⟨fun hnil => ?_, by omega, hs₁⟩
      rw [hnil] at hK
      cases hK
    · exact ⟨List.cons_ne_nil _ _, by rw [List.length_cons, List.length_cons, hlen₂], hs₂⟩
  · intro s hs'
    cases hs'
    exact ⟨(k, v), K₂.zip V₂, rfl, ReflCmp.compare_self⟩
  · rw [zip_append_eq (by omega)]
    exact congrArg (_ ++ ·) (List.append_nil _)

omit [TransCmp cmp] in
theorem splitNode_spec {keys : List κ} {children : List (BTree κ ν)}
    (h : (BTree.node keys children).Wf cmp) (hmid : 16 < keys.length) :
    SplitSpec cmp keys (entriesList children) (splitNode keys children) := by
  obtain ⟨hwf, hroute, hs⟩ := (wf_node_iff cmp).mp h
  obtain ⟨K₁, k, K₂, rfl, hK, hk⟩ := exists_cut keys hmid
  have hseps : seps (K₁ ++ k :: K₂) = seps K₁ ++ some k :: K₂.map some := by
    rw [seps, seps, List.map_append, List.map_cons]
    rfl
  rw [hseps] at hroute
  obtain ⟨C₁, C', rfl, hC₁, hC'⟩ := forall₂_append_left.mp hroute
  obtain ⟨c, C₂, hc, hC₂, rfl⟩ := List.forall₂_cons_left_iff.mp hC'
  have hlen : C₁.length = 17 := by
    rw [← hC₁.length_eq, seps, List.length_cons, List.length_map, hK]
  rw [entriesList_append] at hs
  obtain ⟨hs₁, hs₂, -⟩ := sorted_append.mp hs
  rw [splitNode_at hK hlen]
  refine ⟨hk.symm, fun p hp => ?_, .cons (headKey_none cmp _) (.cons ?_ .nil), ?_, rfl⟩
  · rcases List.mem_pair.mp hp with rfl | rfl
    · exact (wf_node_iff cmp).mpr ⟨fun d hd => hwf d (List.mem_append_left _ hd), hC₁, hs₁⟩
    · exact (wf_node_iff cmp).mpr ⟨fun d hd => hwf d (List.mem_append_right _ hd),
        .cons (headKey_none cmp c) hC₂, hs₂⟩
  · intro s hs'
    obtain ⟨e, es, hes, hse⟩ := hc s hs'
    exact ⟨e, es ++ entriesList C₂, by rw [entries_node, entriesList_cons, hes]; rfl, hse⟩
  · rw [entriesList_append]
    exact congrArg (_ ++ ·) (List.append_nil _)

/-- Other parts in the place of the child the search descends to. -/
theorem Route.splice {key : κ} {keys ls rs : List κ} {children L R : List (BTree κ ν)}
    {c : BTree κ ν} {A : List (Option κ)} {o : Option κ}
    (route : Route cmp key keys children ls rs L c R A o) (hwf : ∀ d ∈ children, d.Wf cmp)
    (ks : List κ) (p : BTree κ ν) (ps : List (BTree κ ν)) (hps : ∀ d ∈ p :: ps, d.Wf cmp)
    (hrouted : List.Forall₂ (HeadKey cmp) (ks.map some) ps)
    (hkeep : ∀ e es, c.entries = e :: es → cmp e.1 key = .lt →
      ∃ es', entriesList (p :: ps) = e :: es')
    (hsorted : Sorted cmp (entriesList L ++ entriesList (p :: ps) ++ entriesList R)) :
    (BTree.node (ls ++ (ks ++ rs)) (L ++ (p :: ps ++ R))).Wf cmp := by
  have hhere : HeadKey cmp o p := by
    intro s hs
    obtain ⟨e, es, hes, hse⟩ := route.here s hs
    have hek : cmp e.1 key = .lt :=
      TransCmp.lt_of_eq_of_lt (OrientedCmp.eq_symm hse) (OrientedCmp.lt_of_gt (route.free s hs))
    obtain ⟨es', hes'⟩ := hkeep e es hes hek
    cases hp : p.entries with
    | nil => exact absurd hp (hps p List.mem_cons_self).entries_ne_nil
    | cons e' es'' =>
      rw [entriesList_cons, hp, List.cons_append] at hes'
      cases hes'
      exact ⟨e, es'', rfl, hse⟩
  have hseps : seps (ls ++ (ks ++ rs)) = A ++ (o :: (ks.map some ++ rs.map some)) := by
    rw [seps, List.map_append, ← List.cons_append, route.seps_eq, List.map_append,
      List.append_assoc]
    rfl
  rw [wf_node_iff, hseps]
  refine ⟨fun d hd => ?_, List.rel_append route.left (.cons hhere
    (List.rel_append hrouted route.right)), ?_⟩
  · rw [route.children_eq] at hwf
    simp only [List.mem_append, List.mem_cons] at hd hwf hps
    rcases hd with hd | hd | hd
    · exact hwf d (.inl hd)
    · exact hps d hd
    · exact hwf d (.inr (.inr hd))
  · rw [entriesList_append, entriesList_append, ← List.append_assoc]
    exact hsorted

omit [TransCmp cmp] in
/-- An insertion that returns one node. -/
theorem AssocSpec.single {key : κ} {val : ν} {t n : BTree κ ν} {old : Option ν}
    (hins : InsertsAt cmp key val t.entries n.entries old) (hwf : n.Wf cmp)
    (hp : Fol.SortedDict.promoted cmp key t = none) :
    AssocSpec cmp key val t { node := n, oldVal := old } := by
  refine ⟨?_, fun p hp => ?_, .cons (headKey_none cmp n) .nil, hp.symm, fun _ => rfl⟩
  · show InsertsAt cmp key val t.entries (n.entries ++ []) old
    rw [List.append_nil]
    exact hins
  · rw [List.mem_singleton.mp hp]
    exact hwf

omit [TransCmp cmp] in
/-- An insertion that splits. -/
theorem SplitSpec.assoc {key : κ} {val : ν} {t : BTree κ ν} {keys : List κ} {es : List (κ × ν)}
    {r : AssocResult κ ν} (h : SplitSpec cmp keys es r)
    (hins : InsertsAt cmp key val t.entries es none)
    (hp : Fol.SortedDict.promoted cmp key t = keys[16]?) : AssocSpec cmp key val t r := by
  refine ⟨?_, h.wf, h.routed, ?_, fun hsome => ?_⟩
  · rw [h.entries, h.fresh]
    exact hins
  · rw [h.promoted, hp]
  · rw [h.fresh] at hsome
    cases hsome

/-- The routing node after an insertion into the child the search descends to. -/
theorem assocParent_spec {isNil : κ → Bool} {key : κ} {val : ν} {keys ls rs : List κ}
    {children L R : List (BTree κ ν)} {c : BTree κ ν} {A : List (Option κ)} {o : Option κ}
    (h : (BTree.node keys children).Wf cmp)
    (route : Route cmp key keys children ls rs L c R A o)
    (hhit : hit cmp keys key ls.length = false) {r : AssocResult κ ν}
    (hr : AssocSpec cmp key val c r)
    (hnil : ((promoted cmp key c).all fun k => !isNil k) = true) :
    AssocSpec cmp key val (.node keys children) (assocParent isNil keys children ls.length r) := by
  obtain ⟨hwf, hroute, hs⟩ := (wf_node_iff cmp).mp h
  have hins : InsertsAt cmp key val (entriesList children)
      (entriesList L ++ entriesList r.parts ++ entriesList R) r.oldVal := by
    rw [route.children_eq, entriesList_append, entriesList_cons, ← List.append_assoc]
    exact hr.inserts.middle route.below (route.above hs hhit)
  have hkeep : ∀ e es, c.entries = e :: es → cmp e.1 key = .lt →
      ∃ es', entriesList r.parts = e :: es' := by
    intro e es hes hek
    have hi := hr.inserts
    rw [hes] at hi
    exact hi.head hek
  have hlen : keys.length + 1 = children.length := by
    rw [← hroute.length_eq, seps, List.length_cons, List.length_map]
  have hprom : promoted cmp key (.node keys children) = r.split.bind fun s =>
      if children.length < bTreeOrder then none else (ls ++ s.1 :: rs)[16]? := by
    rw [promoted, route.idx, route.children_eq, ← route.length_left, promotedChild_at,
      ← hr.promoted, ← route.children_eq, route.length_left]
    cases r.split with
    | none => rfl
    | some s => rw [route.keys_eq]; simp only [Option.map_some, Option.bind_some, insertAt_at]
  obtain ⟨n, split, old⟩ := r
  cases split with
  | none =>
    have hset : children.set ls.length n = L ++ n :: R := by
      rw [route.children_eq, ← route.length_left, set_at]
    have hn : (BTree.node keys (L ++ n :: R)).Wf cmp := by
      have hsp := route.splice hwf [] n [] hr.wf .nil hkeep (hins.sorted hs)
      rw [List.nil_append, ← route.keys_eq] at hsp
      exact hsp
    have hi : InsertsAt cmp key val (BTree.node keys children).entries
        (BTree.node keys (L ++ n :: R)).entries old := by
      simpa [AssocResult.parts] using hins
    have hres : assocParent isNil keys children ls.length { node := n, oldVal := old } =
        { node := .node keys (L ++ n :: R), oldVal := old } := by
      unfold assocParent
      rw [hset]
      cases old <;> rfl
    rw [hres]
    exact .single hi hn hprom
  | some s =>
    obtain ⟨k, right⟩ := s
    -- a found key never splits
    obtain rfl : old = none := by
      cases old with
      | none => rfl
      | some v => exact absurd (hr.found rfl) (by simp)
    have hk : isNil k = false := by
      rw [← hr.promoted] at hnil
      simpa using hnil
    have hc2 : List.Forall₂ (HeadKey cmp) ([k].map some) [right] := by
      cases hr.routed with
      | cons _ h => exact h
    have hn : (BTree.node (ls ++ k :: rs) (L ++ n :: right :: R)).Wf cmp :=
      route.splice hwf [k] n [right] hr.wf hc2 hkeep (hins.sorted hs)
    have hi : InsertsAt cmp key val (BTree.node keys children).entries
        (BTree.node (ls ++ k :: rs) (L ++ n :: right :: R)).entries none := by
      simpa [AssocResult.parts] using hins
    have hkids : children.take ls.length ++ n :: right :: children.drop (ls.length + 1) =
        L ++ n :: right :: R := by
      rw [route.children_eq, ← route.length_left, List.take_left]
      congr 3
      rw [show L ++ c :: R = (L ++ [c]) ++ R by simp]
      exact List.drop_left' (by simp)
    have hlenN : (L ++ n :: right :: R).length = children.length + 1 := by
      rw [route.children_eq]
      simp
      omega
    have hres : assocParent isNil keys children ls.length { node := n, split := some (k, right) } =
        if children.length < bTreeOrder then
          { node := .node (ls ++ k :: rs) (L ++ n :: right :: R) }
        else splitNode (ls ++ k :: rs) (L ++ n :: right :: R) := by
      unfold assocParent
      rw [if_neg (by simp), Option.filter_some, if_pos (by rw [hk]; rfl)]
      simp only [hkids, hlenN, route.keys_eq, insertAt_at]
      rfl
    rw [hres]
    by_cases hfull : children.length < bTreeOrder
    · rw [if_pos hfull]
      refine .single hi hn ?_
      rw [hprom]
      exact if_pos hfull
    · rw [if_neg hfull]
      have hmid : 16 < (ls ++ k :: rs).length := by
        have hk' := congrArg List.length route.keys_eq
        simp only [List.length_append, List.length_cons, bTreeOrder] at hk' hfull ⊢
        omega
      refine (splitNode_spec hn hmid).assoc hi ?_
      rw [hprom]
      exact if_neg hfull

/-- Insertion into a leaf. -/
theorem btreeAssocNode_leaf_spec {isNil : κ → Bool} {key : κ} {val : ν} {keys : List κ}
    {vals : List ν} (h : (BTree.leaf keys vals).Wf cmp) :
    AssocSpec cmp key val (.leaf keys vals)
    (btreeAssocNode cmp isNil key val (.leaf keys vals)) := by
  obtain ⟨hne, hlen, hs⟩ := h
  obtain ⟨ls, rs, lv, rv, rfl, rfl, hlv, hrv, hidx, hbelow, hle⟩ := leaf_split ⟨hne, hlen, hs⟩ key
  rw [btreeAssocNode]
  simp only [hidx]
  cases hhit : hit cmp (ls ++ rs) key ls.length with
  | true =>
    obtain ⟨k, v, rs', rv', rfl, rfl, hrv', heq, habove, hval⟩ := leaf_hit hs hrv hhit hlv
    rw [if_pos rfl, hval, ← hlv, set_at]
    refine .single ⟨ls.zip lv, rs'.zip rv', hbelow, habove, .inr ⟨k, v, heq, rfl, ?_, ?_⟩⟩ ?_ ?_
    · rw [entries_leaf, zip_append_eq hlv, List.zip_cons_cons]
    · rw [entries_leaf, zip_append_eq hlv, List.zip_cons_cons]
    · exact ⟨hne, by simpa using hlen, hs⟩
    · rw [promoted]
      simp only [hidx, hhit, true_or, if_true]
  | false =>
    have habove := above_of_not_hit rv hs hle hhit
    rw [if_neg Bool.false_ne_true, insertAt_at, ← hlv, insertAt_at]
    have hins : InsertsAt cmp key val (BTree.leaf (ls ++ rs) (lv ++ rv)).entries
        ((ls ++ key :: rs).zip (lv ++ val :: rv)) none :=
      ⟨ls.zip lv, rs.zip rv, hbelow, habove,
        .inl ⟨rfl, zip_append_eq hlv, by rw [zip_append_eq hlv, List.zip_cons_cons]⟩⟩
    have hlen' : (ls ++ key :: rs).length = (lv ++ val :: rv).length := by simp [hlv, hrv]
    have hs' : (ls ++ key :: rs).Pairwise fun a b => cmp a b = .lt :=
      (sorted_zip cmp hlen').mp (hins.sorted ((sorted_zip cmp hlen).mpr hs))
    have hgrow : (ls ++ key :: rs).length = (ls ++ rs).length + 1 := by simp; omega
    by_cases hfull : (ls ++ rs).length < bTreeOrder
    · rw [if_pos (by omega)]
      refine .single hins ⟨by simp, hlen', hs'⟩ ?_
      rw [promoted]
      simp only [hidx, hhit, hfull, or_true, if_true]
    · rw [if_neg (by omega)]
      refine (splitLeaf_spec hlen' ?_ hs').assoc hins ?_
      · rw [hgrow]
        simp only [bTreeOrder] at hfull
        omega
      · rw [promoted]
        simp only [hidx, hhit, hfull, or_false, Bool.false_eq_true, if_false, insertAt_at]

/-- Where no key is NIL, a key that is stored nowhere can be inserted. -/
theorem insertable_of_absent {key : κ} {t : BTree κ ν} (h : t.Wf cmp)
    (hk : ∀ e ∈ t.entries, cmp key e.1 ≠ .eq) : insertable cmp (fun _ => false) key t = true := by
  have hr : routing cmp key t = false := by
    rw [← Bool.not_eq_true]
    intro hr
    obtain ⟨-, e, he, hke⟩ := btreeGet_routing h hr
    exact hk e he hke
  clear hk
  induction t with
  | leaf keys vals => rfl
  | node keys children ih =>
    obtain ⟨ls, rs, L, c, R, A, o, route⟩ := exists_route h key
    obtain ⟨hwf, -, -⟩ := (wf_node_iff cmp).mp h
    have hc : c ∈ children := by rw [route.children_eq]; simp
    rw [routing, route.idx, Bool.or_eq_false_iff] at hr
    have hchild : routing cmp key c = false := by
      have hr2 := hr.2
      rw [route.children_eq, ← route.length_left, routingChild_at] at hr2
      exact hr2
    have hrest : insertableChild cmp (fun _ => false) key children ls.length = true := by
      rw [route.children_eq, ← route.length_left, insertableChild_at, ih c hc (hwf c hc) hchild]
      cases promoted cmp key c <;> rfl
    rw [insertable, route.idx, hr.1, hrest]
    rfl

/-- Insertion where the key is no routing key of its path and no NIL goes up. -/
theorem btreeAssocNode_spec {isNil : κ → Bool} {key : κ} (val : ν) {t : BTree κ ν}
    (h : t.Wf cmp) (hi : insertable cmp isNil key t = true) :
    AssocSpec cmp key val t (btreeAssocNode cmp isNil key val t) := by
  induction t with
  | leaf keys vals => exact btreeAssocNode_leaf_spec h
  | node keys children ih =>
    obtain ⟨ls, rs, L, c, R, A, o, route⟩ := exists_route h key
    obtain ⟨hwf, -, -⟩ := (wf_node_iff cmp).mp h
    have hc : c ∈ children := by rw [route.children_eq]; simp
    rw [insertable, Bool.and_eq_true, route.idx] at hi
    obtain ⟨hhit, hi⟩ := hi
    rw [route.children_eq, ← route.length_left, insertableChild_at, Bool.and_eq_true] at hi
    rw [btreeAssocNode]
    simp only [route.idx]
    have hat : assocChild cmp isNil key val children ls.length =
        some (btreeAssocNode cmp isNil key val c) := by
      rw [route.children_eq, ← route.length_left, assocChild_at]
    rw [hat]
    exact assocParent_spec h route (by simpa using hhit) (ih c hc (hwf c hc) hi.1) hi.2

end Insertion

/-! ## §4 Removal -/

section Removal

variable [TransCmp cmp]

/-- What a removal delivers. -/
structure DissocSpec (cmp : κ → κ → Ordering) (key : κ) (t : BTree κ ν)
    (r : Option (BTree κ ν) × Option ν) : Prop where
  removes : RemovesAt cmp key t.entries (rootEntries r.1) r.2
  wf : ∀ n, r.1 = some n → n.Wf cmp
  emptied : r.1 = none → empties cmp key t = true ∧ r.2.isSome = true

omit [TransCmp cmp] in
/-- A leaf that removal empties holds the key and nothing else. -/
theorem empties_leaf {t : BTree κ ν} (h : t.Wf cmp) {key : κ} (he : empties cmp key t = true) :
    ∃ e, t.entries = [e] ∧ cmp key e.1 = .eq := by
  cases t with
  | node keys children => cases he
  | leaf keys vals =>
    obtain ⟨-, hlen, -⟩ := h
    rw [empties, Bool.and_eq_true, decide_eq_true_eq] at he
    obtain ⟨h1, hhit⟩ := he
    obtain ⟨k, rfl⟩ := List.length_eq_one_iff.mp h1
    obtain ⟨v, rfl⟩ := List.length_eq_one_iff.mp (hlen.symm.trans h1)
    refine ⟨(k, v), rfl, ?_⟩
    generalize bsearchKeys cmp [k] key = idx at hhit
    cases idx with
    | zero => exact Ordering.isEq_iff_eq_eq.mp hhit
    | succ i => cases hhit

/-- Only the leftmost child can be emptied off the routing keys. -/
theorem Route.leftmost {key : κ} {keys ls rs : List κ} {children L R : List (BTree κ ν)}
    {c : BTree κ ν} {A : List (Option κ)} {o : Option κ}
    (route : Route cmp key keys children ls rs L c R A o) {e : κ × ν} (hc : c.entries = [e])
    (hk : cmp key e.1 = .eq) : ls = [] := by
  cases ls with
  | nil => rfl
  | cons s ls =>
    -- the separator in front of `c` would be equal to the key
    have hlast := congrArg List.getLast? route.seps_eq
    rw [List.getLast?_append, List.getLast?_singleton, Option.some_or, List.map_cons,
      List.getLast?_cons_cons, ← List.map_cons, List.getLast?_map] at hlast
    obtain ⟨s', -, hs'⟩ := Option.map_eq_some_iff.mp hlast
    obtain ⟨e', es, hes, hse⟩ := route.here s' hs'.symm
    rw [hc] at hes
    cases hes
    have heq := TransCmp.eq_trans hk (OrientedCmp.eq_symm hse)
    rw [route.free s' hs'.symm] at heq
    cases heq

/-- The routing node after a removal from the child the search descends to. -/
theorem dissocParent_spec {key : κ} {keys ls rs : List κ} {children L R : List (BTree κ ν)}
    {c : BTree κ ν} {A : List (Option κ)} {o : Option κ}
    (h : (BTree.node keys children).Wf cmp)
    (route : Route cmp key keys children ls rs L c R A o)
    (hhit : hit cmp keys key ls.length = false)
    (hlone : (keys.isEmpty && children.head?.any (empties cmp key)) = false)
    {newChild : Option (BTree κ ν)} {old : ν} (hr : DissocSpec cmp key c (newChild, some old)) :
    ∃ n, dissocParent keys children ls.length newChild = some (some n) ∧
      DissocSpec cmp key (.node keys children) (some n, some old) := by
  obtain ⟨hwf, hroute, hs⟩ := (wf_node_iff cmp).mp h
  have hrem : RemovesAt cmp key (entriesList children)
      (entriesList L ++ rootEntries newChild ++ entriesList R) (some old) := by
    rw [route.children_eq, entriesList_append, entriesList_cons, ← List.append_assoc]
    exact hr.removes.middle route.below (route.above hs hhit)
  cases newChild with
  | some c' =>
    have hparts : entriesList [c'] = rootEntries (some c') := List.append_nil _
    refine ⟨.node keys (L ++ c' :: R), ?_, ?_, fun n hn => ?_,
      fun hn => absurd hn (Option.some_ne_none _)⟩
    · rw [dissocParent, route.children_eq, ← route.length_left, set_at]
    · rw [entries_node, rootEntries, Option.elim_some, entries_node, entriesList_append,
        entriesList_cons, ← List.append_assoc]
      exact hrem
    · cases hn
      have hsp := route.splice hwf [] c' []
        (fun d hd => List.mem_singleton.mp hd ▸ hr.wf c' rfl) .nil
        (fun e es hes hek => ?_) (by rw [hparts]; exact hrem.sorted hs)
      · rw [List.nil_append, ← route.keys_eq] at hsp
        exact hsp
      · rw [hparts]
        have hrm := hr.removes
        rw [hes] at hrm
        exact hrm.head hek
  | none =>
    obtain ⟨hempt, -⟩ := hr.emptied rfl
    have hcm : c ∈ children := by rw [route.children_eq]; simp
    obtain ⟨e, hce, hke⟩ := empties_leaf (hwf c hcm) hempt
    have hls := route.leftmost hce hke
    subst hls
    have hL : L = [] := List.length_eq_zero_iff.mp route.length_left
    subst hL
    obtain rfl : keys = rs := route.keys_eq
    obtain rfl : children = c :: R := route.children_eq
    cases keys with
    | nil =>
      rw [List.head?_cons, Option.any_some, hempt] at hlone
      cases hlone
    | cons s keys =>
      obtain ⟨c₁, R', -, hR', rfl⟩ := List.forall₂_cons_left_iff.mp route.right
      have hsr : Sorted cmp (entriesList (c₁ :: R')) := (sorted_append.mp hs).2.1
      refine ⟨.node keys (c₁ :: R'), rfl, ?_, fun n hn => ?_,
        fun hn => absurd hn (Option.some_ne_none _)⟩
      · simpa [rootEntries] using hrem
      · cases hn
        exact (wf_node_iff cmp).mpr ⟨fun d hd => hwf d (List.mem_cons_of_mem _ hd),
          .cons (headKey_none cmp c₁) hR', hsr⟩

/-- Removal from a leaf. -/
theorem btreeDissocNode_leaf_spec {key : κ} {keys : List κ} {vals : List ν}
    (h : (BTree.leaf keys vals).Wf cmp) :
    ∃ r, btreeDissocNode cmp key (.leaf keys vals) = some r ∧
      DissocSpec cmp key (.leaf keys vals) r := by
  obtain ⟨hne, hlen, hs⟩ := h
  obtain ⟨ls, rs, lv, rv, rfl, rfl, hlv, hrv, hidx, hbelow, hle⟩ := leaf_split ⟨hne, hlen, hs⟩ key
  rw [btreeDissocNode]
  simp only [hidx]
  cases hhit : hit cmp (ls ++ rs) key ls.length with
  | false =>
    have habove := above_of_not_hit rv hs hle hhit
    refine ⟨_, rfl, ?_, fun n hn => ?_, fun hn => absurd hn (Option.some_ne_none _)⟩
    · rw [rootEntries, Option.elim_some, entries_leaf, zip_append_eq hlv]
      exact ⟨_, _, hbelow, habove, .inl ⟨rfl, rfl, rfl⟩⟩
    · cases hn
      exact ⟨hne, hlen, hs⟩
  | true =>
    obtain ⟨k, v, rs', rv', rfl, rfl, hrv', heq, habove, hval⟩ := leaf_hit hs hrv hhit hlv
    have hkeys : removeAt (ls ++ k :: rs') ls.length = some (ls ++ rs') := by
      rw [removeAt, if_neg (by simp), List.eraseIdx_append_of_length_le le_rfl, Nat.sub_self]
      rfl
    have hvals : removeAt (lv ++ v :: rv') ls.length = some (lv ++ rv') := by
      rw [removeAt, if_neg (by simp), ← hlv, List.eraseIdx_append_of_length_le le_rfl,
        Nat.sub_self]
      rfl
    have hrem : RemovesAt cmp key (BTree.leaf (ls ++ k :: rs') (lv ++ v :: rv')).entries
        ((ls ++ rs').zip (lv ++ rv')) (some v) :=
      ⟨ls.zip lv, rs'.zip rv', hbelow, habove, .inr ⟨k, v, heq, rfl,
        by rw [entries_leaf, zip_append_eq hlv, List.zip_cons_cons], zip_append_eq hlv⟩⟩
    rw [if_pos rfl, hkeys, hvals, hval]
    by_cases hzero : (ls ++ rs').length = 0
    · refine ⟨(none, some v), if_pos hzero, ?_, fun n hn => absurd hn.symm (Option.some_ne_none n),
        fun _ => ⟨?_, rfl⟩⟩
      · rw [List.length_eq_zero_iff] at hzero
        rw [hzero] at hrem
        exact hrem
      · rw [empties, hidx, hhit, Bool.and_true, decide_eq_true_eq, List.length_append,
          List.length_cons]
        rw [List.length_append] at hzero
        omega
    · refine ⟨(some (.leaf (ls ++ rs') (lv ++ rv')), some v), if_neg hzero, hrem, fun n hn => ?_,
        fun hn => absurd hn (Option.some_ne_none _)⟩
      cases hn
      have hlen' : (ls ++ rs').length = (lv ++ rv').length := by simp [hlv, hrv']
      exact ⟨fun hnil => hzero (congrArg List.length hnil), hlen', (sorted_zip cmp hlen').mp
        (hrem.sorted ((sorted_zip cmp hlen).mpr hs))⟩

/-- Removal where the key is no routing key of its path and no node loses its
only child. -/
theorem btreeDissocNode_spec {key : κ} {t : BTree κ ν} (h : t.Wf cmp)
    (hr : routing cmp key t = false) (hl : emptiesLoneChild cmp key t = false) :
    ∃ r, btreeDissocNode cmp key t = some r ∧ DissocSpec cmp key t r := by
  induction t with
  | leaf keys vals => exact btreeDissocNode_leaf_spec h
  | node keys children ih =>
    obtain ⟨ls, rs, L, c, R, A, o, route⟩ := exists_route h key
    obtain ⟨hwf, -, hs⟩ := (wf_node_iff cmp).mp h
    have hc : c ∈ children := by rw [route.children_eq]; simp
    have hatR : routingChild cmp key children ls.length = routing cmp key c := by
      rw [route.children_eq, ← route.length_left, routingChild_at]
    have hatL : emptiesLoneChildAt cmp key children ls.length = emptiesLoneChild cmp key c := by
      rw [route.children_eq, ← route.length_left, emptiesLoneChildAt_at]
    have hatD : dissocChild cmp key children ls.length = btreeDissocNode cmp key c := by
      rw [route.children_eq, ← route.length_left, dissocChild_at]
    rw [routing, route.idx, Bool.or_eq_false_iff, hatR] at hr
    rw [emptiesLoneChild, route.idx, Bool.or_eq_false_iff, hatL] at hl
    obtain ⟨⟨newChild, old⟩, hres, hspec⟩ := ih c hc (hwf c hc) hr.2 hl.2
    rw [btreeDissocNode]
    simp only [route.idx, hatD, hres, Option.bind_eq_bind, Option.bind_some]
    cases old with
    | none =>
      refine ⟨_, rfl, ?_, fun n hn => ?_, fun hn => absurd hn (Option.some_ne_none _)⟩
      · have hrem := hspec.removes
        rw [hrem.absent] at hrem
        have hmid := hrem.middle route.below (route.above hs hr.1)
        rw [rootEntries, Option.elim_some, entries_node, route.children_eq, entriesList_append,
          entriesList_cons, ← List.append_assoc]
        exact hmid
      · cases hn
        exact h
    | some v =>
      obtain ⟨n, hn, hspec'⟩ := dissocParent_spec h route hr.1 hl.1 hspec
      refine ⟨(some n, some v), ?_, hspec'⟩
      show (dissocParent keys children ls.length newChild).bind _ = _
      rw [hn]
      rfl

end Removal

end Fol.SortedDict
