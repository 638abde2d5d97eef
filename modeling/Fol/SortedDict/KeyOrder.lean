/-
Fol.SortedDict.KeyOrder — the order of the keys in the B+-tree, over runs of bulk loads, insertions
and completing removals.

The order is read off `inorder`, the stored and the routing keys of a tree from left to right: an
insertion puts its key, or a second copy of a key that is there, between smaller and greater ones,
and a removal only takes keys away. A key that goes left of an equal routing key is in order still,
so `≤` holds where `<` does not.

  §1 In order   — `BTree.inorder`, `Separated`.
  §2 Order      — `assoc_ordered`, `dissoc_sublist`.
  §3 Bulk load  — `btreeBulkLoad_ordered`.
  §4 Runs       — `btree_shape_and_order`.
-/
import Fol.SortedDict.Iterator
import Fol.SortedDict.Shape

namespace Fol.SortedDict

open Lib Std

variable {κ ν : Type}

/-! ## §1 In order -/

mutual

/-- All keys below a node from left to right, each routing key between its children. -/
def BTree.inorder : BTree κ ν → List κ
  | .leaf keys _ => keys
  | .node keys children => inorderList keys children

def inorderList (keys : List κ) (children : List (BTree κ ν)) : List κ :=
  match children, keys with
  | [], keys => keys
  | c :: cs, [] => c.inorder ++ inorderList [] cs
  | c :: cs, k :: ks => c.inorder ++ k :: inorderList ks cs

end

/-- The keys behind a child: its routing key and what follows. -/
def behind (keys : List κ) (children : List (BTree κ ν)) : List κ :=
  match keys with
  | [] => inorderList [] children
  | k :: ks => k :: inorderList ks children

@[simp] theorem inorder_leaf (keys : List κ) (vals : List ν) :
    (BTree.leaf keys vals).inorder = keys := rfl
@[simp] theorem inorder_node (keys : List κ) (children : List (BTree κ ν)) :
    (BTree.node keys children).inorder = inorderList keys children := rfl
@[simp] theorem inorderList_nil (keys : List κ) :
    inorderList keys ([] : List (BTree κ ν)) = keys := by
  rw [inorderList]
@[simp] theorem behind_nil : behind [] ([] : List (BTree κ ν)) = [] := by simp [behind]
@[simp] theorem behind_cons (k : κ) (ks : List κ) (children : List (BTree κ ν)) :
    behind (k :: ks) children = k :: inorderList ks children := rfl

theorem inorderList_cons (keys : List κ) (c : BTree κ ν) (cs : List (BTree κ ν)) :
    inorderList keys (c :: cs) = c.inorder ++ behind keys cs := by
  cases keys <;> simp [inorderList, behind]

theorem inorderList_append {ls : List κ} {L : List (BTree κ ν)} (h : L.length = ls.length)
    (rs : List κ) (R : List (BTree κ ν)) :
    inorderList (ls ++ rs) (L ++ R) = inorderList ls L ++ inorderList rs R := by
  induction ls generalizing L with
  | nil =>
    obtain rfl := List.length_eq_zero_iff.mp h
    simp
  | cons k ls ih =>
    cases L with
    | nil => cases h
    | cons c L =>
      simp only [List.cons_append, inorderList_cons, behind_cons]
      rw [ih (by simpa using h), List.append_assoc, List.cons_append]

/-- The keys around a child. -/
theorem inorder_around {ls : List κ} {L : List (BTree κ ν)} (h : L.length = ls.length) (rs : List κ)
    (c : BTree κ ν) (R : List (BTree κ ν)) :
    inorderList (ls ++ rs) (L ++ c :: R) = inorderList ls L ++ (c.inorder ++ behind rs R) := by
  rw [inorderList_append h, inorderList_cons]

/-- What stands in front of a child ends in its routing key, where there is one. -/
theorem inorderList_concat {ls : List κ} {L : List (BTree κ ν)} (h : L.length = ls.length) (s : κ)
    (c : BTree κ ν) :
    inorderList (ls ++ [s]) (L ++ [c]) = inorderList ls L ++ c.inorder ++ [s] := by
  rw [inorder_around h]
  simp

theorem keys_sublist_inorderList (keys : List κ) (children : List (BTree κ ν)) :
    keys.Sublist (inorderList keys children) := by
  induction children generalizing keys with
  | nil => simp
  | cons c cs ih =>
    rw [inorderList_cons]
    refine List.Sublist.trans ?_ (List.sublist_append_right _ _)
    cases keys with
    | nil => exact List.nil_sublist _
    | cons k ks => exact (ih ks).cons_cons k

/-- The keys stored below a tree are among its keys, in their order. -/
theorem entries_sublist_inorder (t : BTree κ ν) : (t.entries.map Prod.fst).Sublist t.inorder := by
  induction t with
  | leaf keys vals =>
    rw [entries_leaf, inorder_leaf]
    induction keys generalizing vals with
    | nil => simp
    | cons k keys ihk =>
      cases vals with
      | nil => simp
      | cons v vals => exact (ihk vals).cons_cons k
  | node keys children ih =>
    rw [entries_node, inorder_node]
    induction children generalizing keys with
    | nil => simp
    | cons c cs ihl =>
      rw [entriesList_cons, List.map_append, inorderList_cons]
      refine (ih c (by simp)).append ?_
      cases keys with
      | nil => exact ihl [] fun d hd => ih d (by simp [hd])
      | cons k ks => exact (ihl ks fun d hd => ih d (by simp [hd])).cons k

section Order

variable (cmp : κ → κ → Ordering)

/-- No key before a smaller one. -/
def NonDecreasing (keys : List κ) : Prop := keys.Pairwise fun a b => (cmp a b).isLE

/-- Every key of child `i` is at most routing key `i`, which is at most every key of the child after
it. -/
def Separates (keys : List κ) (children : List (BTree κ ν)) : Prop :=
  ∀ (i : Nat) (r : κ), keys[i]? = some r →
    (∀ c : BTree κ ν, children[i]? = some c → ∀ k ∈ c.inorder, (cmp k r).isLE) ∧
      ∀ c : BTree κ ν, children[i + 1]? = some c → ∀ k ∈ c.inorder, (cmp r k).isLE

/-- So in every node. -/
inductive BTree.Separated : BTree κ ν → Prop where
  | leaf (keys : List κ) (vals : List ν) : Separated (.leaf keys vals)
  | node {keys : List κ} {children : List (BTree κ ν)} (here : Separates cmp keys children)
      (below : ∀ c ∈ children, Separated c) : Separated (.node keys children)

variable {cmp}

theorem nonDecreasing_append {l r : List κ} : NonDecreasing cmp (l ++ r) ↔
    NonDecreasing cmp l ∧ NonDecreasing cmp r ∧ ∀ a ∈ l, ∀ b ∈ r, (cmp a b).isLE :=
    List.pairwise_append

theorem inorder_between {keys : List κ} {children : List (BTree κ ν)}
    (hlen : keys.length + 1 = children.length) {c : BTree κ ν} (hc : c ∈ children) :
    c.inorder <:+: inorderList keys children := by
  obtain ⟨L, R, rfl⟩ := List.append_of_mem hc
  have hL : L.length = (keys.take L.length).length := by
    simp only [List.length_append, List.length_cons] at hlen
    simp only [List.length_take]
    omega
  rw [← List.take_append_drop L.length keys, inorder_around hL, ← List.append_assoc]
  exact ⟨_, _, rfl⟩

theorem separates_of_nonDecreasing {keys : List κ} {children : List (BTree κ ν)}
    (hlen : keys.length + 1 = children.length) (h : NonDecreasing cmp (inorderList keys children)) :
    Separates cmp keys children := by
  intro i r hr
  obtain ⟨hi, hget⟩ := List.getElem?_eq_some_iff.mp hr
  obtain ⟨L, c, d, R, rfl, hL⟩ : ∃ L c d R, children = L ++ c :: d :: R ∧ L.length = i := by
    refine ⟨children.take i, children[i], children[i + 1], children.drop (i + 2), ?_, ?_⟩
    · rw [← List.drop_eq_getElem_cons, ← List.drop_eq_getElem_cons, List.take_append_drop]
    · simp only [List.length_take]
      omega
  have hkeys : keys = keys.take i ++ r :: keys.drop (i + 1) := by
    rw [← hget, ← List.drop_eq_getElem_cons, List.take_append_drop]
  have hls : L.length = (keys.take i).length := by
    simp only [List.length_take]
    omega
  rw [hkeys, inorder_around hls, behind_cons, inorderList_cons] at h
  obtain ⟨-, h, -⟩ := nonDecreasing_append.mp h
  obtain ⟨-, h, hcd⟩ := nonDecreasing_append.mp h
  obtain ⟨hrd, -⟩ := List.pairwise_cons.mp h
  constructor
  · intro c' hc' k hk
    rw [← hL, List.getElem?_append_right (Nat.le_refl _), Nat.sub_self] at hc'
    cases hc'
    exact hcd k hk r (by simp)
  · intro d' hd' k hk
    rw [← hL, List.getElem?_append_right (Nat.le_add_right _ 1), Nat.add_sub_cancel_left] at hd'
    cases hd'
    exact hrd k (by simp [hk])

/-- Keys in order separate the children of every node. -/
theorem BTree.Shape.separated {depth : Nat} {t : BTree κ ν} (h : t.Shape depth)
    (ho : NonDecreasing cmp t.inorder) : t.Separated cmp := by
  induction h with
  | leaf _ _ _ => exact .leaf _ _
  | node hlen _ _ ih =>
    refine .node (separates_of_nonDecreasing hlen ho) fun c hc => ih c hc ?_
    exact ho.sublist (inorder_between hlen hc).sublist

end Order

/-! ## §2 Order -/

/-- The keys of what an insertion returns: the split key between the two halves. -/
def AssocResult.inorder (r : AssocResult κ ν) : List κ :=
  r.node.inorder ++ r.split.elim [] fun s => s.1 :: s.2.inorder

section Insertion

variable (cmp : κ → κ → Ordering) (isNil : κ → Bool)

theorem splitNode_inorder {keys : List κ} {children : List (BTree κ ν)}
    (hlen : keys.length + 1 = children.length) (h33 : children.length = 33) :
    (splitNode keys children).inorder = inorderList keys children := by
  obtain ⟨K, k, K', rfl, hK, -⟩ := exists_cut keys (by omega)
  obtain ⟨C, c, C', rfl, hC, -⟩ := exists_cut children (by omega)
  have hcut : C ++ c :: C' = (C ++ [c]) ++ C' := by simp
  have hlenC : C.length = K.length := by omega
  have hleft := inorder_around hlenC [] c []
  rw [List.append_nil] at hleft
  rw [hcut, splitNode_at hK (by simp [hC]), ← hcut, inorder_around hlenC]
  simp [AssocResult.inorder, hleft]

/-- The node an insertion returns has no keys but those around the child and those of the child's
parts, in their order. -/
theorem assocParent_sublist {depth : Nat} {keys ls rs : List κ} {children L R : List (BTree κ ν)}
    {c : BTree κ ν} {r : AssocResult κ ν} (h : (BTree.node keys children).Shape (depth + 1))
    (hkeys : keys = ls ++ rs) (hchildren : children = L ++ c :: R) (hL : L.length = ls.length) :
    (assocParent isNil keys children ls.length r).inorder.Sublist
      (inorderList ls L ++ (r.inorder ++ behind rs R)) := by
  have hset : children.set ls.length r.node = L ++ r.node :: R := by rw [hchildren, ← hL, set_at]
  have hkept :
    ({ node := .node keys (children.set ls.length r.node) } : AssocResult κ ν).inorder.Sublist
      (inorderList ls L ++ (r.inorder ++ behind rs R)) := by
    rw [hset, hkeys]
    simp only [AssocResult.inorder, Option.elim_none, List.append_nil, inorder_node,
      inorder_around hL]
    exact (List.Sublist.refl _).append ((List.sublist_append_left _ _).append (List.Sublist.refl _))
  unfold assocParent
  split
  · exact hkept
  · split
    · exact hkept
    · next splitKey splitRight hfilter =>
      obtain ⟨hsplit, -⟩ := Option.filter_eq_some_iff.mp hfilter
      have hnew : children.take ls.length ++ r.node :: splitRight :: children.drop (ls.length + 1) =
          L ++ r.node :: splitRight :: R := by
        rw [hchildren, ← hL]
        simp
      have hnewKeys : insertAt keys ls.length splitKey = ls ++ splitKey :: rs := by
        rw [hkeys, insertAt_at]
      have hall : inorderList (ls ++ splitKey :: rs) (L ++ r.node :: splitRight :: R) =
          inorderList ls L ++ (r.inorder ++ behind rs R) := by
        rw [inorder_around hL, behind_cons, inorderList_cons]
        simp [AssocResult.inorder, hsplit]
      simp only [hnew, hnewKeys]
      cases h with
      | node hlen hmax _ =>
        split
        · rw [← hall]
          simp [AssocResult.inorder]
        · next hgt =>
          rw [hkeys, hchildren] at hlen
          rw [hchildren] at hmax
          simp only [bTreeOrder, List.length_append, List.length_cons] at hgt hlen hmax
          rw [splitNode_inorder (by simp; omega) (by simp; omega), hall]

variable {cmp} [TransCmp cmp]

/-- The same key twice. -/
theorem nonDecreasing_double {l r : List κ} {k : κ} (h : NonDecreasing cmp (l ++ k :: r)) :
    NonDecreasing cmp (l ++ k :: k :: r) := by
  obtain ⟨hl, hr, hlr⟩ := nonDecreasing_append.mp h
  have hk := (List.pairwise_cons.mp hr).1
  refine nonDecreasing_append.mpr ⟨hl, List.pairwise_cons.mpr ⟨fun b hb => ?_, hr⟩,
    fun a ha b hb => ?_⟩
  · rcases List.mem_cons.mp hb with rfl | hb
    · have hself : cmp b b = .eq := ReflCmp.compare_self
      rw [hself]
      rfl
    · exact hk b hb
  · rcases List.mem_cons.mp hb with rfl | hb
    · exact hlr a ha b (by simp)
    · exact hlr a ha b hb

/-- What an insertion of `key` does to the keys of a tree. -/
structure KeysOrdered (cmp : κ → κ → Ordering) (key : κ) (before after : List κ) : Prop where
  ordered : NonDecreasing cmp after
  mem : ∀ k ∈ after, k ∈ before ∨ k = key

omit [TransCmp cmp] in
theorem KeysOrdered.sublist {key : κ} {before after after' : List κ}
    (h : KeysOrdered cmp key before after) (hs : after'.Sublist after) :
    KeysOrdered cmp key before after' :=
  ⟨h.ordered.sublist hs, fun k hk => h.mem k (hs.subset hk)⟩

theorem splitLeaf_ordered {key : κ} {before keys : List κ} {vals : List ν}
    (hlen : vals.length = keys.length) (h33 : keys.length = 33)
    (h : KeysOrdered cmp key before keys) :
    KeysOrdered cmp key before (splitLeaf keys vals).inorder := by
  obtain ⟨K, k, K', rfl, hK, -⟩ := exists_cut keys (by omega)
  have hV : (vals.take 16).length = 16 := by
    simp only [List.length_take]
    omega
  rw [← List.take_append_drop 16 vals, splitLeaf_at hK hV]
  simp only [AssocResult.inorder, Option.elim_some, inorder_leaf]
  exact ⟨nonDecreasing_double h.ordered, fun a ha => h.mem a (by simpa using ha)⟩

omit [TransCmp cmp] in
/-- Smaller keys in front, greater ones behind. -/
theorem KeysOrdered.around {key : κ} {before after A B : List κ}
    (h : KeysOrdered cmp key before after) (hold : NonDecreasing cmp (A ++ (before ++ B)))
    (hA : ∀ a ∈ A, (cmp a key).isLE) (hB : ∀ b ∈ B, (cmp key b).isLE) :
    KeysOrdered cmp key (A ++ (before ++ B)) (A ++ (after ++ B)) := by
  obtain ⟨hAo, hrest, hAr⟩ := nonDecreasing_append.mp hold
  obtain ⟨-, hBo, hbB⟩ := nonDecreasing_append.mp hrest
  constructor
  · refine nonDecreasing_append.mpr ⟨hAo,
      nonDecreasing_append.mpr ⟨h.ordered, hBo, fun a ha b hb => ?_⟩, fun a ha b hb => ?_⟩
    · rcases h.mem a ha with ha | rfl
      · exact hbB a ha b hb
      · exact hB b hb
    · rcases List.mem_append.mp hb with hb | hb
      · rcases h.mem b hb with hb | rfl
        · exact hAr a ha b (by simp [hb])
        · exact hA a ha
      · exact hAr a ha b (by simp [hb])
  · intro k hk
    simp only [List.mem_append] at hk ⊢
    rcases hk with hk | hk | hk
    · exact .inl (.inl hk)
    · rcases h.mem k hk with hk | hk
      · exact .inl (.inr (.inl hk))
      · exact .inr hk
    · exact .inl (.inr (.inr hk))

theorem isLE_of_gt {a b : κ} (h : cmp b a = .gt) : (cmp a b).isLE := by
  rw [OrientedCmp.lt_of_gt h]
  rfl

/-- An insertion keeps the keys in order. -/
theorem assoc_ordered {depth : Nat} {t : BTree κ ν} (h : t.Shape depth)
    (ho : NonDecreasing cmp t.inorder) (key : κ) (val : ν) :
    KeysOrdered cmp key t.inorder (btreeAssocNode cmp isNil key val t).inorder := by
  induction t generalizing depth with
  | leaf keys vals =>
    rw [inorder_leaf] at ho ⊢
    have hkept : KeysOrdered cmp key keys keys := ⟨ho, fun k hk => .inl hk⟩
    obtain ⟨ls, rs, hkeys, hidx, hls, hrs⟩ := bsearchKeys_split_isLE cmp ho key
    cases h with
    | leaf hlen hpos hmax =>
      rw [btreeAssocNode]
      simp only [hidx]
      split
      · simpa [AssocResult.inorder] using hkept
      · have hinsert : insertAt keys ls.length key = ls ++ key :: rs := by rw [hkeys, insertAt_at]
        have hnew : KeysOrdered cmp key keys (ls ++ key :: rs) := by
          have hone : KeysOrdered cmp key [] [key] :=
            ⟨List.pairwise_singleton _ _, fun k hk => .inr (by simpa using hk)⟩
          have hall := hone.around (A := ls) (B := rs) (by simpa [hkeys] using ho)
            (fun a ha => isLE_of_gt (hls a ha)) hrs
          simpa [hkeys] using hall
        have hk := length_insertAt (by rw [hkeys]; simp : ls.length ≤ keys.length) key
        have hv := length_insertAt (by rw [hlen, hkeys]; simp : ls.length ≤ vals.length) val
        rw [hinsert] at hk ⊢
        split
        · simpa [AssocResult.inorder] using hnew
        · next hgt =>
          rw [bTreeOrder] at hgt
          exact splitLeaf_ordered (by omega) (by omega) hnew
  | node keys children ih =>
    cases h with
    | @node d _ _ hlen hmax hbelow =>
      have hsorted := ho.sublist (keys_sublist_inorderList keys children)
      obtain ⟨ls, rs, L, c, R, hkeys, hchildren, hL, -, hidx⟩ :=
        exists_descent cmp (.node hlen hmax hbelow) key
      obtain ⟨ls', rs', hkeys', hidx', hls, hrs⟩ := bsearchKeys_split_isLE cmp hsorted key
      obtain ⟨rfl, rfl⟩ := List.append_inj (hkeys'.symm.trans hkeys) (hidx'.symm.trans hidx)
      have hc : c ∈ children := by rw [hchildren]; simp
      have hat : assocChild cmp isNil key val children ls'.length =
        some (btreeAssocNode cmp isNil key val c) := by
        rw [hchildren, ← hL, assocChild_at]
      rw [btreeAssocNode]
      simp only [hidx, hat]
      have hnode :
        inorderList keys children = inorderList ls' L ++ (c.inorder ++ behind rs' R) := by
        rw [hchildren, hkeys, inorder_around hL]
      rw [inorder_node, hnode] at ho
      obtain ⟨hA, hrest, hAr⟩ := nonDecreasing_append.mp ho
      obtain ⟨hco, hB, -⟩ := nonDecreasing_append.mp hrest
      have hchild := ih c hc (hbelow c hc) hco
      rw [inorder_node, hnode]
      refine KeysOrdered.sublist ?_
        (assocParent_sublist isNil (.node hlen hmax hbelow) hkeys hchildren hL)
      refine hchild.around ho ?_ ?_
      · -- the keys in front end in a routing key below `key`
        intro a ha
        rcases List.eq_nil_or_concat ls' with rfl | ⟨l, s, hs⟩
        · rw [List.length_eq_zero_iff.mp hL] at ha
          simp at ha
        · rw [List.concat_eq_append] at hs
          subst hs
          rcases List.eq_nil_or_concat L with rfl | ⟨L', d', hd'⟩
          · simp at hL
          · rw [List.concat_eq_append] at hd'
            subst hd'
            have hsk : (cmp s key).isLE := isLE_of_gt (hls s (by simp))
            rw [inorderList_concat (by simpa using hL)] at ha hA
            obtain ⟨-, -, hlast⟩ := nonDecreasing_append.mp hA
            rcases List.mem_append.mp ha with ha | ha
            · exact TransCmp.isLE_trans (hlast a ha s (by simp)) hsk
            · obtain rfl := List.mem_singleton.mp ha
              exact hsk
      · intro b hb
        cases rs' with
        | nil =>
          have hR : R = [] := by
            rw [hkeys, hchildren] at hlen
            simp only [List.append_nil, List.length_append, List.length_cons] at hlen
            exact List.length_eq_zero_iff.mp (by omega)
          rw [hR] at hb
          simp at hb
        | cons s rs' =>
          have hks := hrs s (by simp)
          rw [behind_cons] at hB hb
          rcases List.mem_cons.mp hb with rfl | hb
          · exact hks
          · exact TransCmp.isLE_trans hks ((List.pairwise_cons.mp hB).1 b hb)

end Insertion

/-! ### Removal -/

section Removal

variable {cmp : κ → κ → Ordering}

theorem removeAt_sublist {α : Type} {arr arr' : List α} {idx : Nat}
    (h : removeAt arr idx = some arr') :
    arr'.Sublist arr := by
  unfold removeAt at h
  split at h
  · cases h
  · cases h
    exact List.eraseIdx_sublist _ _

/-- A node without one child and one routing key beside it. -/
theorem inorder_without {ls rs newKeys : List κ} {L R : List (BTree κ ν)}
    (hL : L.length = ls.length) (hR : R.length = rs.length)
    (h : removeAt (ls ++ rs) (if ls.length = 0 then 0 else ls.length - 1) = some newKeys) :
    (inorderList newKeys (L ++ R)).Sublist (inorderList ls L ++ behind rs R) := by
  have hne : ¬ (ls ++ rs).length = 0 := by
    intro h0
    rw [removeAt, if_pos h0] at h
    cases h
  rw [removeAt, if_neg hne] at h
  cases h
  rcases List.eq_nil_or_concat ls with rfl | ⟨ls, s, rfl⟩
  · obtain rfl := List.length_eq_zero_iff.mp hL
    cases rs with
    | nil => simp at hne
    | cons k rs => simp
  · rw [List.concat_eq_append] at hL ⊢
    rcases List.eq_nil_or_concat L with rfl | ⟨L, d, rfl⟩
    · simp at hL
    · rw [List.concat_eq_append] at hL ⊢
      have hlen : L.length = ls.length := by simpa using hL
      have herase : (ls ++ [s] ++ rs).eraseIdx ls.length = ls ++ rs := by
        simp [List.eraseIdx_append_of_length_le]
      simp only [List.length_append, List.length_singleton, Nat.add_eq_zero_iff, Nat.one_ne_zero,
        and_false, if_false, Nat.add_sub_cancel, herase]
      rw [List.append_assoc, List.singleton_append, inorder_around hlen, inorderList_concat hlen,
        List.append_assoc, List.append_assoc]
      exact (List.Sublist.refl _).append ((List.Sublist.refl _).append (List.sublist_cons_self s _))

theorem dissocParent_sublist {keys ls rs : List κ} {children L R : List (BTree κ ν)}
    {c n : BTree κ ν} {newChild : Option (BTree κ ν)} (hkeys : keys = ls ++ rs)
    (hchildren : children = L ++ c :: R) (hL : L.length = ls.length) (hR : R.length = rs.length)
    (hnew : ∀ d ∈ newChild, d.inorder.Sublist c.inorder)
    (h : dissocParent keys children ls.length newChild = some (some n)) :
    n.inorder.Sublist (inorderList ls L ++ (c.inorder ++ behind rs R)) := by
  cases newChild with
  | some d =>
    cases h
    rw [inorder_node, hchildren, ← hL, set_at, hkeys, inorder_around hL]
    exact (List.Sublist.refl _).append ((hnew d rfl).append (List.Sublist.refl _))
  | none =>
    obtain ⟨newKeys, hremove, hn⟩ := Option.map_eq_some_iff.mp h
    have hchildren' : children.eraseIdx ls.length = L ++ R := by
      simp [hchildren, ← hL, List.eraseIdx_append_of_length_le]
    rw [hchildren'] at hn
    dsimp only at hn
    split at hn
    · cases hn
    · cases hn
      rw [hkeys] at hremove
      rw [inorder_node]
      refine (inorder_without hL hR hremove).trans ?_
      exact (List.Sublist.refl _).append (List.sublist_append_right _ _)

/-- A removal only takes keys away. -/
theorem dissoc_sublist {depth : Nat} {t : BTree κ ν} (h : t.Shape depth) {key : κ}
    {r : Option (BTree κ ν) × Option ν} (hr : btreeDissocNode cmp key t = some r) :
    ∀ n ∈ r.1, n.inorder.Sublist t.inorder := by
  induction t generalizing depth r with
  | leaf keys vals =>
    rw [btreeDissocNode] at hr
    split at hr
    · simp only [Option.bind_eq_bind, Option.bind_eq_some_iff] at hr
      obtain ⟨newKeys, hk, newVals, hv, hr⟩ := hr
      split at hr
      · cases hr
        simp
      · cases hr
        intro n hn
        cases hn
        exact removeAt_sublist hk
    · cases hr
      intro n hn
      cases hn
      exact List.Sublist.refl _
  | node keys children ih =>
    cases h with
    | @node d _ _ hlen hmax hbelow =>
      obtain ⟨ls, rs, L, c, R, hkeys, hchildren, hL, hR, hidx⟩ :=
        exists_descent cmp (.node hlen hmax hbelow) key
      have hc : c ∈ children := by rw [hchildren]; simp
      have hat : dissocChild cmp key children ls.length = btreeDissocNode cmp key c := by
        rw [hchildren, ← hL, dissocChild_at]
      have hnode : inorderList keys children = inorderList ls L ++ (c.inorder ++ behind rs R) := by
        rw [hchildren, hkeys, inorder_around hL]
      rw [btreeDissocNode] at hr
      simp only [hidx, hat, Option.bind_eq_bind, Option.bind_eq_some_iff] at hr
      obtain ⟨⟨newChild, old⟩, hchild, hr⟩ := hr
      have hnew := ih c hc (hbelow c hc) hchild
      cases old with
      | none =>
        cases hr
        intro n hn
        cases hn
        exact List.Sublist.refl _
      | some v =>
        obtain ⟨newNode, hparent, hr⟩ := Option.bind_eq_some_iff.mp hr
        cases hr
        intro n hn
        obtain rfl : newNode = some n := hn
        rw [inorder_node, hnode]
        exact dissocParent_sublist hkeys hchildren hL hR hnew hparent

end Removal

/-! ## §3 Bulk load -/

section Load

variable {cmp : κ → κ → Ordering} [TransCmp cmp]

/-- The keys are in order, and each is equal to a key that is stored. -/
structure InOrderOf (cmp : κ → κ → Ordering) (keys : List κ) (es : List (κ × ν)) : Prop where
  ordered : NonDecreasing cmp keys
  stored : ∀ k ∈ keys, ∃ e ∈ es, cmp k e.1 = .eq

/-- Keys of two lists of which one is stored in front of the other. -/
theorem InOrderOf.append {l r : List κ} {es fs : List (κ × ν)} (hl : InOrderOf cmp l es)
    (hr : InOrderOf cmp r fs) (hs : Sorted cmp (es ++ fs)) : InOrderOf cmp (l ++ r) (es ++ fs) := by
  obtain ⟨-, -, hlt⟩ := sorted_append.mp hs
  refine ⟨nonDecreasing_append.mpr ⟨hl.ordered, hr.ordered, fun a ha b hb => ?_⟩, fun k hk => ?_⟩
  · obtain ⟨e, he, hae⟩ := hl.stored a ha
    obtain ⟨f, hf, hbf⟩ := hr.stored b hb
    have hab : cmp a b = .lt :=
      TransCmp.lt_of_lt_of_eq (TransCmp.lt_of_eq_of_lt hae (hlt e he f hf))
      (OrientedCmp.eq_symm hbf)
    rw [hab]
    rfl
  · rcases List.mem_append.mp hk with hk | hk
    · obtain ⟨e, he, hke⟩ := hl.stored k hk
      exact ⟨e, by simp [he], hke⟩
    · obtain ⟨f, hf, hkf⟩ := hr.stored k hk
      exact ⟨f, by simp [hf], hkf⟩

/-- A routing key equal to the first of the keys behind it. -/
theorem InOrderOf.routing {keys : List κ} {es : List (κ × ν)} (h : InOrderOf cmp keys es)
    (hs : Sorted cmp es) {s : κ} {e : κ × ν} (he : es.head? = some e) (hse : cmp s e.1 = .eq) :
    InOrderOf cmp (s :: keys) es := by
  obtain ⟨es, rfl⟩ := List.head?_eq_some_iff.mp he
  refine ⟨List.pairwise_cons.mpr ⟨fun k hk => ?_, h.ordered⟩, fun k hk => ?_⟩
  · obtain ⟨f, hf, hkf⟩ := h.stored k hk
    rcases List.mem_cons.mp hf with rfl | hf
    · rw [TransCmp.eq_trans hse (OrientedCmp.eq_symm hkf)]
      rfl
    · have hef := (List.pairwise_cons.mp hs).1 f hf
      rw [TransCmp.lt_of_eq_of_lt hse (TransCmp.lt_of_lt_of_eq hef (OrientedCmp.eq_symm hkf))]
      rfl
  · rcases List.mem_cons.mp hk with rfl | hk
    · exact ⟨e, by simp, hse⟩
    · exact h.stored k hk

/-- Children behind their separators. -/
theorem behind_inOrder {keys : List κ} {children : List (BTree κ ν)}
    (hroute : List.Forall₂ (HeadKey cmp) (keys.map some) children)
    (hs : Sorted cmp (entriesList children))
    (h : ∀ c ∈ children, InOrderOf cmp c.inorder c.entries) :
    InOrderOf cmp (behind keys children) (entriesList children) := by
  induction keys generalizing children with
  | nil =>
    rw [List.forall₂_nil_left_iff.mp hroute]
    exact ⟨by simp [NonDecreasing], by simp⟩
  | cons s keys ih =>
    obtain ⟨c, cs, hhead, hrest, rfl⟩ := List.forall₂_cons_left_iff.mp hroute
    obtain ⟨e, es, hes, hse⟩ := hhead s rfl
    have hs' := hs
    rw [entriesList_cons] at hs'
    rw [behind_cons, inorderList_cons]
    refine InOrderOf.routing ?_ hs (by rw [entriesList_cons, hes]; rfl) hse
    exact (h c (by simp)).append (ih hrest (sorted_append.mp hs').2.1 fun d hd =>
      h d (by simp [hd])) hs'

/-- A tree whose routing keys head their children has its keys in order. -/
theorem BTree.Wf.inOrder {t : BTree κ ν} (h : t.Wf cmp) : InOrderOf cmp t.inorder t.entries := by
  induction t with
  | leaf keys vals =>
    obtain ⟨-, hlen, hs⟩ := h
    refine ⟨isLE_of_lt cmp hs, fun k hk => ?_⟩
    have hmap : (keys.zip vals).map Prod.fst = keys := List.map_fst_zip (Nat.le_of_eq hlen)
    rw [inorder_leaf, ← hmap] at hk
    obtain ⟨e, he, rfl⟩ := List.mem_map.mp hk
    exact ⟨e, he, ReflCmp.compare_self⟩
  | node keys children ih =>
    obtain ⟨hwf, hroute, hs⟩ := (wf_node_iff cmp).mp h
    obtain ⟨c, cs, -, hrest, rfl⟩ := List.forall₂_cons_left_iff.mp hroute
    rw [inorder_node, inorderList_cons]
    rw [entriesList_cons] at hs
    refine (ih c (by simp) (hwf c (by simp))).append ?_ hs
    exact behind_inOrder hrest (sorted_append.mp hs).2.1 fun d hd =>
      ih d (by simp [hd]) (hwf d (by simp [hd]))

variable (cmp) in
theorem btreeBulkLoad_ordered (pairs : List (κ × ν)) :
    ∀ t ∈ (btreeBulkLoad cmp pairs).root, (∃ depth, t.Shape depth) ∧
    NonDecreasing cmp t.inorder := by
  obtain ⟨unique, hload, hs, -⟩ := unique_sorted cmp pairs
  rw [hload]
  intro t ht
  exact ⟨buildBottomUp_shape unique t ht, ((buildBottomUp_spec hs).1 t ht).inOrder.ordered⟩

end Load

/-! ## §4 Runs -/

section Runs

variable {cmp : κ → κ → Ordering} {isNil : κ → Bool} {d d' : BTreeDict κ ν}

/-- Its keys are in order. -/
def KeysInOrder (cmp : κ → κ → Ordering) (d : BTreeDict κ ν) : Prop :=
  ∀ t ∈ d.root, NonDecreasing cmp t.inorder

variable [TransCmp cmp]

theorem sortedDictAssoc_keysInOrder (h : Shaped d) (ho : KeysInOrder cmp d) (key : κ) (val : ν) :
    KeysInOrder cmp (sortedDictAssoc cmp isNil d key val) := by
  unfold sortedDictAssoc KeysInOrder
  intro t ht
  cases hroot : d.root with
  | none =>
    rw [hroot] at ht
    cases ht
    exact List.pairwise_singleton _ _
  | some root =>
    obtain ⟨depth, hdepth⟩ := h root hroot
    have hkeys := (assoc_ordered isNil hdepth (ho root hroot) key val).ordered
    simp only [hroot] at ht
    split at ht
    · cases ht
      exact hkeys.sublist (List.sublist_append_left _ _)
    · next splitKey splitRight hfilter =>
      cases ht
      obtain ⟨hsplit, -⟩ := Option.filter_eq_some_iff.mp hfilter
      rw [AssocResult.inorder, hsplit] at hkeys
      simpa [inorderList_cons, behind] using hkeys

theorem step_keysInOrder (h : Shaped d) (ho : KeysInOrder cmp d) {op : Op κ ν}
    (hstep : step cmp isNil d op = some d') : KeysInOrder cmp d' := by
  cases op with
  | bulkLoad pairs =>
    cases hstep
    exact fun t ht => (btreeBulkLoad_ordered cmp pairs t ht).2
  | assoc key val =>
    cases hstep
    exact sortedDictAssoc_keysInOrder h ho key val
  | dissoc key =>
    rcases sortedDictDissoc_root hstep with rfl | ⟨root, r, hroot, hr, hd'⟩
    · exact ho
    · obtain ⟨depth, hdepth⟩ := h root hroot
      intro t ht
      rw [hd'] at ht
      exact (ho root hroot).sublist (dissoc_sublist hdepth hr t ht)

theorem run_keysInOrder (h : Shaped d) (ho : KeysInOrder cmp d) {ops : List (Op κ ν)}
    (hrun : run cmp isNil d ops = some d') : KeysInOrder cmp d' := by
  induction ops generalizing d with
  | nil =>
    cases hrun
    exact ho
  | cons op ops ih =>
    obtain ⟨d₁, hstep, hrun⟩ := Option.bind_eq_some_iff.mp hrun
    exact ih (step_shaped h hstep) (step_keysInOrder h ho hstep) hrun

/-- After any sequence of bulk loads, insertions with the root split and completing removals, under
any total order of the keys: all leaves are at one depth, leaves and nodes have 1 to 32 keys and
children and arrays of matching lengths, the routing keys separate the keys of the children, and
the iterator returns the entries of the leaves, their keys in order. -/
theorem btree_shape_and_order (ops : List (Op κ ν)) (hrun : run cmp isNil {} ops = some d) :
    (∀ t, d.root = some t → (∃ depth, t.Shape depth) ∧ t.Separated cmp) ∧
      iteratorItems (iteratorStart d.root) = rootEntries d.root ∧
      NonDecreasing cmp ((iteratorItems (iteratorStart d.root)).map Prod.fst) := by
  have hshaped := run_shaped shaped_empty hrun
  have hordered := run_keysInOrder shaped_empty (by simp [KeysInOrder]) hrun
  refine ⟨fun t ht => ?_, iteratorItems_eq_entries d.root, ?_⟩
  · obtain ⟨depth, hdepth⟩ := hshaped t ht
    exact ⟨⟨depth, hdepth⟩, hdepth.separated (hordered t ht)⟩
  · rw [iteratorItems_eq_entries]
    cases hroot : d.root with
    | none => simp [rootEntries, NonDecreasing]
    | some t => exact (hordered t hroot).sublist (entries_sublist_inorder t)

end Runs

/-- Forty keys, which split the root, one of them removed. -/
theorem btree_shape_and_order_small :
    ∃ d, run compare (fun _ => false) {}
        ((List.range 40).map (fun k => .assoc k k) ++ [.dissoc 2]) = some d ∧
      (∀ t : BTree Nat Nat, d.root = some t → (∃ depth, t.Shape depth) ∧ t.Separated compare) ∧
      iteratorItems (iteratorStart d.root) = rootEntries d.root ∧
      NonDecreasing compare ((iteratorItems (iteratorStart d.root)).map Prod.fst) := by
  obtain ⟨d, hd⟩ := Option.isSome_iff_exists.mp (show
    (run compare (fun _ => false) ({} : BTreeDict Nat Nat)
      ((List.range 40).map (fun k => .assoc k k) ++ [.dissoc 2])).isSome by decide +kernel)
  exact ⟨d, hd, btree_shape_and_order _ hd⟩

end Fol.SortedDict
