/-
Fol.SortedDict.Removal — when `btree-dissoc-node` completes, and what is left of a tree whose keys
are removed one after the other.

A node that loses a child loses a routing key with it, and `remove-at` has none to take from a node
with a single child. The removal of the last key below such a node signals an error; every other
removal completes. So a root that is a node never becomes `nil`.
-/
import Fol.SortedDict.KeyOrder

namespace Fol.SortedDict

open Lib Std

variable {κ ν : Type}

/-! ## §1 Completion -/

section Completion

variable {cmp : κ → κ → Ordering}

theorem removeAt_eq_some {α : Type} {arr : List α} (h : arr ≠ []) (idx : Nat) :
    removeAt arr idx = some (arr.eraseIdx idx) := by
  rw [removeAt, if_neg (by simpa using h)]

theorem hit_lt {keys : List κ} {key : κ} {idx : Nat} (h : hit cmp keys key idx = true) :
    idx < keys.length := by
  by_contra hge
  rw [hit, List.getElem?_eq_none (by omega)] at h
  cases h

/-- A removal leaves nothing exactly when it empties a leaf. -/
theorem dissoc_eq_none_iff {depth : Nat} {t : BTree κ ν} (h : t.Shape depth) {key : κ}
    {r : Option (BTree κ ν) × Option ν} (hr : btreeDissocNode cmp key t = some r) :
    (r.1 = none ↔ empties cmp key t = true) ∧ (r.1 = none → r.2.isSome = true) := by
  cases t with
  | leaf keys vals =>
    cases h with
    | leaf hlen hpos hmax =>
      rw [btreeDissocNode] at hr
      rw [empties, Bool.and_eq_true, decide_eq_true_eq]
      split at hr
      · next hhit =>
        have hlt := hit_lt hhit
        simp only [Option.bind_eq_bind, Option.bind_eq_some_iff] at hr
        obtain ⟨newKeys, hk, newVals, -, hr⟩ := hr
        obtain ⟨hkLen, -⟩ := length_removeAt hk hlt
        have hval : vals[bsearchKeys cmp keys key]?.isSome := by
          rw [List.getElem?_eq_getElem (by omega)]
          rfl
        split at hr
        · cases hr
          exact ⟨by simp only [hhit, and_true, true_iff]; omega, fun _ => hval⟩
        · cases hr
          exact ⟨by simp only [hhit, and_true, reduceCtorEq, false_iff]; omega, by simp⟩
      · next hhit =>
        cases hr
        simp [hhit]
  | node keys children =>
    cases h with
    | node hlen hmax hbelow =>
      have hnot : r.1 ≠ none := by
        intro hnone
        obtain ⟨ls, rs, L, c, R, hkeys, hchildren, hL, -, hidx⟩ :=
          exists_descent cmp (.node hlen hmax hbelow) key
        have hat : dissocChild cmp key children ls.length = btreeDissocNode cmp key c := by
          rw [hchildren, ← hL, dissocChild_at]
        have hc : c ∈ children := by rw [hchildren]; simp
        rw [btreeDissocNode] at hr
        simp only [hidx, hat, Option.bind_eq_bind, Option.bind_eq_some_iff] at hr
        obtain ⟨⟨newChild, old⟩, hchild, hr⟩ := hr
        cases old with
        | none =>
          cases hr
          cases hnone
        | some v =>
          obtain ⟨newNode, hparent, hr⟩ := Option.bind_eq_some_iff.mp hr
          cases hr
          obtain ⟨n, rfl, -⟩ := dissocParent_shape (.node hlen hmax hbelow) hkeys
            (dissoc_shape cmp (hbelow c hc) hchild) hparent
          cases hnone
      simp [empties, hnot]

/-- A removal completes exactly when it does not empty the only child of a node on its path. -/
theorem dissoc_completes_iff {depth : Nat} {t : BTree κ ν} (h : t.Shape depth) (key : κ) :
    (btreeDissocNode cmp key t).isSome ↔ emptiesLoneChild cmp key t = false := by
  induction t generalizing depth with
  | leaf keys vals =>
    cases h with
    | leaf hlen hpos hmax =>
      have hk : keys ≠ [] := List.ne_nil_of_length_pos hpos
      have hv : vals ≠ [] := List.ne_nil_of_length_pos (by omega)
      simp only [emptiesLoneChild, iff_true]
      rw [btreeDissocNode]
      split
      · simp only [removeAt_eq_some hk, removeAt_eq_some hv, Option.bind_eq_bind, Option.bind_some]
        split <;> rfl
      · rfl
  | node keys children ih =>
    cases h with
    | @node d _ _ hlen hmax hbelow =>
      obtain ⟨ls, rs, L, c, R, hkeys, hchildren, hL, hR, hidx⟩ :=
        exists_descent cmp (.node hlen hmax hbelow) key
      have hc : c ∈ children := by rw [hchildren]; simp
      have hatD : dissocChild cmp key children ls.length = btreeDissocNode cmp key c := by
        rw [hchildren, ← hL, dissocChild_at]
      have hatE : emptiesLoneChildAt cmp key children ls.length = emptiesLoneChild cmp key c := by
        rw [hchildren, ← hL, emptiesLoneChildAt_at]
      have hchild := ih c hc (hbelow c hc)
      rw [btreeDissocNode, emptiesLoneChild, Bool.or_eq_false_iff]
      simp only [hidx, hatD, hatE, Option.bind_eq_bind]
      cases hres : btreeDissocNode cmp key c with
      | none =>
        rw [hres] at hchild
        simpa using fun _ => hchild
      | some r =>
        obtain ⟨newChild, old⟩ := r
        rw [hres] at hchild
        obtain ⟨hnone, hfound⟩ := dissoc_eq_none_iff (hbelow c hc) hres
        rw [← hchild]
        simp only [Option.bind_some, Option.isSome_some, and_true]
        -- the head of the children is `c` where there is no routing key
        have hhead : keys = [] → children.head? = some c := by
          rintro rfl
          obtain ⟨rfl, rfl⟩ := List.append_eq_nil_iff.mp hkeys.symm
          rw [hchildren, List.length_eq_zero_iff.mp hL]
          rfl
        cases newChild with
        | some c' =>
          have hnot : empties cmp key c = false := by
            rw [← Bool.not_eq_true, ← hnone]
            exact Option.some_ne_none c'
          have hcond : (keys.isEmpty && children.head?.any (empties cmp key)) = false := by
            cases keys with
            | nil => rw [hhead rfl, Option.any_some, hnot, Bool.and_false]
            | cons k ks => rfl
          cases old <;> simp [hcond, dissocParent]
        | none =>
          have hempties : empties cmp key c = true := hnone.mp rfl
          obtain ⟨v, rfl⟩ := Option.isSome_iff_exists.mp (hfound rfl)
          cases keys with
          | nil => simp [dissocParent, removeAt, hhead rfl, hempties]
          | cons k ks => simp [dissocParent, removeAt]

end Completion

/-! ## §2 Emptying -/

section Emptying

variable (cmp : κ → κ → Ordering)

/-- `btree-dissoc-node` on a root, which may be `nil`; the outer `none` is an error. -/
def dissocRoot (root : Option (BTree κ ν)) (key : κ) : Option (Option (BTree κ ν)) :=
  match root with
  | none => some none
  | some t => (btreeDissocNode cmp key t).map (·.1)

/-- Keys removed one after the other. -/
def dissocAll (root : Option (BTree κ ν)) (keys : List κ) : Option (Option (BTree κ ν)) :=
  keys.foldlM (dissocRoot cmp) root

def BTree.isLeaf : BTree κ ν → Bool
  | .leaf _ _ => true
  | .node _ _ => false

variable {cmp}

theorem dissocAll_cons (root : Option (BTree κ ν)) (key : κ) (keys : List κ) :
    dissocAll cmp root (key :: keys) = (dissocRoot cmp root key).bind fun root' =>
    dissocAll cmp root' keys := by
  rw [dissocAll, List.foldlM_cons]
  rfl

/-- A node stays one. -/
theorem dissocAll_node {depth : Nat} {t : BTree κ ν} (h : t.Shape (depth + 1)) {keys : List κ}
    {root : Option (BTree κ ν)} (hall : dissocAll cmp (some t) keys = some root) :
    ∃ t', root = some t' ∧ t'.Shape (depth + 1) := by
  induction keys generalizing t with
  | nil =>
    cases hall
    exact ⟨t, rfl, h⟩
  | cons key keys ih =>
    rw [dissocAll_cons] at hall
    obtain ⟨root₁, hroot₁, hall⟩ := Option.bind_eq_some_iff.mp hall
    obtain ⟨r, hr, rfl⟩ := Option.map_eq_some_iff.mp hroot₁
    cases hr₁ : r.1 with
    | none =>
      have hempties := (dissoc_eq_none_iff h hr).1.mp hr₁
      cases h with
      | node => cases hempties
    | some t₁ =>
      rw [hr₁] at hall
      exact ih (dissoc_shape cmp h hr t₁ hr₁) hall

variable [TransCmp cmp]

/-- The key of a leaf is found where it stands. -/
theorem leaf_search {keys : List κ} (hs : keys.Pairwise fun a b => cmp a b = .lt) {key : κ}
    (hk : key ∈ keys) :
    ∃ ls rs, keys = ls ++ key :: rs ∧ bsearchKeys cmp keys key = ls.length ∧
      hit cmp keys key ls.length = true := by
  have hself : cmp key key = .eq := ReflCmp.compare_self
  obtain ⟨ls, rs, rfl, hidx, hls, hrs⟩ := bsearchKeys_split cmp hs key
  have hmem : key ∈ rs := by
    rcases List.mem_append.mp hk with hk | hk
    · have hgt := hls key hk
      rw [hself] at hgt
      cases hgt
    · exact hk
  cases rs with
  | nil => simp at hmem
  | cons s rs =>
    have hsk : s = key := by
      rcases List.mem_cons.mp hmem with rfl | hmem
      · rfl
      · have hlt := (List.pairwise_cons.mp (List.pairwise_append.mp hs).2.1).1 key hmem
        have hle := hrs s (by simp)
        rw [OrientedCmp.gt_of_lt hlt] at hle
        cases hle
    subst hsk
    refine ⟨ls, rs, rfl, hidx, ?_⟩
    rw [hit_split, List.head?_cons, Option.any_some, hself]
    rfl

/-- A leaf loses all of its keys in any order. -/
theorem dissocAll_leaf {keys : List κ} {vals : List ν} (hs : keys.Pairwise fun a b => cmp a b = .lt)
    (hlen : vals.length = keys.length) (hpos : keys ≠ []) {order : List κ}
    (hperm : order.Perm keys) :
    dissocAll cmp (some (.leaf keys vals)) order = some none := by
  induction order generalizing keys vals with
  | nil => exact absurd hperm.nil_eq.symm hpos
  | cons key order ih =>
    obtain ⟨ls, rs, rfl, hidx, hhit⟩ := leaf_search hs (hperm.subset List.mem_cons_self)
    have hrest : order.Perm (ls ++ rs) := (hperm.trans List.perm_middle).cons_inv
    have hvals : vals ≠ [] := by
      rintro rfl
      simp at hlen
    have herase : (ls ++ key :: rs).eraseIdx ls.length = ls ++ rs := by
      simp [List.eraseIdx_append_of_length_le]
    rw [dissocAll_cons, dissocRoot, btreeDissocNode]
    simp only [hidx, hhit, if_true, removeAt_eq_some hpos, removeAt_eq_some hvals, herase,
      Option.bind_eq_bind, Option.bind_some]
    split
    · next hzero =>
      rw [List.length_eq_zero_iff.mp hzero] at hrest
      rw [hrest.eq_nil]
      rfl
    · next hne =>
      refine ih ?_ ?_ (by simpa using hne) hrest
      · exact hs.sublist (by simp)
      · rw [List.length_eraseIdx_of_lt (by rw [hlen]; simp), hlen]
        simp

end Emptying

/-! ## §3 Runs -/

section Runs

variable {cmp : κ → κ → Ordering} {isNil : κ → Bool} {d d' : BTreeDict κ ν}

/-- The keys of a root that is a leaf are different, and in order. -/
def LeafSorted (cmp : κ → κ → Ordering) (d : BTreeDict κ ν) : Prop :=
  ∀ keys vals, d.root = some (.leaf keys vals) → keys.Pairwise fun a b => cmp a b = .lt

theorem step_leafSorted [TransCmp cmp] (h : Shaped d) (hl : LeafSorted cmp d) {op : Op κ ν}
    (hstep : step cmp isNil d op = some d') : LeafSorted cmp d' := by
  intro keys vals hroot'
  cases op with
  | bulkLoad pairs =>
    cases hstep
    obtain ⟨unique, hload, hs, -⟩ := unique_sorted cmp pairs
    rw [hload] at hroot'
    exact ((buildBottomUp_spec hs).1 _ hroot').2.2
  | assoc key val =>
    cases hstep
    unfold sortedDictAssoc at hroot'
    cases hroot : d.root with
    | none =>
      rw [hroot] at hroot'
      cases hroot'
      exact List.pairwise_singleton _ _
    | some root =>
      simp only [hroot] at hroot'
      split at hroot'
      · obtain ⟨depth, hdepth⟩ := h root hroot
        have hshape := (assoc_shape cmp isNil hdepth key val).1
        obtain hnode := Option.some.inj hroot'
        rw [hnode] at hshape
        cases hshape with
        | leaf _ _ _ =>
          cases hdepth with
          | @leaf keys₀ vals₀ hlen hpos _ =>
            have hwf : (BTree.leaf keys₀ vals₀).Wf cmp :=
              ⟨List.ne_nil_of_length_pos hpos, hlen.symm, hl keys₀ vals₀ hroot⟩
            have hspec :
              AssocSpec cmp key val _ (btreeAssocNode cmp isNil key val (.leaf keys₀ vals₀)) :=
              btreeAssocNode_spec val hwf rfl
            have hnewWf := hspec.wf _ List.mem_cons_self
            rw [hnode] at hnewWf
            exact hnewWf.2.2
      · cases hroot'
  | dissoc key =>
    rcases sortedDictDissoc_root hstep with rfl | ⟨root, r, hroot, hr, hd'⟩
    · exact hl keys vals hroot'
    · obtain ⟨depth, hdepth⟩ := h root hroot
      rw [hd'] at hroot'
      have hshape := dissoc_shape cmp hdepth hr _ hroot'
      have hsub := dissoc_sublist hdepth hr _ hroot'
      cases hshape with
      | leaf _ _ _ =>
        cases hdepth with
        | leaf _ _ _ => exact (hl _ _ hroot).sublist hsub

theorem run_leafSorted [TransCmp cmp] (h : Shaped d) (hl : LeafSorted cmp d) {ops : List (Op κ ν)}
    (hrun : run cmp isNil d ops = some d') : LeafSorted cmp d' := by
  induction ops generalizing d with
  | nil =>
    cases hrun
    exact hl
  | cons op ops ih =>
    obtain ⟨d₁, hstep, hrun⟩ := Option.bind_eq_some_iff.mp hrun
    exact ih (step_shaped h hstep) (step_leafSorted h hl hstep) hrun

/-- On a root that bulk loads, insertions and removals lead to, a removal completes exactly when no
node on its path loses its only child to it; and removing all keys one after the other, in whatever
order, ends in the empty tree exactly when the root is no node. -/
theorem removal_total_iff (cmp : κ → κ → Ordering) (isNil : κ → Bool) (ops : List (Op κ ν))
    (hrun : run cmp isNil {} ops = some d) :
    (∀ key, (dissocRoot cmp d.root key).isSome ↔ d.root.any (emptiesLoneChild cmp key) = false) ∧
      (TransCmp cmp → ∀ order : List κ, order.Perm ((rootEntries d.root).map Prod.fst) →
        (dissocAll cmp d.root order = some none ↔ d.root.all BTree.isLeaf = true)) := by
  have hshaped := run_shaped shaped_empty hrun
  constructor
  · intro key
    cases hroot : d.root with
    | none => simp [dissocRoot]
    | some t =>
      obtain ⟨depth, hdepth⟩ := hshaped t hroot
      rw [dissocRoot, Option.isSome_map, dissoc_completes_iff hdepth, Option.any_some]
  · intro htrans order hperm
    have hleaf : LeafSorted cmp d := run_leafSorted shaped_empty (by simp [LeafSorted]) hrun
    cases hroot : d.root with
    | none =>
      rw [hroot] at hperm
      rw [hperm.eq_nil]
      simp [dissocAll]
    | some t =>
      obtain ⟨depth, hdepth⟩ := hshaped t hroot
      rw [hroot] at hperm
      cases hdepth with
      | @leaf keys vals hlen hpos _ =>
        have hkeys : (keys.zip vals).map Prod.fst = keys :=
          List.map_fst_zip (Nat.le_of_eq hlen.symm)
        simp only [rootEntries, Option.elim_some, entries_leaf, hkeys] at hperm
        simp [dissocAll_leaf (hleaf keys vals hroot) hlen (List.ne_nil_of_length_pos hpos) hperm,
          BTree.isLeaf]
      | node hlen hmax hbelow =>
        simp only [Option.all_some, BTree.isLeaf, Bool.false_eq_true, iff_false]
        intro hall
        obtain ⟨t', ht', -⟩ := dissocAll_node (.node hlen hmax hbelow) hall
        cases ht'

end Runs

/-- The two leaves of the keys 1 to 33. -/
theorem removal_total_iff_small :
    ∃ d, run compare (fun _ => false) {} splittingRun = some d ∧
      (∀ key : Nat, (dissocRoot compare d.root key).isSome ↔
        d.root.any (emptiesLoneChild compare key : BTree Nat Nat → Bool) = false) ∧
      ∀ order : List Nat, order.Perm ((rootEntries d.root).map Prod.fst) →
        (dissocAll compare d.root order = some none ↔ d.root.all BTree.isLeaf = true) := by
  obtain ⟨d, hd⟩ := Option.isSome_iff_exists.mp
    (show (run compare (fun _ => false) ({} : BTreeDict Nat Nat) splittingRun).isSome by
      decide +kernel)
  have htotal := removal_total_iff compare (fun _ => false) _ hd
  exact ⟨d, hd, htotal.1, htotal.2 inferInstance⟩

/-- Of the keys 1 to 33, in two leaves, 1 to 32 can be removed; the left leaf is gone after 16, the
node has no routing key then, and the removal of 33 signals an error. -/
theorem removal_not_total :
    (run compare (fun _ => false) {} (splittingRun ++ (List.range' 1 32).map .dissoc)).map
        (fun d => (dissocRoot compare d.root 33).isSome) = some false ∧
      (run compare (fun _ => false) {} splittingRun).map
        (fun d => (dissocAll compare d.root (List.range' 1 33)).isSome) = some false := by
  decide +kernel

end Fol.SortedDict
