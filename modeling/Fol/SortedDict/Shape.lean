/-
Fol.SortedDict.Shape — depth and fan-out of the B+-tree, over runs of bulk loads, insertions and
completing removals.

No law of the comparator is needed: a search index is at most the number of keys, and every
operation edits the arrays of a node at one index.
-/
import Fol.SortedDict.Runs

namespace Fol.SortedDict

open Lib Std

variable {κ ν : Type}

/-! ## §1 Shape -/

/-- All leaves at the same depth; 1 to 32 keys in a leaf and as many values, 1 to 32 children in a
node and one key fewer. -/
inductive BTree.Shape : Nat → BTree κ ν → Prop where
  | leaf {keys : List κ} {vals : List ν} (vals_length : vals.length = keys.length)
      (pos : 1 ≤ keys.length) (max : keys.length ≤ 32) : Shape 0 (.leaf keys vals)
  | node {depth : Nat} {keys : List κ} {children : List (BTree κ ν)}
      (keys_length : keys.length + 1 = children.length) (max : children.length ≤ 32)
      (below : ∀ c ∈ children, Shape depth c) : Shape (depth + 1) (.node keys children)

section Indices

variable (cmp : κ → κ → Ordering)

theorem bsearchLoop_le (keys : List κ) (key : κ) (fuel low high : Nat) (h : low ≤ high) :
    bsearchLoop cmp keys key fuel low high ≤ high := by
  induction fuel generalizing low high with
  | zero => exact h
  | succ fuel ih =>
    have hmid : (low + high) >>> 1 = (low + high) / 2 := by rw [Nat.shiftRight_eq_div_pow]
    rw [bsearchLoop]
    split
    · dsimp only
      split
      · split
        · exact Nat.le_trans (ih _ _ (by omega)) (by omega)
        · exact ih _ _ (by omega)
      · exact h
    · exact h

theorem bsearchKeys_le (keys : List κ) (key : κ) : bsearchKeys cmp keys key ≤ keys.length :=
  bsearchLoop_le cmp keys key _ 0 _ (Nat.zero_le _)

/-- A node around the child a search descends to. -/
theorem exists_descent {depth : Nat} {keys : List κ} {children : List (BTree κ ν)}
    (h : (BTree.node keys children).Shape (depth + 1)) (key : κ) :
    ∃ ls rs L c R, keys = ls ++ rs ∧ children = L ++ c :: R ∧ L.length = ls.length ∧
      R.length = rs.length ∧ bsearchKeys cmp keys key = ls.length := by
  cases h with
  | node hlen _ _ =>
    have hle := bsearchKeys_le cmp keys key
    generalize bsearchKeys cmp keys key = idx at hle
    have hlt : idx < children.length := by omega
    refine ⟨keys.take idx, keys.drop idx, children.take idx, children[idx], children.drop (idx + 1),
      (List.take_append_drop _ _).symm, ?_, ?_, ?_, ?_⟩
    · rw [← List.drop_eq_getElem_cons hlt, List.take_append_drop]
    · simp only [List.length_take]
      omega
    · simp only [List.length_drop]
      omega
    · simp only [List.length_take]
      omega

end Indices

/-! ### Insertion -/

/-- Both parts of an insertion have the depth of the node. -/
def PartsShape (depth : Nat) (r : AssocResult κ ν) : Prop :=
  r.node.Shape depth ∧ ∀ s ∈ r.split, (s.2).Shape depth

theorem splitLeaf_shape {keys : List κ} {vals : List ν} (hlen : vals.length = keys.length)
    (h33 : keys.length = 33) : PartsShape 0 (splitLeaf keys vals) := by
  constructor
  · exact .leaf (by simp [hlen]) (by simp [h33]) (by simp)
  · intro s hs
    obtain ⟨k, -, rfl⟩ := Option.map_eq_some_iff.mp hs
    exact .leaf (by simp [hlen]) (by simp [h33]) (by simp [h33])

theorem splitNode_shape {depth : Nat} {keys : List κ} {children : List (BTree κ ν)}
    (hlen : keys.length + 1 = children.length) (h33 : children.length = 33)
    (hbelow : ∀ c ∈ children, c.Shape depth) :
    PartsShape (depth + 1) (splitNode keys children) := by
  constructor
  · refine .node (by simp; omega) (by simp) fun c hc => hbelow c (List.mem_of_mem_take hc)
  · intro s hs
    obtain ⟨k, -, rfl⟩ := Option.map_eq_some_iff.mp hs
    exact .node (by simp; omega) (by simp; omega) fun c hc => hbelow c (List.mem_of_mem_drop hc)

theorem length_insertAt {α : Type} {arr : List α} {idx : Nat} (h : idx ≤ arr.length) (val : α) :
    (insertAt arr idx val).length = arr.length + 1 := by
  simp only [insertAt, List.length_append, List.length_cons, List.length_take, List.length_drop]
  omega

section Shape

variable (cmp : κ → κ → Ordering) (isNil : κ → Bool)

theorem assocParent_shape {depth : Nat} {keys ls rs : List κ} {children L R : List (BTree κ ν)}
    {c : BTree κ ν} {r : AssocResult κ ν} (h : (BTree.node keys children).Shape (depth + 1))
    (hkeys : keys = ls ++ rs) (hchildren : children = L ++ c :: R) (hL : L.length = ls.length)
    (hr : PartsShape depth r) :
    PartsShape (depth + 1) (assocParent isNil keys children ls.length r) := by
  cases h with
  | node hlen hmax hbelow =>
    have hset : ∀ d : BTree κ ν, d.Shape depth → ∀ e ∈ children.set ls.length d, e.Shape depth := by
      intro d hd e he
      rcases List.mem_or_eq_of_mem_set he with he | rfl
      · exact hbelow e he
      · exact hd
    have hkept : PartsShape (depth + 1) { node := .node keys (children.set ls.length r.node) } :=
      ⟨.node (by simp [hlen]) (by simpa using hmax) (hset _ hr.1), by simp⟩
    unfold assocParent
    split
    · exact ⟨hkept.1, by simp⟩
    · split
      · exact hkept
      · next splitKey splitRight hfilter =>
        have hright : splitRight.Shape depth := by
          obtain ⟨hs, -⟩ := Option.filter_eq_some_iff.mp hfilter
          exact hr.2 _ hs
        have hnew : children.take ls.length ++ r.node :: splitRight :: children.drop
          (ls.length + 1) =
            L ++ r.node :: splitRight :: R := by
          rw [hchildren, ← hL]
          simp
        have hnewLen : (L ++ r.node :: splitRight :: R).length = children.length + 1 := by
          rw [hchildren]
          simp
          omega
        have hkeysLen := length_insertAt (by rw [hkeys]; simp : ls.length ≤ keys.length) splitKey
        have hall : ∀ e ∈ L ++ r.node :: splitRight :: R, e.Shape depth := by
          intro e he
          simp only [List.mem_append, List.mem_cons] at he
          rcases he with he | rfl | rfl | he
          · exact hbelow e (by rw [hchildren]; simp [he])
          · exact hr.1
          · exact hright
          · exact hbelow e (by rw [hchildren]; simp [he])
        simp only [hnew]
        split
        · next hle => exact ⟨.node (by omega) hle hall, by simp⟩
        · next hgt =>
          rw [bTreeOrder] at hgt
          exact splitNode_shape (by omega) (by omega) hall

/-- An insertion keeps the shape. -/
theorem assoc_shape {depth : Nat} {t : BTree κ ν} (h : t.Shape depth) (key : κ) (val : ν) :
    PartsShape depth (btreeAssocNode cmp isNil key val t) := by
  induction t generalizing depth with
  | leaf keys vals =>
    cases h with
    | leaf hlen hpos hmax =>
      have hle := bsearchKeys_le cmp keys key
      have hk := length_insertAt hle key
      have hv := length_insertAt (by omega : bsearchKeys cmp keys key ≤ vals.length) val
      rw [btreeAssocNode]
      dsimp only
      split
      · exact ⟨.leaf (by simpa using hlen) hpos hmax, by simp⟩
      · split
        · next hle => exact ⟨.leaf (by omega) (by omega) hle, by simp⟩
        · next hgt =>
          rw [bTreeOrder] at hgt
          exact splitLeaf_shape (by omega) (by omega)
  | node keys children ih =>
    cases h with
    | @node d _ _ hlen hmax hbelow =>
      obtain ⟨ls, rs, L, c, R, hkeys, hchildren, hL, -, hidx⟩ :=
        exists_descent cmp (.node hlen hmax hbelow) key
      have hc : c ∈ children := by rw [hchildren]; simp
      have hat : assocChild cmp isNil key val children ls.length =
        some (btreeAssocNode cmp isNil key val c) := by
        rw [hchildren, ← hL, assocChild_at]
      rw [btreeAssocNode]
      simp only [hidx, hat]
      exact assocParent_shape isNil (.node hlen hmax hbelow) hkeys hchildren hL
        (ih c hc (hbelow c hc))

/-! ### Removal -/

theorem length_removeAt {α : Type} {arr arr' : List α} {idx : Nat}
    (h : removeAt arr idx = some arr') (hidx : idx < arr.length) :
    arr'.length + 1 = arr.length ∧ arr' = arr.eraseIdx idx := by
  unfold removeAt at h
  split at h
  · cases h
  · cases h
    refine ⟨?_, rfl⟩
    rw [List.length_eraseIdx_of_lt hidx]
    omega

/-- What a removal leaves of a node, if it completes. -/
theorem dissocParent_shape {depth : Nat} {keys ls rs : List κ} {children : List (BTree κ ν)}
    {newChild newNode : Option (BTree κ ν)} (h : (BTree.node keys children).Shape (depth + 1))
    (hkeys : keys = ls ++ rs) (hnew : ∀ d ∈ newChild, d.Shape depth)
    (hr : dissocParent keys children ls.length newChild = some newNode) :
    ∃ n, newNode = some n ∧ n.Shape (depth + 1) := by
  cases h with
  | node hlen hmax hbelow =>
    cases newChild with
    | some d =>
      cases hr
      refine ⟨_, rfl, .node (by simpa using hlen) (by simpa using hmax) fun e he => ?_⟩
      rcases List.mem_or_eq_of_mem_set he with he | rfl
      · exact hbelow e he
      · exact hnew _ rfl
    | none =>
      obtain ⟨newKeys, hkeys', rfl⟩ := Option.map_eq_some_iff.mp hr
      have hpos : keys.length ≠ 0 := by
        intro h0
        rw [removeAt, if_pos h0] at hkeys'
        cases hkeys'
      have hls : ls.length ≤ keys.length := by rw [hkeys]; simp
      have hlt : (if ls.length = 0 then 0 else ls.length - 1) < keys.length := by
        split <;> omega
      obtain ⟨hkeysLen, -⟩ := length_removeAt hkeys' hlt
      have hchildrenLen : (children.eraseIdx ls.length).length + 1 = children.length := by
        rw [List.length_eraseIdx_of_lt (by omega)]
        omega
      have hne : ¬ (children.eraseIdx ls.length).length = 0 := by omega
      simp only [if_neg hne]
      exact ⟨_, rfl, .node (by omega) (by omega) fun e he => hbelow e (List.mem_of_mem_eraseIdx he)⟩

/-- A completing removal keeps the shape. -/
theorem dissoc_shape {depth : Nat} {t : BTree κ ν} (h : t.Shape depth) {key : κ}
    {r : Option (BTree κ ν) × Option ν} (hr : btreeDissocNode cmp key t = some r) :
    ∀ n ∈ r.1, n.Shape depth := by
  induction t generalizing depth r with
  | leaf keys vals =>
    cases h with
    | leaf hlen hpos hmax =>
      rw [btreeDissocNode] at hr
      split at hr
      · next hhit =>
        have hlt : bsearchKeys cmp keys key < keys.length := by
          by_contra hge
          rw [hit, List.getElem?_eq_none (by omega)] at hhit
          cases hhit
        simp only [Option.bind_eq_bind, Option.bind_eq_some_iff] at hr
        obtain ⟨newKeys, hk, newVals, hv, hr⟩ := hr
        obtain ⟨hkLen, -⟩ := length_removeAt hk hlt
        obtain ⟨hvLen, -⟩ := length_removeAt hv (by omega)
        split at hr
        · cases hr
          simp
        · cases hr
          intro n hn
          cases hn
          exact .leaf (by omega) (by omega) (by omega)
      · cases hr
        intro n hn
        cases hn
        exact .leaf hlen hpos hmax
  | node keys children ih =>
    cases h with
    | @node d _ _ hlen hmax hbelow =>
      obtain ⟨ls, rs, L, c, R, hkeys, hchildren, hL, -, hidx⟩ :=
        exists_descent cmp (.node hlen hmax hbelow) key
      have hc : c ∈ children := by rw [hchildren]; simp
      have hat : dissocChild cmp key children ls.length = btreeDissocNode cmp key c := by
        rw [hchildren, ← hL, dissocChild_at]
      rw [btreeDissocNode] at hr
      simp only [hidx, hat, Option.bind_eq_bind, Option.bind_eq_some_iff] at hr
      obtain ⟨⟨newChild, old⟩, hchild, hr⟩ := hr
      have hnew := ih c hc (hbelow c hc) hchild
      cases old with
      | none =>
        cases hr
        intro n hn
        cases hn
        exact .node hlen hmax hbelow
      | some v =>
        obtain ⟨newNode, hparent, hr⟩ := Option.bind_eq_some_iff.mp hr
        cases hr
        obtain ⟨n, rfl, hn⟩ := dissocParent_shape (.node hlen hmax hbelow) hkeys hnew hparent
        intro m hm
        cases hm
        exact hn

end Shape

/-! ## §2 Bulk load -/

section Load

theorem chunks32_length_le {α : Type} (xs : List α) :
    ∀ c ∈ chunks32 xs, 1 ≤ c.length ∧ c.length ≤ 32 := by
  induction xs using chunks32.induct with
  | case1 => simp [chunks32]
  | case2 x xs ih =>
    rw [chunks32]
    intro c hc
    rcases List.mem_cons.mp hc with rfl | hc
    · simp
    · exact ih c hc

theorem firstKey_isSome {depth : Nat} {t : BTree κ ν} (h : t.Shape depth) :
    (firstKey t).isSome := by
  induction h with
  | @leaf keys vals _ hpos _ =>
    cases keys with
    | nil => simp at hpos
    | cons k keys => rfl
  | @node depth keys children hlen _ _ ih =>
    cases children with
    | nil => simp at hlen
    | cons c cs => exact ih c (by simp)

theorem parentNode_shape {depth : Nat} {children : List (BTree κ ν)}
    (hlen : 1 ≤ children.length ∧ children.length ≤ 32) (h : ∀ c ∈ children, c.Shape depth) :
    (parentNode children).Shape (depth + 1) := by
  have hkeys : (children.tail.filterMap firstKey).length = children.tail.length := by
    refine List.filterMap_length_eq_length.mpr fun c hc => ?_
    exact firstKey_isSome (h c (List.mem_of_mem_tail hc))
  refine .node ?_ hlen.2 h
  rw [hkeys, List.length_tail]
  omega

theorem buildLevels_shape {nodes : List (BTree κ ν)} {depth : Nat}
    (h : ∀ t ∈ nodes, t.Shape depth) :
    ∃ depth', ∀ t ∈ buildLevels nodes, t.Shape depth' := by
  induction nodes using buildLevels.induct generalizing depth with
  | case1 nodes hle =>
    unfold buildLevels
    rw [if_pos hle]
    exact ⟨depth, h⟩
  | case2 nodes hgt ih =>
    unfold buildLevels
    rw [if_neg hgt]
    have hlevel : ∀ t ∈ (chunks32 nodes).map parentNode, t.Shape (depth + 1) := by
      intro t ht
      obtain ⟨c, hc, rfl⟩ := List.mem_map.mp ht
      refine parentNode_shape (chunks32_length_le nodes c hc) fun d hd => h d ?_
      rw [← (chunks32_spec nodes).2]
      exact List.mem_flatten_of_mem hc hd
    exact ih hlevel

theorem buildBottomUp_shape (unique : List (κ × ν)) :
    ∀ t ∈ (buildBottomUp unique).root, ∃ depth, t.Shape depth := by
  unfold buildBottomUp
  split
  · simp
  · intro t ht
    have hleaves :
    ∀ t ∈ (chunks32 unique).map fun chunk => BTree.leaf (chunk.map (·.1)) (chunk.map (·.2)),
        t.Shape 0 := by
      intro t ht
      obtain ⟨c, hc, rfl⟩ := List.mem_map.mp ht
      have hlen := chunks32_length_le unique c hc
      exact .leaf (by simp) (by simpa using hlen.1) (by simpa using hlen.2)
    obtain ⟨depth, hdepth⟩ := buildLevels_shape hleaves
    exact ⟨depth, hdepth t (List.mem_of_mem_head? ht)⟩

end Load

/-! ## §3 Runs -/

section Runs

variable {cmp : κ → κ → Ordering} {isNil : κ → Bool} {d d' : BTreeDict κ ν}

/-- The root of a dict has the shape of a B+-tree. -/
def Shaped (d : BTreeDict κ ν) : Prop := ∀ t ∈ d.root, ∃ depth, t.Shape depth

theorem sortedDictAssoc_shaped (h : Shaped d) (key : κ) (val : ν) :
    Shaped (sortedDictAssoc cmp isNil d key val) := by
  unfold sortedDictAssoc Shaped
  intro t ht
  cases hroot : d.root with
  | none =>
    rw [hroot] at ht
    cases ht
    exact ⟨0, .leaf rfl (by simp) (by simp)⟩
  | some root =>
    obtain ⟨depth, hdepth⟩ := h root hroot
    have hparts := assoc_shape cmp isNil hdepth key val
    simp only [hroot] at ht
    split at ht
    · cases ht
      exact ⟨depth, hparts.1⟩
    · next splitKey splitRight hfilter =>
      cases ht
      obtain ⟨hsplit, -⟩ := Option.filter_eq_some_iff.mp hfilter
      refine ⟨depth + 1, .node (by simp) (by simp) fun c hc => ?_⟩
      rcases List.mem_pair.mp hc with rfl | rfl
      · exact hparts.1
      · exact hparts.2 _ hsplit

theorem sortedDictDissoc_root (h : sortedDictDissoc cmp d key = some d') :
    d' = d ∨ ∃ root r, d.root = some root ∧ btreeDissocNode cmp key root = some r ∧
    d'.root = r.1 := by
  unfold sortedDictDissoc at h
  cases hroot : d.root with
  | none =>
    rw [hroot] at h
    cases h
    exact .inl rfl
  | some root =>
    rw [hroot] at h
    obtain ⟨r, hr, rfl⟩ := Option.map_eq_some_iff.mp h
    split
    · exact .inr ⟨root, r, rfl, hr, rfl⟩
    · exact .inl rfl

theorem step_shaped (h : Shaped d) {op : Op κ ν} (hstep : step cmp isNil d op = some d') :
    Shaped d' := by
  cases op with
  | bulkLoad pairs =>
    cases hstep
    exact buildBottomUp_shape _
  | assoc key val =>
    cases hstep
    exact sortedDictAssoc_shaped h key val
  | dissoc key =>
    rcases sortedDictDissoc_root hstep with rfl | ⟨root, r, hroot, hr, hd'⟩
    · exact h
    · obtain ⟨depth, hdepth⟩ := h root hroot
      intro t ht
      rw [hd'] at ht
      exact ⟨depth, dissoc_shape cmp hdepth hr t ht⟩

theorem run_shaped (h : Shaped d) {ops : List (Op κ ν)} (hrun : run cmp isNil d ops = some d') :
    Shaped d' := by
  induction ops generalizing d with
  | nil =>
    cases hrun
    exact h
  | cons op ops ih =>
    obtain ⟨d₁, hstep, hrun⟩ := Option.bind_eq_some_iff.mp hrun
    exact ih (step_shaped h hstep) hrun

theorem shaped_empty : Shaped ({} : BTreeDict κ ν) := by simp [Shaped]

end Runs

end Fol.SortedDict
