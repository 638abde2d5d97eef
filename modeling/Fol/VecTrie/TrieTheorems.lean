/-
Fol.VecTrie.TrieTheorems — the tree part of the vector as a list of leaves.

`Holds h t ls` says that the node `t`, `h` levels above the leaves, stores the
leaves `ls` from left to right: the subtree in slot `j` stores chunk `j` of width
`32 ^ h`. Reading, pushing a leaf and replacing an element then act on `ls` as
list operations. The shapes the bulk builders and `conj` make both satisfy it, a
single leaf at shift 0 as well as a single leaf under a shift-5 root.
-/
import Fol.Lib.Chunks
import Fol.VecTrie.Vector

namespace Fol.VecTrie

open Lib

variable {α : Type}

/-! ## §1 The shape invariant -/

/-- The node stores the leaves `ls`, `h` levels below it at the bottom. A slot
without leaves is NIL where `push-tail` tests it, which it does above level 1. -/
def Holds : Nat → Slot α → List (List α) → Prop
  | 0, t, ls => ∃ l, t = .leaf l ∧ ls = [l]
  | h + 1, t, ls => ∃ slots, t = .node slots ∧ slots.length = 32 ∧ ls.length ≤ 32 ^ (h + 1) ∧
      ∀ j s, slots[j]? = some s →
        (chunkOf (32 ^ h) j ls ≠ [] → Holds h s (chunkOf (32 ^ h) j ls)) ∧
        (chunkOf (32 ^ h) j ls = [] → h ≠ 0 → s = .nil)

/-- What a slot must be to stand for the leaves `c`. -/
def SlotHolds (h : Nat) (s : Slot α) (c : List (List α)) : Prop :=
  (c ≠ [] → Holds h s c) ∧ (c = [] → h ≠ 0 → s = .nil)

theorem holds_succ_iff {h : Nat} {t : Slot α} {ls : List (List α)} :
    Holds (h + 1) t ls ↔ ∃ slots, t = .node slots ∧ slots.length = 32 ∧
      ls.length ≤ 32 ^ (h + 1) ∧
      ∀ j s, slots[j]? = some s → SlotHolds h s (chunkOf (32 ^ h) j ls) := Iff.rfl

theorem Holds.length_le {h : Nat} {t : Slot α} {ls : List (List α)} (H : Holds h t ls) :
    ls.length ≤ 32 ^ h := by
  cases h with
  | zero =>
    obtain ⟨l, -, rfl⟩ := H
    exact le_rfl
  | succ h =>
    obtain ⟨slots, -, -, hle, -⟩ := H
    exact hle

theorem pow_pos' (h : Nat) : 0 < 32 ^ h := Nat.pow_pos (by decide)

theorem two_pow_level (h : Nat) : 2 ^ (5 * h) = 32 ^ h := by
  rw [Nat.pow_mul]

/-- The slot on the way to leaf number `index / 32`, within a tree of height
`h + 1`. -/
theorem slot_index (index h : Nat) :
    (index >>> (5 * (h + 1))) &&& bitMask = index / 32 % 32 ^ (h + 1) / 32 ^ h := by
  rw [shiftRight_and_bitMask, two_pow_level, Nat.pow_succ, Nat.mod_mul_right_div_self,
    Nat.div_div_eq_div_mul, Nat.mul_comm 32]

theorem mod_level (m h : Nat) : m % 32 ^ (h + 1) % 32 ^ h = m % 32 ^ h :=
  Nat.mod_mod_of_dvd _ (Nat.pow_dvd_pow 32 (Nat.le_succ h))

theorem slot_lt {m h : Nat} (hm : m < 32 ^ (h + 1)) : m / 32 ^ h < 32 := by
  rw [Nat.div_lt_iff_lt_mul (pow_pos' h), Nat.mul_comm, ← Nat.pow_succ]
  exact hm

/-- A leaf number inside the list lies in a slot that is not empty. -/
theorem chunk_ne_nil {h m : Nat} {ls : List (List α)} (hm : m < ls.length) :
    chunkOf (32 ^ h) (m / 32 ^ h) ls ≠ [] := by
  intro hnil
  rw [chunkOf_eq_nil_iff (pow_pos' h)] at hnil
  have := Nat.div_mul_le_self m (32 ^ h)
  omega

theorem getElem?_chunk (h m : Nat) (ls : List (List α)) :
    (chunkOf (32 ^ h) (m / 32 ^ h) ls)[m % 32 ^ h]? = ls[m]? := by
  rw [getElem?_chunkOf (Nat.mod_lt _ (pow_pos' h)), div_mul_add_mod]

/-- Leaf number `index / 32` seen from the root is the one seen from its slot. -/
theorem getElem?_level (h index : Nat) (ls : List (List α)) :
    (chunkOf (32 ^ h) (index / 32 % 32 ^ (h + 1) / 32 ^ h) ls)[index / 32 % 32 ^ h]? =
      ls[index / 32 % 32 ^ (h + 1)]? := by
  have hget := getElem?_chunk h (index / 32 % 32 ^ (h + 1)) ls
  rw [mod_level] at hget
  exact hget

theorem chunk_lt_length {h m : Nat} {ls : List (List α)} (hm : m < ls.length) :
    m % 32 ^ h < (chunkOf (32 ^ h) (m / 32 ^ h) ls).length := by
  have hget := getElem?_chunk h m ls
  rw [List.getElem?_eq_getElem hm] at hget
  exact (List.getElem?_eq_some_iff.mp hget).1

/-- A node of positive height has a child for every slot number. -/
theorem exists_slot {slots : List (Slot α)} (hlen : slots.length = 32) {j : Nat} (hj : j < 32) :
    ∃ s, slots[j]? = some s :=
  ⟨_, List.getElem?_eq_getElem (by omega)⟩

/-! ## §2 Reading -/

/-- Walking down with `index` ends in leaf number `index / 32`. -/
theorem descend_holds {h : Nat} {t : Slot α} {ls : List (List α)} (H : Holds h t ls) {index : Nat}
    (hm : index / 32 % 32 ^ h < ls.length) :
    ∃ l, descend (5 * h) index t = some (.leaf l) ∧ ls[index / 32 % 32 ^ h]? = some l := by
  induction h generalizing t ls with
  | zero =>
    obtain ⟨l, rfl, rfl⟩ := H
    unfold descend
    exact ⟨l, if_pos (by decide), by simp [Nat.mod_one]⟩
  | succ h ih =>
    obtain ⟨slots, rfl, hlen, hle, hslots⟩ := holds_succ_iff.mp H
    have hj := slot_lt (Nat.mod_lt (index / 32) (pow_pos' (h + 1)))
    obtain ⟨s, hs⟩ := exists_slot hlen hj
    have hchild := (hslots _ s hs).1 (chunk_ne_nil hm)
    have hlt := chunk_lt_length (h := h) hm
    rw [mod_level] at hlt
    obtain ⟨l, hdesc, hl⟩ := ih hchild hlt
    refine ⟨l, ?_, ?_⟩
    · rw [descend, if_neg (by rw [bitShift]; omega)]
      simp only [slot_index, hs, Option.bind_some]
      exact hdesc
    · rw [getElem?_level] at hl
      exact hl

/-! ## §3 Pushing a leaf -/

theorem slotHolds_nil {h : Nat} : SlotHolds h (.nil : Slot α) [] :=
  ⟨fun hne => absurd rfl hne, fun _ _ => rfl⟩

theorem chunkOf_singleton {h j : Nat} (l : List α) (hj : j ≠ 0) : chunkOf (32 ^ h) j [l] = [] := by
  rw [chunkOf_eq_nil_iff (pow_pos' h), List.length_singleton]
  exact Nat.mul_pos (Nat.pos_of_ne_zero hj) (pow_pos' h)

theorem newPath_holds (h : Nat) (l : List α) : Holds h (newPath (5 * h) (.leaf l)) [l] := by
  induction h with
  | zero =>
    rw [newPath]
    exact ⟨l, rfl, rfl⟩
  | succ h ih =>
    rw [newPath, if_neg (by omega)]
    refine holds_succ_iff.mpr ⟨_, rfl, by simp, pow_pos' _, fun j s hs => ?_⟩
    cases j with
    | zero =>
      cases hs
      rw [chunkOf_zero_self (pow_pos' h)]
      exact ⟨fun _ => ih, fun hnil => absurd hnil (List.cons_ne_nil l [])⟩
    | succ j =>
      rw [List.getElem?_cons_succ, List.getElem?_replicate] at hs
      rw [chunkOf_singleton l (Nat.succ_ne_zero j)]
      split at hs
      · cases hs
        exact slotHolds_nil
      · cases hs

/-- Replacing the slot that changes keeps the others. -/
theorem holds_set {h j : Nat} {slots : List (Slot α)} {ls ls' : List (List α)} {s : Slot α}
    (hlen : slots.length = 32) (hle : ls'.length ≤ 32 ^ (h + 1))
    (hslots : ∀ j s, slots[j]? = some s → SlotHolds h s (chunkOf (32 ^ h) j ls))
    (hother : ∀ i, i ≠ j → chunkOf (32 ^ h) i ls' = chunkOf (32 ^ h) i ls)
    (hs : SlotHolds h s (chunkOf (32 ^ h) j ls')) :
    Holds (h + 1) (.node (slots.set j s)) ls' := by
  refine holds_succ_iff.mpr ⟨_, rfl, by simpa using hlen, hle, fun i s' hi => ?_⟩
  by_cases hij : i = j
  · subst hij
    rw [List.getElem?_set_self'] at hi
    cases hold : slots[i]? with
    | none => rw [hold] at hi; cases hi
    | some old =>
      rw [hold] at hi
      cases hi
      exact hs
  · rw [List.getElem?_set_ne (Ne.symm hij)] at hi
    rw [hother i hij]
    exact hslots i s' hi

theorem pushTail_holds {h : Nat} {t : Slot α} {ls : List (List α)} (H : Holds (h + 1) t ls)
    (hlt : ls.length < 32 ^ (h + 1)) {idx : Nat} (hidx : idx / 32 % 32 ^ (h + 1) = ls.length)
    (l : List α) :
    Holds (h + 1) (pushTail (5 * (h + 1)) t idx (.leaf l)) (ls ++ [l]) := by
  induction h generalizing t ls with
  | zero =>
    obtain ⟨slots, rfl, hlen, hle, hslots⟩ := holds_succ_iff.mp H
    rw [pushTail, if_pos (by decide), slot_index, hidx]
    refine holds_set hlen (by simpa using Nat.succ_le_of_lt hlt) hslots
      (fun i hi => chunkOf_concat_other ls l hi) ?_
    rw [chunkOf_concat_same (pow_pos' 0)]
    refine ⟨fun _ => ⟨l, rfl, ?_⟩, fun hnil => absurd hnil (by simp)⟩
    rw [(chunkOf_eq_nil_iff (pow_pos' 0) _ _).mpr (by simp)]
    rfl
  | succ h ih =>
    obtain ⟨slots, rfl, hlen, hle, hslots⟩ := holds_succ_iff.mp H
    obtain ⟨s, hs⟩ := exists_slot hlen (slot_lt hlt)
    have hslot := hslots _ s hs
    have hmod : idx / 32 % 32 ^ (h + 1) = ls.length % 32 ^ (h + 1) := by rw [← hidx, mod_level]
    have hclen : (chunkOf (32 ^ (h + 1)) (ls.length / 32 ^ (h + 1)) ls).length =
        ls.length % 32 ^ (h + 1) := by
      have hdm := div_mul_add_mod (32 ^ (h + 1)) ls.length
      have hml := Nat.mod_lt ls.length (pow_pos' (h + 1))
      rw [length_chunkOf]
      omega
    -- the child to put into the slot, whichever way `push-tail` obtains it
    have key : ∀ s', SlotHolds (h + 1) s'
        (chunkOf (32 ^ (h + 1)) (ls.length / 32 ^ (h + 1)) ls ++ [l]) →
        Holds (h + 1 + 1) (.node (slots.set (ls.length / 32 ^ (h + 1)) s')) (ls ++ [l]) := by
      intro s' hs'
      refine holds_set hlen (by simpa using Nat.succ_le_of_lt hlt) hslots
        (fun i hi => chunkOf_concat_other ls l hi) ?_
      rw [chunkOf_concat_same (pow_pos' _)]
      exact hs'
    have hconcat : ∀ s', Holds (h + 1) s'
        (chunkOf (32 ^ (h + 1)) (ls.length / 32 ^ (h + 1)) ls ++ [l]) →
        SlotHolds (h + 1) s' (chunkOf (32 ^ (h + 1)) (ls.length / 32 ^ (h + 1)) ls ++ [l]) :=
      fun s' hs' => ⟨fun _ => hs', fun hnil => absurd hnil (by simp)⟩
    rw [pushTail, if_neg (by rw [bitShift]; omega)]
    simp only [slot_index, hidx, hs]
    by_cases hnil : chunkOf (32 ^ (h + 1)) (ls.length / 32 ^ (h + 1)) ls = []
    · rw [hslot.2 hnil (Nat.succ_ne_zero h)]
      refine key _ (hconcat _ ?_)
      rw [hnil]
      exact newPath_holds (h + 1) l
    · have hchild := hslot.1 hnil
      obtain ⟨cs, rfl, -⟩ := holds_succ_iff.mp hchild
      refine key _ (hconcat _ ?_)
      exact ih hchild (by rw [hclen]; exact Nat.mod_lt _ (pow_pos' _)) (by rw [hmod, hclen])

/-- Tree of a vector: no leaf and an empty root array, or a root that holds the
leaves at the height the shift says. Every leaf is full. -/
structure Tree (shift : Nat) (root : Slot α) (ls : List (List α)) : Prop where
  blocks : Blocks 32 ls
  shape : (ls = [] ∧ root = .node []) ∨ (ls ≠ [] ∧ ∃ h, shift = 5 * h ∧ Holds h root ls)

theorem Tree.empty (shift : Nat) : Tree shift (.node [] : Slot α) [] :=
  ⟨Blocks.nil 32, .inl ⟨rfl, rfl⟩⟩

theorem Holds.root_length {h : Nat} {t : Slot α} {ls : List (List α)} (H : Holds h t ls)
    (hb : Blocks 32 ls) : t.length = 32 := by
  cases h with
  | zero =>
    obtain ⟨l, rfl, rfl⟩ := H
    exact hb l List.mem_cons_self
  | succ h =>
    obtain ⟨slots, rfl, hlen, -⟩ := H
    exact hlen

/-- Once all `32 ^ h` leaves below a root are there, it becomes slot 0 of a new
root. -/
theorem overflow_holds {h : Nat} {t : Slot α} {ls : List (List α)} (H : Holds h t ls)
    (hfull : ls.length = 32 ^ h) (l : List α) :
    Holds (h + 1) (.node (t :: newPath (5 * h) (.leaf l) :: List.replicate 30 .nil))
      (ls ++ [l]) := by
  have hpos := pow_pos' h
  refine holds_succ_iff.mpr ⟨_, rfl, by simp, ?_, fun j s hs => ?_⟩
  · rw [List.length_append, List.length_singleton, hfull, Nat.pow_succ]
    omega
  have hdiv : ls.length / 32 ^ h = 1 := by rw [hfull, Nat.div_self hpos]
  match j with
  | 0 =>
    cases hs
    rw [chunkOf_concat_other ls l (by omega), chunkOf_zero_self hfull.le]
    refine ⟨fun _ => H, fun hnil => ?_⟩
    rw [hnil] at hfull
    exact absurd hfull.symm hpos.ne'
  | 1 =>
    cases hs
    have hnil : chunkOf (32 ^ h) 1 ls = [] := (chunkOf_eq_nil_iff hpos _ _).mpr (by omega)
    have hone := chunkOf_concat_same hpos ls l
    rw [hdiv, hnil, List.nil_append] at hone
    rw [hone]
    exact ⟨fun _ => newPath_holds h l, fun hnil => absurd hnil (List.cons_ne_nil l [])⟩
  | j + 2 =>
    rw [List.getElem?_cons_succ, List.getElem?_cons_succ, List.getElem?_replicate] at hs
    have hnil : chunkOf (32 ^ h) (j + 2) (ls ++ [l]) = [] := by
      rw [chunkOf_eq_nil_iff hpos, List.length_append, List.length_singleton, hfull]
      have : (j + 2) * 32 ^ h = j * 32 ^ h + 2 * 32 ^ h := by ring
      omega
    rw [hnil]
    split at hs
    · cases hs
      exact slotHolds_nil
    · cases hs

/-- The one leaf of a tree that `conj` starts, under a shift-5 root whose other
cells were never assigned. -/
theorem first_leaf_holds (l : List α) :
    Holds 1 (.node (.leaf l :: List.replicate 31 .unset)) [l] := by
  refine holds_succ_iff.mpr ⟨_, rfl, by simp, by simp, fun j s hs => ?_⟩
  cases j with
  | zero =>
    cases hs
    rw [chunkOf_zero_self (pow_pos' 0)]
    exact ⟨fun _ => ⟨l, rfl, rfl⟩, fun hnil => absurd hnil (List.cons_ne_nil l [])⟩
  | succ j =>
    rw [chunkOf_singleton l (Nat.succ_ne_zero j)]
    exact ⟨fun hne => absurd rfl hne, fun _ h0 => absurd rfl h0⟩

/-- Pushing the full tail of a vector of `32 * (ls.length + 1)` elements. -/
theorem pushLeaf_tree {shift cnt : Nat} {root : Slot α} {ls : List (List α)}
    (T : Tree shift root ls) {l : List α} (hl : l.length = 32) (hcnt : cnt = 32 * (ls.length + 1)) :
    Tree (pushLeaf cnt shift root (.leaf l)).1 (pushLeaf cnt shift root (.leaf l)).2
      (ls ++ [l]) := by
  refine ⟨T.blocks.concat hl, .inr ⟨by simp, ?_⟩⟩
  rw [pushLeaf]
  rcases T.shape with ⟨rfl, rfl⟩ | ⟨hne, h, rfl, H⟩
  · exact ⟨1, rfl, first_leaf_holds l⟩
  · have hlen := H.root_length T.blocks
    have hle := H.length_le
    have hover : (cnt >>> bitShift > 1 <<< (5 * h)) ↔ 32 ^ h < ls.length + 1 := by
      rw [bitShift, Nat.shiftRight_eq_div_pow, Nat.one_shiftLeft, two_pow_level, hcnt,
        show (2 : Nat) ^ 5 = 32 from rfl, Nat.mul_div_cancel_left _ (by decide)]
    rw [if_neg (by omega)]
    by_cases hfull : 32 ^ h < ls.length + 1
    · rw [if_pos (hover.mpr hfull)]
      exact ⟨h + 1, rfl, overflow_holds H (by omega) l⟩
    · rw [if_neg (mt hover.mp hfull)]
      cases h with
      | zero =>
        obtain ⟨l', rfl, rfl⟩ := H
        exact absurd (by simp) hfull
      | succ h =>
        refine ⟨h + 1, rfl, pushTail_holds H (by omega) ?_ l⟩
        rw [hcnt, show (32 * (ls.length + 1) - 1) / 32 = ls.length by omega]
        exact Nat.mod_eq_of_lt (by omega)

/-! ## §4 Replacing an element -/

section Assoc

variable [DecidableEq α]

theorem List.set_of_getElem?_eq {β : Type} {xs : List β} {i : Nat} {x : β} (h : xs[i]? = some x) :
    xs.set i x = xs := by
  obtain ⟨hi, rfl⟩ := List.getElem?_eq_some_iff.mp h
  exact List.set_getElem_self hi

/-- `update` sets element `index % 32` of leaf number `index / 32`. -/
theorem update_holds {h : Nat} {t : Slot α} {ls : List (List α)} (H : Holds h t ls) {index : Nat}
    {l : List α} (hl : ls[index / 32 % 32 ^ h]? = some l) (newVal : α) :
    Holds h ((update (5 * h) index newVal t).getD t)
      (ls.set (index / 32 % 32 ^ h) (l.set (index % 32) newVal)) := by
  induction h generalizing t ls with
  | zero =>
    obtain ⟨l', rfl, rfl⟩ := H
    rw [Nat.pow_zero, Nat.mod_one] at hl ⊢
    cases hl
    rw [update, if_pos (by decide)]
    simp only [and_bitMask]
    by_cases hold : l[index % 32]? = some newVal
    · rw [if_pos hold, List.set_of_getElem?_eq hold]
      exact ⟨l, rfl, rfl⟩
    · rw [if_neg hold]
      exact ⟨_, rfl, rfl⟩
  | succ h ih =>
    obtain ⟨slots, rfl, hlen, hle, hslots⟩ := holds_succ_iff.mp H
    have hm := (List.getElem?_eq_some_iff.mp hl).1
    obtain ⟨s, hs⟩ := exists_slot hlen (slot_lt (Nat.mod_lt (index / 32) (pow_pos' (h + 1))))
    have hchild := (hslots _ s hs).1 (chunk_ne_nil hm)
    have hnew := ih hchild (by rw [getElem?_level]; exact hl)
    have hset : Holds (h + 1) (.node (slots.set (index / 32 % 32 ^ (h + 1) / 32 ^ h)
        ((update (5 * h) index newVal s).getD s)))
        (ls.set (index / 32 % 32 ^ (h + 1)) (l.set (index % 32) newVal)) := by
      refine holds_set hlen (by rw [List.length_set]; exact hle) hslots
        (fun i hi => chunkOf_set_other ls _ hi) ?_
      rw [chunkOf_set_same _ _ _ (pow_pos' h), mod_level]
      refine ⟨fun _ => hnew, fun hnil => ?_⟩
      have := congrArg List.length hnil
      rw [List.length_set] at this
      exact absurd (List.length_eq_zero_iff.mp this) (chunk_ne_nil hm)
    rw [update, if_neg (by rw [bitShift]; omega)]
    simp only [slot_index, hs]
    rw [show 5 * (h + 1) - bitShift = 5 * h from rfl]
    cases hupd : update (5 * h) index newVal s with
    | none =>
      rw [hupd, Option.getD_none, List.set_of_getElem?_eq hs] at hset
      exact hset
    | some s' =>
      rw [hupd] at hset
      exact hset

end Assoc

/-! ## §5 Building bottom-up -/

/-- A level of the builders: node `j` holds chunk `j`, and no chunk is missing. -/
structure Level (h : Nat) (nodes : List (Slot α)) (ls : List (List α)) : Prop where
  holds : ∀ j s, nodes[j]? = some s → Holds h s (chunkOf (32 ^ h) j ls)
  covers : ls.length ≤ nodes.length * 32 ^ h
  tight : ∀ j, j < nodes.length → j * 32 ^ h < ls.length

theorem packLevel_getElem? (nodes : List (Slot α)) (j : Nat) :
    (packLevel nodes)[j]? =
      if j * 32 < nodes.length then some (internalNode (chunkOf 32 j nodes)) else none := by
  induction nodes using packLevel.induct generalizing j with
  | case1 => simp [packLevel]
  | case2 n ns ih =>
    rw [packLevel]
    cases j with
    | zero => simp [chunkOf]
    | succ j =>
      rw [List.getElem?_cons_succ, ih, List.length_drop, chunkOf, chunkOf, List.drop_drop]
      have harg : 32 + j * 32 = (j + 1) * 32 := by ring
      rw [harg]
      by_cases hj : (j + 1) * 32 < (n :: ns).length
      · rw [if_pos hj, if_pos (by omega)]
      · rw [if_neg hj, if_neg (by omega)]

/-- An inner node padded with NIL holds the leaves of its children. -/
theorem internalNode_holds {h : Nat} {children : List (Slot α)} {ls : List (List α)}
    (hlen : children.length ≤ 32)
    (hch : ∀ i s, children[i]? = some s → Holds h s (chunkOf (32 ^ h) i ls))
    (hcover : ls.length ≤ children.length * 32 ^ h)
    (htight : ∀ i, i < children.length → i * 32 ^ h < ls.length) :
    Holds (h + 1) (internalNode children) ls := by
  refine holds_succ_iff.mpr ⟨_, rfl, by simp; omega, ?_, fun i s hs => ?_⟩
  · calc ls.length ≤ children.length * 32 ^ h := hcover
      _ ≤ 32 * 32 ^ h := Nat.mul_le_mul_right _ hlen
      _ = 32 ^ (h + 1) := by rw [Nat.pow_succ]; ring
  by_cases hi : i < children.length
  · rw [List.getElem?_append_left hi] at hs
    refine ⟨fun _ => hch i s hs, fun hnil => ?_⟩
    rw [chunkOf_eq_nil_iff (pow_pos' h)] at hnil
    exact absurd (htight i hi) (by omega)
  · rw [List.getElem?_append_right (by omega), List.getElem?_replicate] at hs
    have hnil : chunkOf (32 ^ h) i ls = [] := by
      rw [chunkOf_eq_nil_iff (pow_pos' h)]
      exact hcover.trans (Nat.mul_le_mul_right _ (by omega))
    rw [hnil]
    split at hs
    · cases hs
      exact slotHolds_nil
    · cases hs

/-- One round of the loop goes up one level. -/
theorem packLevel_level {h : Nat} {nodes : List (Slot α)} {ls : List (List α)}
    (L : Level h nodes ls) : Level (h + 1) (packLevel nodes) ls := by
  have hwidth : ∀ j, j * 32 ^ (h + 1) = j * 32 * 32 ^ h := by
    intro j
    rw [Nat.pow_succ]
    ring
  have hchunk : ∀ j i, i < 32 →
      chunkOf (32 ^ h) i (chunkOf (32 ^ (h + 1)) j ls) = chunkOf (32 ^ h) (j * 32 + i) ls := by
    intro j i hi
    rw [Nat.pow_succ, Nat.mul_comm (32 ^ h) 32]
    exact chunkOf_chunkOf hi j ls
  constructor
  · intro j s hs
    rw [packLevel_getElem?] at hs
    split at hs
    · next hj =>
      cases hs
      have hlen : (chunkOf 32 j nodes).length = min 32 (nodes.length - j * 32) :=
        length_chunkOf 32 j nodes
      have hlsl : (chunkOf (32 ^ (h + 1)) j ls).length =
          min (32 ^ (h + 1)) (ls.length - j * 32 ^ (h + 1)) := length_chunkOf _ j ls
      refine internalNode_holds (by omega) (fun i s hs => ?_) ?_ fun i hi => ?_
      · have hi : i < 32 := by
          have := (List.getElem?_eq_some_iff.mp hs).1
          omega
        rw [getElem?_chunkOf hi] at hs
        rw [hchunk j i hi]
        exact L.holds _ s hs
      · rw [hlsl, hlen, hwidth]
        have hcov := L.covers
        rcases Nat.le_total 32 (nodes.length - j * 32) with hge | hge
        · rw [Nat.min_eq_left hge]
          refine (Nat.min_le_left _ _).trans (le_of_eq ?_)
          rw [Nat.pow_succ, Nat.mul_comm]
        · rw [Nat.min_eq_right hge, Nat.sub_mul]
          exact (Nat.min_le_right _ _).trans (Nat.sub_le_sub_right hcov _)
      · have hi32 : i < 32 := by omega
        have htight := L.tight (j * 32 + i) (by omega)
        rw [hlsl, hwidth]
        rw [Nat.add_mul] at htight
        have hlt : i * 32 ^ h < 32 ^ (h + 1) := by
          rw [Nat.pow_succ, Nat.mul_comm (32 ^ h)]
          exact Nat.mul_lt_mul_of_pos_right hi32 (pow_pos' h)
        omega
    · cases hs
  · rw [length_packLevel, hwidth]
    exact L.covers.trans (Nat.mul_le_mul_right _ (by omega))
  · intro j hj
    rw [length_packLevel] at hj
    rw [hwidth]
    exact L.tight _ (by omega)

/-- The loop ends with one node that holds all leaves, at the shift it counted. -/
theorem buildLevels_holds {h : Nat} {nodes : List (Slot α)} {ls : List (List α)}
    (L : Level h nodes ls) (hne : ls ≠ []) :
    ∃ h' root, buildLevels nodes (5 * h) = ([root], 5 * h') ∧ Holds h' root ls := by
  have hpos : 0 < ls.length := List.length_pos_iff.mpr hne
  induction hn : nodes.length using Nat.strong_induction_on generalizing nodes h with
  | _ n ih =>
    rw [buildLevels]
    by_cases hone : nodes.length ≤ 1
    · rw [if_pos hone]
      match nodes, hone with
      | [], _ =>
        have hcov := L.covers
        rw [List.length_nil, Nat.zero_mul] at hcov
        omega
      | [root], _ =>
        refine ⟨h, root, rfl, ?_⟩
        have hroot := L.holds 0 root rfl
        have hcov := L.covers
        rw [List.length_singleton, Nat.one_mul] at hcov
        rw [chunkOf_zero_self hcov] at hroot
        exact hroot
    · rw [if_neg hone]
      exact ih _ (by rw [length_packLevel]; omega) (packLevel_level L) rfl

/-- The leaves themselves are the level the loop starts from. -/
theorem leaves_level (ls : List (List α)) : Level 0 (ls.map Slot.leaf) ls := by
  constructor
  · intro j s hs
    rw [List.getElem?_map, Option.map_eq_some_iff] at hs
    obtain ⟨l, hl, rfl⟩ := hs
    refine ⟨l, rfl, ?_⟩
    refine List.ext_getElem? fun k => ?_
    cases k with
    | zero =>
      rw [getElem?_chunkOf (by decide), Nat.pow_zero, Nat.mul_one, Nat.add_zero, hl]
      rfl
    | succ k => rw [getElem?_chunkOf_ge (by simp)]; rfl
  · simp
  · intro j hj
    simpa using hj

/-- What the builders return. -/
theorem buildTree_tree {count : Nat} {ls : List (List α)} (hb : Blocks 32 ls) (hne : ls ≠ [])
    (tail : List α) :
    Tree (buildTree count (ls.map Slot.leaf) tail).shift
    (buildTree count (ls.map Slot.leaf) tail).root
      ls := by
  obtain ⟨h, root, hlevels, H⟩ := buildLevels_holds (leaves_level ls) hne
  refine ⟨hb, .inr ⟨hne, h, ?_, ?_⟩⟩
  · rw [buildTree]
    exact congrArg Prod.snd hlevels
  · rw [buildTree]
    simp only [show buildLevels (ls.map Slot.leaf) 0 = ([root], 5 * h) from hlevels]
    exact H

end Fol.VecTrie
