/-
Fol.VecTrie.Bounds — `assoc` on a `<vector>` with any integer for an index.

No caller of `%vec-t-assoc` checks the index. The function compares it with the start of the
tail, and then masks it with 31 at every level, so that an index which is not in range reads
some cell: of the tail if it is too large, of the tree if it is negative. `(safety 0)` lets
such a read leave the array. Where it stays inside, `assoc` returns a vector that differs
from the argument at another index, or not at all.

`vecTAssocAny` is `%vec-t-assoc` on all integers; on the indices in range it is `vecTAssoc`.
-/
import Fol.VecTrie.Refinement

namespace Fol.VecTrie

open Lib

variable {α : Type}

/-! ## §1 Model -/

/-- What a call of `assoc` comes to. `outside` is an access outside an array, or to a cell
that holds no array where one is expected; nothing more can be said of such a call. -/
inductive AssocResult (α : Type) where
  | returned (v : VecT α)
  | signalled
  | outside

/-- `(logand (ash index (- level)) 31)`. -/
def indexDigit (index : Int) (level : Nat) : Nat := (index / 2 ^ level % 32).toNat

section Model

variable [DecidableEq α]

/-- The local `update` of `assoc`; `none` is an access outside. A node that is returned `eq`
to the argument is that node. -/
def updateAny (levelShift : Nat) (index : Int) (newVal : α) (node : Slot α) : Option (Slot α) :=
  if levelShift < bitShift then
    match node with
    | .leaf elems =>
      elems[indexDigit index 0]?.map fun old =>
        if old = newVal then .leaf elems else .leaf (elems.set (indexDigit index 0) newVal)
    | _ => none
  else
    match node with
    | .node slots =>
      match slots[indexDigit index levelShift]? with
      | some child =>
        (updateAny (levelShift - bitShift) index newVal child).map fun newChild =>
          .node (slots.set (indexDigit index levelShift) newChild)
      | none => none
    | _ => none
termination_by levelShift
decreasing_by simp_all [bitShift]; omega

/-- `%vec-t-assoc` on any integer. -/
def vecTAssocAny (v : VecT α) (index : Int) (newVal : α) : AssocResult α :=
  if index ≥ tailStart v.count then
    match v.tail[indexDigit index 0]? with
    | some oldVal =>
      .returned (if oldVal = newVal then v
        else { v with tail := v.tail.set (indexDigit index 0) newVal })
    | none => .outside
  else
    match updateAny v.shift index newVal v.root with
    | some newRoot => .returned { v with root := newRoot }
    | none => .outside

end Model

/-! ## §2 Masks -/

theorem indexDigit_natCast (i level : Nat) :
    indexDigit (i : Int) level = (i >>> level) &&& bitMask := by
  rw [indexDigit, shiftRight_and_bitMask]
  norm_cast

theorem indexDigit_lt (index : Int) (level : Nat) : indexDigit index level < 32 := by
  unfold indexDigit
  omega

/-- The digits below bit `k` are those of the index modulo `2 ^ k`. -/
theorem indexDigit_emod (index : Int) {level k : Nat} (h : level + 5 ≤ k) :
    indexDigit (index % 2 ^ k) level = indexDigit index level := by
  obtain ⟨m, rfl⟩ := Nat.exists_eq_add_of_le h
  have hpow : (2 : Int) ^ (level + 5 + m) = 2 ^ level * (32 * 2 ^ m) := by
    rw [pow_add, pow_add, mul_assoc]
    norm_num
  have hsplit := Int.emod_add_mul_ediv index (2 ^ (level + 5 + m))
  generalize index % 2 ^ (level + 5 + m) = r at hsplit ⊢
  have hdiv : index / 2 ^ level = r / 2 ^ level + 32 * (2 ^ m * (index / 2 ^ (level + 5 + m))) := by
    have hpos : (2 : Int) ^ level ≠ 0 := pow_ne_zero _ (by norm_num)
    calc index / 2 ^ level
        = (r + 2 ^ level * (32 * (2 ^ m * (index / 2 ^ (level + 5 + m))))) / 2 ^ level := by
          conv_lhs => rw [← hsplit, hpow]
          ring_nf
      _ = _ := Int.add_mul_ediv_left _ _ hpos
  unfold indexDigit
  rw [hdiv, Int.add_mul_emod_self_left]

section Model

variable [DecidableEq α]

theorem updateAny_emod (index : Int) (x : α) {h k : Nat} (hk : 5 * (h + 1) ≤ k) (t : Slot α) :
    updateAny (5 * h) (index % 2 ^ k) x t = updateAny (5 * h) index x t := by
  induction h generalizing t with
  | zero =>
    unfold updateAny
    rw [if_pos (by decide), if_pos (by decide), indexDigit_emod index (by omega)]
  | succ h ih =>
    have hlevel : 5 * (h + 1) - bitShift = 5 * h := by simp [bitShift]; omega
    unfold updateAny
    rw [if_neg (by simp [bitShift]), if_neg (by simp [bitShift]), indexDigit_emod index (by omega),
      hlevel]
    simp only [ih (by omega)]

/-! ## §3 Returns -/

/-- An index whose leaf is there replaces an element of it. -/
theorem updateAny_of_leaf {h : Nat} {t : Slot α} {ls : List (List α)} (H : Holds h t ls)
    {index : Nat} {l : List α} (hl : ls[index / 32 % 32 ^ h]? = some l) (hlen : l.length = 32)
    (x : α) : updateAny (5 * h) index x t = some ((update (5 * h) index x t).getD t) := by
  induction h generalizing t ls with
  | zero =>
    obtain ⟨l', rfl, rfl⟩ := H
    rw [Nat.pow_zero, Nat.mod_one] at hl
    cases hl
    have hlt : index % 32 < l.length := by omega
    rw [updateAny, if_pos (by decide), update, if_pos (by decide)]
    simp only [indexDigit_natCast, Nat.shiftRight_zero, and_bitMask, List.getElem?_eq_getElem hlt,
      Option.map_some, Option.some.injEq]
    split <;> rfl
  | succ h ih =>
    obtain ⟨slots, rfl, hslen, hle, hslots⟩ := holds_succ_iff.mp H
    have hm := (List.getElem?_eq_some_iff.mp hl).1
    obtain ⟨s, hs⟩ := exists_slot hslen (slot_lt (Nat.mod_lt (index / 32) (pow_pos' (h + 1))))
    have hchild := (hslots _ s hs).1 (chunk_ne_nil hm)
    have hlevel : 5 * (h + 1) - bitShift = 5 * h := by simp [bitShift]; omega
    rw [updateAny, if_neg (by simp [bitShift]), update, if_neg (by simp [bitShift])]
    simp only [indexDigit_natCast, slot_index, hs, hlevel,
      ih hchild (by rw [getElem?_level]; exact hl), Option.map_some]
    cases hupd : update (5 * h) index x s with
    | none => rw [Option.getD_none, List.set_of_getElem?_eq hs]; rfl
    | some s' => rfl

/-- An index whose leaf is not there reaches nothing the tree stores. -/
theorem updateAny_of_no_leaf {h : Nat} {t t' : Slot α} {ls : List (List α)} (H : Holds h t ls)
    {index : Nat} (hm : ls.length ≤ index / 32 % 32 ^ h) {x : α}
    (hupd : updateAny (5 * h) index x t = some t') : Holds h t' ls := by
  induction h generalizing t t' ls with
  | zero =>
    obtain ⟨l, -, rfl⟩ := H
    rw [Nat.pow_zero, Nat.mod_one] at hm
    exact absurd hm (by simp)
  | succ h ih =>
    obtain ⟨slots, rfl, hslen, hle, hslots⟩ := holds_succ_iff.mp H
    obtain ⟨s, hs⟩ := exists_slot hslen (slot_lt (Nat.mod_lt (index / 32) (pow_pos' (h + 1))))
    have hlevel : 5 * (h + 1) - bitShift = 5 * h := by simp [bitShift]; omega
    rw [updateAny, if_neg (by simp [bitShift])] at hupd
    simp only [indexDigit_natCast, slot_index, hs, hlevel, Option.map_eq_some_iff] at hupd
    obtain ⟨s', hs', rfl⟩ := hupd
    refine holds_set hslen hle hslots (fun _ _ => rfl) ⟨fun hne => ?_, fun hnil hpos => ?_⟩
    · have hlen : (chunkOf (32 ^ h) (index / 32 % 32 ^ (h + 1) / 32 ^ h) ls).length ≤
          index / 32 % 32 ^ h := by
        have hget := getElem?_level h index ls
        rw [List.getElem?_eq_none hm] at hget
        exact List.getElem?_eq_none_iff.mp hget
      exact ih ((hslots _ s hs).1 hne) hlen hs'
    · -- above the lowest level an empty slot is NIL, which is no array
      rw [(hslots _ s hs).2 hnil hpos] at hs'
      unfold updateAny at hs'
      split at hs' <;> cases hs'

/-- Whatever the index, a tree that is returned stores as many leaves as before. -/
theorem updateAny_tree {shift : Nat} {root root' : Slot α} {ls : List (List α)}
    (T : Tree shift root ls) {index : Int} {x : α}
    (hupd : updateAny shift index x root = some root') :
    ∃ ls', Tree shift root' ls' ∧ ls'.length = ls.length := by
  rcases T.shape with ⟨rfl, rfl⟩ | ⟨hne, h, rfl, H⟩
  · -- the empty root array has no cell
    unfold updateAny at hupd
    split at hupd <;> simp at hupd
  obtain ⟨i, hi⟩ := Int.eq_ofNat_of_zero_le (Int.emod_nonneg index
    (pow_ne_zero (5 * (h + 1)) (by norm_num : (2 : Int) ≠ 0)))
  rw [← updateAny_emod index x le_rfl, hi] at hupd
  by_cases hm : i / 32 % 32 ^ h < ls.length
  · have hl := List.getElem?_eq_getElem hm
    have hlen := T.blocks _ (List.getElem_mem hm)
    rw [updateAny_of_leaf H hl hlen] at hupd
    have hnew := update_holds H hl x
    rw [Option.some.inj hupd] at hnew
    refine ⟨_, ⟨T.blocks.set (by rw [List.length_set, hlen]), .inr ⟨?_, h, rfl, hnew⟩⟩, by simp⟩
    exact List.ne_nil_of_length_pos (by rw [List.length_set]; omega)
  · exact ⟨ls, ⟨T.blocks, .inr ⟨hne, h, rfl, updateAny_of_no_leaf H (by omega) hupd⟩⟩, rfl⟩

theorem vecTAssocAny_represents {v v' : VecT α} {xs : List α} (R : v.Represents xs) {index : Int}
    {x : α} (h : vecTAssocAny v index x = .returned v') :
    v'.count = v.count ∧ ∃ xs', v'.Represents xs' := by
  obtain ⟨ls, S⟩ := R
  have hsplit := S.split
  unfold vecTAssocAny at h
  split at h
  · split at h
    · rename_i oldVal hold
      cases h
      split
      · exact ⟨rfl, xs, ls, S⟩
      · -- the cell of the tail that is replaced is that of an index in range
        obtain ⟨hlt, -⟩ := List.getElem?_eq_some_iff.mp hold
        rw [S.tailLen] at hlt
        have hmod : (ls.length * 32 + indexDigit index 0) &&& bitMask = indexDigit index 0 := by
          rw [and_bitMask]
          have := indexDigit_lt index 0
          omega
        have hset := S.setTail (i := ls.length * 32 + indexDigit index 0) (by omega) (by omega) x
        rw [hmod] at hset
        exact ⟨rfl, _, ls, hset⟩
    · cases h
  · split at h
    · rename_i newRoot hupd
      cases h
      obtain ⟨ls', T, hlen⟩ := updateAny_tree S.tree hupd
      refine ⟨rfl, ls'.flatten ++ v.tail, ls', T, rfl, ?_, S.tailLen⟩
      rw [List.length_append, T.blocks.length_flatten, S.tailLen, hlen]
      exact hsplit
    · cases h

/-- On an index in range no access leaves the arrays. -/
theorem vecTAssocAny_natCast {v : VecT α} {xs : List α} (R : v.Represents xs) {i : Nat}
    (hi : i < v.count) (x : α) : vecTAssocAny v i x = .returned (vecTAssoc v i x) := by
  obtain ⟨ls, S⟩ := R
  unfold vecTAssocAny vecTAssoc
  rw [indexDigit_natCast, Nat.shiftRight_zero, tailStart_eq S.split]
  by_cases htail : i ≥ ls.length * 32
  · obtain ⟨hlt, -⟩ := S.mod_lt hi htail
    rw [← S.tailLen, ← and_bitMask] at hlt
    rw [if_pos (by exact_mod_cast htail), if_pos htail, List.getElem?_eq_getElem hlt]
    simp only [Option.some.injEq]
  · rw [if_neg (by exact_mod_cast htail), if_neg htail]
    rcases S.tree.shape with ⟨rfl, -⟩ | ⟨-, h, hshift, H⟩
    · simp at htail
    have hlt : i / 32 < ls.length := by omega
    have hmod : i / 32 % 32 ^ h = i / 32 := Nat.mod_eq_of_lt (hlt.trans_le H.length_le)
    have hl : ls[i / 32 % 32 ^ h]? = some ls[i / 32] := by
      rw [hmod]
      exact List.getElem?_eq_getElem hlt
    rw [hshift, updateAny_of_leaf H hl (S.tree.blocks _ (List.getElem_mem hlt))]
    cases update (5 * h) i x v.root with
    | none => rw [← hshift]; rfl
    | some root => rfl

end Model

/-- A `<vector>` made by a builder, `conj`, `assoc` with any index it returns from, and
`pop`. -/
inductive Built [DecidableEq α] : VecT α → Prop where
  | start (s : Start α) : Built s.build
  | conj {v : VecT α} (x : α) : Built v → Built (vecTConj v x)
  | assoc {v v' : VecT α} {index : Int} {x : α} : Built v →
      vecTAssocAny v index x = .returned v' → Built v'
  | pop {v : VecT α} : Built v → Built (vecTPop v)

section Built

variable [DecidableEq α]

theorem Built.represents {v : VecT α} (h : Built v) : ∃ xs, v.Represents xs := by
  induction h with
  | start s => exact ⟨_, s.represents⟩
  | conj x _ ih =>
    obtain ⟨xs, R⟩ := ih
    exact ⟨_, vecTConj_represents R x⟩
  | assoc _ hassoc ih =>
    obtain ⟨xs, R⟩ := ih
    exact (vecTAssocAny_represents R hassoc).2
  | pop _ ih =>
    obtain ⟨xs, R⟩ := ih
    exact ⟨_, vecTPop_represents R⟩

/-! ## §4 Bounds -/

/-- The vectors differ at the index and nowhere else. -/
def SetsAt (v : VecT α) (index : Int) (x : α) (v' : VecT α) : Prop :=
  v'.count = v.count ∧ ∀ j, vecTRef v' j = if j = index then some x else vecTRef v j

/-- The element comes after those of the vector. -/
def Appends (v : VecT α) (x : α) (v' : VecT α) : Prop :=
  v'.count = v.count + 1 ∧ ∀ j, vecTRef v' j = if j = v.count then some x else vecTRef v j

/-- A bounds-safe outcome: the element is replaced at an index in range; at another one an
error is signalled, or the element appended if the index is the count. -/
def BoundsSafe (v : VecT α) (index : Int) (x : α) : AssocResult α → Prop
  | .returned v' =>
    (0 ≤ index ∧ index < v.count ∧ SetsAt v index x v') ∨ (index = v.count ∧ Appends v x v')
  | .signalled => ¬(0 ≤ index ∧ index < v.count)
  | .outside => False

theorem vecTAssocAny_ne_signalled (v : VecT α) (index : Int) (x : α) :
    vecTAssocAny v index x ≠ .signalled := by
  unfold vecTAssocAny
  split <;> split <;> simp

theorem setsAt_vecTAssoc {v : VecT α} {xs : List α} (R : v.Represents xs) {i : Nat}
    (hi : i < v.count) (x : α) : SetsAt v i x (vecTAssoc v i x) := by
  have hlen : v.count = xs.length := R.choose_spec.len
  have R' := vecTAssoc_represents R (hlen ▸ hi) x
  refine ⟨by rw [R'.choose_spec.len, List.length_set, hlen], fun j => ?_⟩
  rw [vecTRef_eq R', vecTRef_eq R]
  by_cases hneg : j < 0
  · rw [listRef_out (.inl hneg), listRef_out (.inl hneg), if_neg (by omega)]
  · obtain ⟨k, rfl⟩ := Int.eq_ofNat_of_zero_le (Int.not_lt.mp hneg)
    rw [listRef_natCast, listRef_natCast]
    by_cases hk : k = i
    · rw [hk, if_pos rfl, List.getElem?_set_self (hlen ▸ hi)]
    · rw [if_neg (by exact_mod_cast hk), List.getElem?_set_ne (Ne.symm hk)]

/-- `assoc` is bounds-safe on the indices in range and on no others. -/
theorem vecTAssoc_boundsSafe_iff {v : VecT α} (hv : Built v) (index : Int) (x : α) :
    BoundsSafe v index x (vecTAssocAny v index x) ↔ 0 ≤ index ∧ index < v.count := by
  obtain ⟨xs, R⟩ := hv.represents
  constructor
  · intro h
    cases hres : vecTAssocAny v index x with
    | returned v' =>
      rw [hres] at h
      rcases h with ⟨hge, hlt, -⟩ | ⟨-, happ⟩
      · exact ⟨hge, hlt⟩
      · have hcount := (vecTAssocAny_represents R hres).1
        exact absurd happ.1 (by omega)
    | signalled => exact absurd hres (vecTAssocAny_ne_signalled v index x)
    | outside =>
      rw [hres] at h
      exact h.elim
  · rintro ⟨hge, hlt⟩
    obtain ⟨i, rfl⟩ := Int.eq_ofNat_of_zero_le hge
    have hi : i < v.count := by exact_mod_cast hlt
    rw [vecTAssocAny_natCast R hi]
    exact .inl ⟨hge, hlt, setsAt_vecTAssoc R hi x⟩

theorem vecTAssoc_boundsSafe_iff_three :
    BoundsSafe (Start.fromList [1, 2, 3]).build 2 9
    (vecTAssocAny (Start.fromList [1, 2, 3]).build 2 9) ↔
      (0 : Int) ≤ 2 ∧ (2 : Int) < ((Start.fromList [1, 2, 3]).build : VecT Nat).count :=
  vecTAssoc_boundsSafe_iff (.start (.fromList [1, 2, 3])) 2 9

/-- `(assoc [1 2 3] 33 9)` is `[1 9 3]`. -/
theorem not_boundsSafe :
    ¬BoundsSafe (Start.fromList [1, 2, 3]).build 33 9
      (vecTAssocAny (Start.fromList [1, 2, 3]).build 33 9) := by
  have hres : vecTAssocAny (Start.fromList [1, 2, 3]).build 33 9 =
      .returned { count := 3, tail := [1, 9, 3] } := rfl
  rw [hres]
  rintro (⟨-, hlt, -⟩ | ⟨heq, -⟩)
  · exact absurd hlt (by decide)
  · exact absurd heq (by decide)

end Built

end Fol.VecTrie
