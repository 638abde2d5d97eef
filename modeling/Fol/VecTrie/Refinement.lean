/-
Fol.VecTrie.Refinement — the persistent vector and its transients refine a list.

A vector of `xs` is a tree that holds the full blocks of `xs` and a tail with the
rest, never empty unless `xs` is. Every builder, `conj`, `assoc`, `pop` and every
transient operation keeps this shape, so whatever mixture of them made a vector,
`ref` reads the list.

  §1 Offsets     — the tail arithmetic of the source.
  §2 Shape       — `Shape`, `Represents`, `RepresentsTransient`; reading.
  §3 Operations  — conj, assoc, builders.
  §4 Pop         — the iterator and `vecTPop_represents`.
  §5 Transients  — the same for a session.
  §6 Runs        — `vec_refines_list`.
-/
import Fol.VecTrie.TrieTheorems

namespace Fol.VecTrie

open Lib

variable {τ α : Type}

/-! ## §1 Offsets -/

theorem tailLength_eq (n : Nat) : tailLength n = if n = 0 then 0 else 1 + (n - 1) % 32 := by
  rw [tailLength, and_bitMask]

theorem tailLength_le (n : Nat) : tailLength n ≤ 32 := by
  rw [tailLength_eq]
  split <;> omega

/-- With `m` full blocks before the tail, the tail starts at `32 * m`. -/
theorem tailStart_eq {n m : Nat} (h : n = m * 32 + tailLength n) : tailStart n = m * 32 := by
  rw [tailLength_eq] at h
  unfold tailStart logandNeg32
  rw [and_bitMask]
  split at h <;> split <;> omega

theorem vecTTailOff_eq {n m : Nat} (h : n = m * 32 + tailLength n) : vecTTailOff n = m * 32 := by
  rw [tailLength_eq] at h
  unfold vecTTailOff
  rw [branchFactor, bitShift, Nat.shiftRight_eq_div_pow, Nat.shiftLeft_eq]
  split at h <;> split <;> omega

/-- The builders' split of more than 32 elements into full blocks and a tail. -/
theorem treeCount_split {n : Nat} (h : 32 < n) :
    ∃ m, treeCount n = m * 32 ∧ (m * 32) >>> bitShift = m ∧ 0 < m ∧
      n = m * 32 + tailLength n := by
  refine ⟨(n - 1) / 32, ?_, ?_, by omega, ?_⟩
  · rw [treeCount, if_neg (by omega), bitShift, Nat.shiftRight_eq_div_pow, Nat.shiftLeft_eq]
  · rw [bitShift, Nat.shiftRight_eq_div_pow]
    omega
  · rw [tailLength_eq, if_neg (by omega)]
    omega

/-! ## §2 Shape -/

/-- The fields of a vector of `xs`: `ls` are the leaves, `tail` the rest. -/
structure Shape (count shift : Nat) (root : Slot α) (tail xs : List α) (ls : List (List α)) :
    Prop where
  tree : Tree shift root ls
  elems : xs = ls.flatten ++ tail
  len : count = xs.length
  tailLen : tail.length = tailLength count

theorem Shape.split {count shift : Nat} {root : Slot α} {tail xs : List α} {ls : List (List α)}
    (S : Shape count shift root tail xs ls) : count = ls.length * 32 + tailLength count := by
  have hlen := S.len
  rw [S.elems, List.length_append, S.tree.blocks.length_flatten, S.tailLen] at hlen
  exact hlen

/-- A vector that represents the list. -/
def VecT.Represents (v : VecT α) (xs : List α) : Prop :=
  ∃ ls, Shape v.count v.shift v.root v.tail xs ls

/-- A transient that represents the list. Its tail is an array of 32, of which
the first cells count. -/
def TransientVecT.Represents (tv : TransientVecT τ α) (xs : List α) : Prop :=
  tv.tail.length = 32 ∧
    ∃ ls, Shape tv.count tv.shift tv.root (tv.tail.take (tailLength tv.count)) xs ls

theorem Tree.descend {shift : Nat} {root : Slot α} {ls : List (List α)} (T : Tree shift root ls)
    {i : Nat} (hi : i / 32 < ls.length) :
    ∃ l, descend shift i root = some (.leaf l) ∧ ls[i / 32]? = some l := by
  rcases T.shape with ⟨rfl, -⟩ | ⟨-, h, rfl, H⟩
  · exact absurd hi (Nat.not_lt_zero _)
  · have hmod : i / 32 % 32 ^ h = i / 32 := Nat.mod_eq_of_lt (hi.trans_le H.length_le)
    have hd := descend_holds H (show i / 32 % 32 ^ h < ls.length by rw [hmod]; exact hi)
    rw [hmod] at hd
    exact hd

/-- The two branches of `ref`: an index in range reads the list. -/
theorem Shape.read {count shift : Nat} {root : Slot α} {tail xs : List α} {ls : List (List α)}
    (S : Shape count shift root tail xs ls) {i : Nat} (hi : i < count) :
    (if i ≥ tailStart count then tail[i &&& bitMask]?
      else (descend shift i root).bind (leafRef i)) = xs[i]? := by
  have hsplit := S.split
  have hle := tailLength_le count
  have hflat := S.tree.blocks.length_flatten
  rw [tailStart_eq hsplit, S.elems, and_bitMask]
  by_cases htail : i ≥ ls.length * 32
  · rw [if_pos htail, List.getElem?_append_right (by omega), hflat]
    congr 1
    omega
  · rw [if_neg htail, List.getElem?_append_left (by omega),
      S.tree.blocks.getElem?_flatten (by decide)]
    obtain ⟨l, hdesc, hl⟩ := S.tree.descend (show i / 32 < ls.length by omega)
    rw [hdesc, hl, Option.bind_some, Option.bind_some, leafRef, and_bitMask]

/-- What reading index `i` must return. -/
def listRef (xs : List α) (i : Int) : Option α := if i < 0 then none else xs[i.toNat]?

theorem listRef_natCast (xs : List α) (i : Nat) : listRef xs i = xs[i]? := by
  rw [listRef, if_neg (by omega), Int.toNat_natCast]

theorem listRef_out {xs : List α} {i : Int} (h : i < 0 ∨ i ≥ xs.length) : listRef xs i = none := by
  unfold listRef
  split
  · rfl
  · exact List.getElem?_eq_none (by omega)

theorem vecTRef_eq {v : VecT α} {xs : List α} (R : v.Represents xs) (i : Int) :
    vecTRef v i = listRef xs i := by
  obtain ⟨ls, S⟩ := R
  unfold vecTRef
  by_cases hout : i < 0 ∨ i ≥ v.count
  · rw [if_pos hout, listRef_out (by rw [← S.len]; exact hout)]
  · rw [if_neg hout, listRef, if_neg (show ¬ i < 0 by omega)]
    exact S.read (show i.toNat < v.count by omega)

/-- The cells of a transient's tail that count read like the trimmed tail. -/
theorem take_tail_getElem? {tail : List α} {n i : Nat} (hi : i % 32 < tailLength n) :
    (tail.take (tailLength n))[i &&& bitMask]? = tail[i &&& bitMask]? := by
  rw [and_bitMask, List.getElem?_take_of_lt hi]

/-- An index of the tail has its cell among those that count. -/
theorem Shape.mod_lt {count shift : Nat} {root : Slot α} {tail xs : List α} {ls : List (List α)}
    (S : Shape count shift root tail xs ls) {i : Nat} (hi : i < count)
    (htail : ls.length * 32 ≤ i) : i % 32 < tailLength count ∧ i % 32 = i - ls.length * 32 := by
  have hsplit := S.split
  have hle := tailLength_le count
  omega

theorem transientVecTRef_eq {tv : TransientVecT τ α} {xs : List α} (R : tv.Represents xs)
    (i : Int) :
    transientVecTRef tv i = listRef xs i := by
  obtain ⟨-, ls, S⟩ := R
  unfold transientVecTRef
  by_cases hout : i < 0 ∨ i ≥ tv.count
  · rw [if_pos hout, listRef_out (by rw [← S.len]; exact hout)]
  · rw [if_neg hout, listRef, if_neg (show ¬ i < 0 by omega)]
    have hread := S.read (show i.toNat < tv.count by omega)
    rw [tailStart_eq S.split] at hread ⊢
    rw [← hread]
    show (if i.toNat ≥ ls.length * 32 then _ else _) = _
    by_cases htail : i.toNat ≥ ls.length * 32
    · rw [if_pos htail, if_pos htail, take_tail_getElem? (S.mod_lt (by omega) htail).1]
    · rw [if_neg htail, if_neg htail]

/-! ## §3 Operations -/

theorem tailLength_succ {n : Nat} (h : tailLength n < 32) :
    tailLength (n + 1) = tailLength n + 1 := by
  rw [tailLength_eq] at h
  rw [tailLength_eq, tailLength_eq]
  split at h
  · simp_all
  · rw [if_neg (by omega), if_neg (by omega)]
    omega

theorem tailLength_succ_full {n : Nat} (h : tailLength n = 32) : tailLength (n + 1) = 1 := by
  rw [tailLength_eq] at h
  rw [tailLength_eq]
  split at h
  · omega
  · rw [if_neg (by omega)]
    omega

/-- One more element in a tail that has room. -/
theorem Shape.snoc {count shift : Nat} {root : Slot α} {tail xs : List α} {ls : List (List α)}
    (S : Shape count shift root tail xs ls) (hroom : tailLength count < 32) (x : α) :
    Shape (count + 1) shift root (tail ++ [x]) (xs ++ [x]) ls :=
  ⟨S.tree, by rw [S.elems, List.append_assoc], by simp [S.len],
    by rw [List.length_append, S.tailLen, tailLength_succ hroom, List.length_singleton]⟩

/-- A full tail becomes a leaf, and one more element starts a new tail. -/
theorem Shape.push {count shift : Nat} {root : Slot α} {tail xs : List α} {ls : List (List α)}
    (S : Shape count shift root tail xs ls) (hfull : tailLength count = 32) (x : α) :
    Shape (count + 1) (pushLeaf count shift root (.leaf tail)).1
      (pushLeaf count shift root (.leaf tail)).2 [x] (xs ++ [x]) (ls ++ [tail]) := by
  have hsplit := S.split
  have hlen : tail.length = 32 := by rw [S.tailLen, hfull]
  refine ⟨pushLeaf_tree S.tree hlen (by omega), ?_, by simp [S.len], ?_⟩
  · rw [S.elems]
    simp
  · rw [tailLength_succ_full hfull]
    rfl

theorem vecTConj_represents {v : VecT α} {xs : List α} (R : v.Represents xs) (x : α) :
    (vecTConj v x).Represents (xs ++ [x]) := by
  obtain ⟨ls, S⟩ := R
  have hle := tailLength_le v.count
  unfold vecTConj
  by_cases hroom : tailLength v.count < 32
  · simp only [hroom, if_true, List.take_of_length_le S.tailLen.le]
    exact ⟨ls, S.snoc hroom x⟩
  · simp only [hroom, if_false]
    exact ⟨_, S.push (by omega) x⟩

section Assoc

variable [DecidableEq α]

omit [DecidableEq α] in
/-- Replacing an element of the tail. -/
theorem Shape.setTail {count shift : Nat} {root : Slot α} {tail xs : List α} {ls : List (List α)}
    (S : Shape count shift root tail xs ls) {i : Nat} (hi : i < count)
    (htail : ls.length * 32 ≤ i) (x : α) :
    Shape count shift root (tail.set (i &&& bitMask) x) (xs.set i x) ls := by
  have hflat := S.tree.blocks.length_flatten
  refine ⟨S.tree, ?_, by rw [List.length_set]; exact S.len, by
    rw [List.length_set]; exact S.tailLen⟩
  rw [S.elems, and_bitMask, (S.mod_lt hi htail).2, List.set_append_right _ _ (by omega), hflat]

/-- Replacing an element of the tree. -/
theorem Shape.setTree {count shift : Nat} {root : Slot α} {tail xs : List α} {ls : List (List α)}
    (S : Shape count shift root tail xs ls) {i : Nat} (htree : i < ls.length * 32) (x : α) :
    ∃ ls', Shape count shift ((update shift i x root).getD root) tail (xs.set i x) ls' ∧
      ls'.length = ls.length := by
  have hflat := S.tree.blocks.length_flatten
  rcases S.tree.shape with ⟨rfl, -⟩ | ⟨hne, h, rfl, H⟩
  · exact absurd htree (Nat.not_lt_zero _)
  have hlt : i / 32 < ls.length := by omega
  obtain ⟨l, hl⟩ : ∃ l, ls[i / 32]? = some l := ⟨_, List.getElem?_eq_getElem hlt⟩
  have hmod : i / 32 % 32 ^ h = i / 32 := Nat.mod_eq_of_lt (hlt.trans_le H.length_le)
  have hnew := update_holds H (show ls[i / 32 % 32 ^ h]? = some l by rw [hmod]; exact hl) x
  rw [hmod] at hnew
  have hll : l.length = 32 := S.tree.blocks l (List.mem_of_getElem? hl)
  refine ⟨ls.set (i / 32) (l.set (i % 32) x),
    ⟨⟨?_, .inr ⟨?_, h, rfl, hnew⟩⟩, ?_, ?_, S.tailLen⟩, ?_⟩
  · exact S.tree.blocks.set (by rw [List.length_set, hll])
  · intro hnil
    have hlen := congrArg List.length hnil
    rw [List.length_set] at hlen
    exact hne (List.length_eq_zero_iff.mp hlen)
  · rw [S.tree.blocks.flatten_set hl x (by decide), S.elems, List.set_append_left _ _ (by omega)]
  · rw [List.length_set]
    exact S.len
  · rw [List.length_set]

theorem vecTAssoc_represents {v : VecT α} {xs : List α} (R : v.Represents xs) {i : Nat}
    (hi : i < xs.length) (x : α) : (vecTAssoc v i x).Represents (xs.set i x) := by
  obtain ⟨ls, S⟩ := R
  have hcount := S.len
  unfold vecTAssoc
  rw [tailStart_eq S.split]
  by_cases htail : i ≥ ls.length * 32
  · rw [if_pos htail]
    have hset := S.setTail (by omega) htail x
    split
    · next heql =>
      rw [List.set_of_getElem?_eq heql] at hset
      exact ⟨ls, hset⟩
    · exact ⟨ls, hset⟩
  · rw [if_neg htail]
    obtain ⟨ls', hset, -⟩ := S.setTree (show i < ls.length * 32 by omega) x
    cases hupd : update v.shift i x v.root with
    | none => rw [hupd] at hset; exact ⟨ls', hset⟩
    | some newRoot => rw [hupd] at hset; exact ⟨ls', hset⟩

end Assoc

/-! ### Builders -/

theorem represents_short (xs : List α) (h : xs.length ≤ 32) :
    (VecT.mk xs.length 0 (.node []) xs).Represents xs := by
  refine ⟨[], Tree.empty 0, rfl, rfl, ?_⟩
  rw [tailLength_eq]
  show xs.length = if xs.length = 0 then 0 else 1 + (xs.length - 1) % 32
  split <;> omega

/-- The builders' result from the full blocks of a longer list. -/
theorem represents_long {xs tail : List α} {ls : List (List α)} (hb : Blocks 32 ls)
    (hne : ls ≠ []) (helems : xs = ls.flatten ++ tail)
    (hsplit : xs.length = ls.length * 32 + tailLength xs.length) :
    (buildTree xs.length (ls.map Slot.leaf) tail).Represents xs := by
  refine ⟨ls, buildTree_tree hb hne tail, helems, rfl, ?_⟩
  have hlen := congrArg List.length helems
  rw [List.length_append, hb.length_flatten] at hlen
  show tail.length = tailLength xs.length
  omega

theorem takeLeaves_eq (n : Nat) (xs : List α) (h : n * 32 ≤ xs.length) :
    ∃ ls : List (List α), takeLeaves n xs = (ls.map Slot.leaf, xs.drop (n * 32)) ∧
      ls.length = n ∧ Blocks 32 ls ∧ ls.flatten = xs.take (n * 32) := by
  induction n generalizing xs with
  | zero => exact ⟨[], by simp [takeLeaves], rfl, Blocks.nil 32, by simp⟩
  | succ n ih =>
    obtain ⟨ls, htake, hlen, hb, hflat⟩ := ih (xs.drop 32) (by rw [List.length_drop]; omega)
    have harg : 32 + n * 32 = (n + 1) * 32 := by ring
    refine ⟨xs.take 32 :: ls, ?_, by simp [hlen], ?_, ?_⟩
    · rw [takeLeaves, htake, List.drop_drop, harg]
      rfl
    · intro b hmem
      rcases List.mem_cons.mp hmem with rfl | hmem
      · rw [List.length_take]
        omega
      · exact hb b hmem
    · rw [List.flatten_cons, hflat, ← harg, List.take_add]

theorem buildVecTFromList_represents (xs : List α) : (buildVecTFromList xs).Represents xs := by
  unfold buildVecTFromList
  by_cases hshort : xs.length ≤ 32
  · simp only [hshort, if_true]
    exact represents_short xs hshort
  · obtain ⟨m, hcount, hshift, hpos, hsplit⟩ := treeCount_split (n := xs.length) (by omega)
    have htl := tailLength_le xs.length
    obtain ⟨ls, htake, hlen, hb, hflat⟩ := takeLeaves_eq m xs (by omega)
    simp only [hshort, if_false, hshift, htake, hcount]
    have hrest : (xs.drop (m * 32)).take (xs.length - m * 32) = xs.drop (m * 32) := by
      rw [List.take_of_length_le (by rw [List.length_drop])]
    rw [hrest]
    refine represents_long hb ?_ ?_ ?_
    · intro hnil
      rw [hnil, List.length_nil] at hlen
      omega
    · rw [hflat, List.take_append_drop]
    · rw [hlen]
      exact hsplit

theorem makeFilledVecT_represents (size : Nat) (x : α) :
    (makeFilledVecT size x).Represents (List.replicate size x) := by
  unfold makeFilledVecT
  have hlen : (List.replicate size x).length = size := List.length_replicate
  by_cases hshort : size ≤ 32
  · rw [if_pos hshort]
    have hrep := represents_short (List.replicate size x) (by omega)
    rw [hlen] at hrep
    exact hrep
  · obtain ⟨m, hcount, hshift, hpos, hsplit⟩ := treeCount_split (n := size) (by omega)
    rw [if_neg hshort]
    simp only [hshift, hcount]
    have hb : Blocks 32 (List.replicate m (List.replicate 32 x)) := by
      intro b hmem
      rw [List.eq_of_mem_replicate hmem, List.length_replicate]
    have hne : List.replicate m (List.replicate 32 x) ≠ [] := by
      intro hnil
      have hlen0 := congrArg List.length hnil
      rw [List.length_replicate, List.length_nil] at hlen0
      omega
    have helems : List.replicate size x = (List.replicate m (List.replicate 32 x)).flatten ++
        List.replicate (size - m * 32) x := by
      rw [List.flatten_replicate_replicate, ← List.replicate_add]
      congr 1
      have htl := tailLength_le size
      omega
    have hrep := represents_long hb hne helems
      (by rw [hlen, List.length_replicate]; exact hsplit)
    rw [hlen, List.map_replicate] at hrep
    exact hrep

theorem arrayElems_eq (vec : Array α) (start n : Nat) :
    arrayElems vec start n = (vec.toList.drop start).take n := by
  unfold arrayElems
  induction n with
  | zero => simp
  | succ n ih =>
    rw [List.range_succ, List.filterMap_append, ih, List.take_add_one, List.getElem?_drop]
    congr 1
    rw [Array.getElem?_toList]
    cases hv : vec[start + n]? <;> simp [hv]

theorem buildVecTFromVector_eq (vec : Array α) :
    buildVecTFromVector vec = buildVecTFromList vec.toList := by
  unfold buildVecTFromVector buildVecTFromList
  simp only [Array.length_toList]
  by_cases hshort : vec.size ≤ 32
  · simp only [hshort, if_true, arrayElems_eq]
    rw [List.drop_zero, List.take_of_length_le (by simp)]
  · obtain ⟨m, hcount, hshift, hpos, hsplit⟩ := treeCount_split (n := vec.size) (by omega)
    have hle : m * 32 ≤ vec.toList.length := by rw [Array.length_toList]; omega
    simp only [hshort, if_false, hshift, hcount, arrayElems_eq]
    congr 1
    · generalize vec.toList = xs at hle
      clear hcount hshift hpos hsplit hshort
      induction m generalizing xs with
      | zero => rfl
      | succ m ih =>
        rw [List.range_succ_eq_map, List.map_cons, List.map_map, takeLeaves]
        simp only [← ih (xs.drop 32) (by rw [List.length_drop]; omega), Nat.zero_mul,
          List.drop_zero]
        congr 1
        refine List.map_congr_left fun j _ => ?_
        have harg : 32 + j * 32 = (j + 1) * 32 := by ring
        show Slot.leaf _ = Slot.leaf _
        rw [List.drop_drop, harg]
    · obtain ⟨ls, htake, -⟩ := takeLeaves_eq m vec.toList hle
      rw [htake]

/-! ## §4 Pop -/

/-- The block the iterator caches at a multiple of 32. -/
theorem leafAt_spec {v : VecT α} {xs : List α} (R : v.Represents xs) {k j : Nat} (hk : k % 32 = 0)
    (hkj : k ≤ j) (hj : j < k + 32) (hlt : j < xs.length) : (leafAt v k)[j % 32]? = xs[j]? := by
  obtain ⟨ls, S⟩ := R
  have hlen := S.len
  have hdiv : k / 32 = j / 32 := by omega
  have hread := S.read (show j < v.count by omega)
  unfold leafAt
  rw [tailStart_eq S.split, and_bitMask] at hread
  rw [vecTTailOff_eq S.split, ← hread]
  by_cases htail : j ≥ ls.length * 32
  · rw [if_pos htail, if_pos (by omega)]
  · rw [if_neg htail, if_neg (by omega)]
    obtain ⟨l, hdesc, hl⟩ := S.tree.descend (show j / 32 < ls.length by omega)
    obtain ⟨l', hdesc', hl'⟩ := S.tree.descend (show k / 32 < ls.length by omega)
    rw [hdiv, hl] at hl'
    cases hl'
    rw [hdesc, hdesc', Option.bind_some, leafRef, and_bitMask]

/-- The cached leaf holds the elements of its block that are still to come. -/
def Cached (xs : List α) (it : VecTIterator α) : Prop :=
  ∀ j, it.index ≤ j → j / 32 = it.index / 32 → j < xs.length → it.currentLeaf[j % 32]? = xs[j]?

theorem cached_vecTIterator {v : VecT α} {xs : List α} (R : v.Represents xs) :
    Cached xs (vecTIterator v) := by
  have hcount : v.count = xs.length := R.choose_spec.len
  intro j _ hblock hj
  replace hblock : j / 32 = 0 / 32 := hblock
  show (if v.count = 0 then [] else leafAt v 0)[j % 32]? = _
  rw [if_neg (by omega)]
  exact leafAt_spec R rfl (Nat.zero_le j) (by omega) hj

/-- One call answers the next element. -/
theorem iteratorNext_spec {v : VecT α} {xs : List α} (R : v.Represents xs) {it : VecTIterator α}
    (hcur : Cached xs it) (hlt : it.index < xs.length) :
    (iteratorNext v it).1 = some xs[it.index] ∧ (iteratorNext v it).2.index = it.index + 1 ∧
      Cached xs (iteratorNext v it).2 := by
  have hcount : v.count = xs.length := R.choose_spec.len
  have hnext : iteratorNext v it = (some xs[it.index],
      { index := it.index + 1
        currentLeaf := if it.index + 1 < v.count ∧ (it.index + 1) &&& bitMask = 0 then
          leafAt v (it.index + 1) else it.currentLeaf }) := by
    unfold iteratorNext
    rw [if_neg (by omega), and_bitMask, hcur it.index le_rfl rfl hlt, List.getElem?_eq_getElem hlt]
  rw [hnext]
  refine ⟨rfl, rfl, fun j hle hblock hj => ?_⟩
  show (if it.index + 1 < v.count ∧ (it.index + 1) &&& bitMask = 0 then
    leafAt v (it.index + 1) else it.currentLeaf)[j % 32]? = _
  replace hle : it.index + 1 ≤ j := hle
  replace hblock : j / 32 = (it.index + 1) / 32 := hblock
  rw [and_bitMask]
  by_cases hnew : it.index + 1 < v.count ∧ (it.index + 1) % 32 = 0
  · rw [if_pos hnew]
    exact leafAt_spec R hnew.2 hle (by omega) hj
  · rw [if_neg hnew]
    exact hcur j (by omega) (by omega) hj

/-- The iterator yields the elements in order. -/
theorem iteratorTake_eq {v : VecT α} {xs : List α} (R : v.Represents xs) (n : Nat)
    {it : VecTIterator α} (hn : it.index + n ≤ xs.length) (hcur : Cached xs it) :
    iteratorTake v n it = (xs.drop it.index).take n := by
  induction n generalizing it with
  | zero => rfl
  | succ n ih =>
    have hlt : it.index < xs.length := by omega
    obtain ⟨hval, hindex, hcached⟩ := iteratorNext_spec R hcur hlt
    rw [iteratorTake, ih (by omega) hcached, hval, hindex, List.drop_eq_getElem_cons hlt,
      List.take_succ_cons]
    rfl

theorem vecTIterator_take {v : VecT α} {xs : List α} (R : v.Represents xs) {n : Nat}
    (hn : n ≤ xs.length) : iteratorTake v n (vecTIterator v) = xs.take n :=
  iteratorTake_eq R n (by simpa [vecTIterator] using hn) (cached_vecTIterator R)

theorem vecTPop_represents {v : VecT α} {xs : List α} (R : v.Represents xs) :
    (vecTPop v).Represents xs.dropLast := by
  obtain ⟨ls, S⟩ := R
  have hlen := S.len
  unfold vecTPop
  by_cases hone : v.count ≤ 1
  · rw [if_pos hone]
    have hnil : xs.dropLast = [] := by
      rw [← List.length_eq_zero_iff, List.length_dropLast]
      omega
    rw [hnil]
    exact represents_short [] (by simp)
  rw [if_neg hone]
  by_cases hmany : v.tail.length > 1
  · rw [if_pos hmany]
    have htl := S.tailLen
    have htne : v.tail ≠ [] := List.ne_nil_of_length_pos (by omega)
    refine ⟨ls, S.tree, ?_, ?_, ?_⟩
    · show xs.dropLast = ls.flatten ++ v.tail.take (v.tail.length - 1)
      rw [S.elems, List.dropLast_append_of_ne_nil htne, List.dropLast_eq_take]
    · show v.count - 1 = xs.dropLast.length
      rw [List.length_dropLast, hlen]
    · show (v.tail.take (v.tail.length - 1)).length = tailLength (v.count - 1)
      rw [List.length_take, Nat.min_eq_left (by omega)]
      rw [tailLength_eq] at htl ⊢
      split at htl <;> split <;> omega
  · rw [if_neg hmany, vecTIterator_take ⟨ls, S⟩ (by omega), hlen, ← List.dropLast_eq_take]
    exact buildVecTFromList_represents _

/-! ## §5 Transients -/

theorem transientVecT_represents {v : VecT α} {xs : List α} (R : v.Represents xs) (fill : α)
    (thread : τ) : (transientVecT fill thread v).Represents xs := by
  obtain ⟨ls, S⟩ := R
  have hle := tailLength_le v.count
  have htl := S.tailLen
  refine ⟨by simp [transientVecT], ls, ?_⟩
  have htake : ((v.tail ++ List.replicate 32 fill).take 32).take (tailLength v.count) = v.tail := by
    rw [List.take_take, Nat.min_eq_left hle, List.take_append_of_le_length (by omega),
      List.take_of_length_le (by omega)]
  unfold transientVecT
  rw [htake]
  exact S

section Sessions

variable [DecidableEq τ]

/-- Assigning the first cell that does not count yet appends to the trimmed tail. -/
theorem take_set_succ {tail : List α} {n : Nat} (hn : n < tail.length) (x : α) :
    (tail.set n x).take (n + 1) = tail.take n ++ [x] := by
  rw [List.take_add_one, List.take_set_of_le (le_refl n), List.getElem?_set_self hn]
  rfl

theorem transientVecTConj_represents {tv : TransientVecT τ α} {xs : List α} (R : tv.Represents xs)
    (fill : α) {thread : τ} (htok : tv.token = some thread) (x : α) :
    ∃ tv', transientVecTConj fill thread tv x = .ok tv' ∧ tv'.token = some thread ∧
      tv'.Represents (xs ++ [x]) := by
  obtain ⟨hlen, ls, S⟩ := R
  have hle := tailLength_le tv.count
  unfold transientVecTConj
  rw [if_pos htok, and_bitMask]
  refine ⟨_, rfl, ?_, ?_⟩
  · dsimp only
    split <;> exact htok
  · by_cases hpush : tv.count > 0 ∧ tv.count % 32 = 0
    · -- the 32 cells are full: they become a leaf
      have hfull : tailLength tv.count = 32 := by
        rw [tailLength_eq, if_neg (by omega)]
        omega
      rw [if_pos hpush]
      have hS := S.push hfull x
      rw [hfull, List.take_of_length_le hlen.le] at hS
      refine ⟨by simp, ls ++ [tv.tail], ?_⟩
      dsimp only
      rw [tailLength_succ_full hfull, hpush.2]
      exact hS
    · have hcell : tv.count % 32 = tailLength tv.count := by
        rw [tailLength_eq]
        split <;> omega
      have hroom : tailLength tv.count < 32 := by omega
      rw [if_neg hpush]
      refine ⟨by simpa using hlen, ls, ?_⟩
      dsimp only
      rw [tailLength_succ hroom, hcell, take_set_succ (by omega)]
      exact S.snoc hroom x

theorem transientVecTAssoc_represents [DecidableEq α] {tv : TransientVecT τ α} {xs : List α}
    (R : tv.Represents xs) {thread : τ} (htok : tv.token = some thread) {i : Nat}
    (hi : i < xs.length) (x : α) :
    ∃ tv', transientVecTAssoc thread tv i x = .ok tv' ∧ tv'.token = some thread ∧
      tv'.Represents (xs.set i x) := by
  obtain ⟨hlen, ls, S⟩ := R
  have hcount := S.len
  unfold transientVecTAssoc
  rw [if_pos htok, if_neg (by omega), Int.toNat_natCast]
  dsimp only
  rw [tailStart_eq S.split]
  by_cases htail : i ≥ ls.length * 32
  · rw [if_pos htail]
    refine ⟨_, rfl, htok, by simpa using hlen, ls, ?_⟩
    have hset := S.setTail (by omega) htail x
    dsimp only
    rw [List.take_set]
    exact hset
  · rw [if_neg htail]
    obtain ⟨ls', hset, -⟩ := S.setTree (show i < ls.length * 32 by omega) x
    exact ⟨_, rfl, htok, hlen, ls', hset⟩

theorem transientVecTPersistent_represents {tv : TransientVecT τ α} {xs : List α}
    (R : tv.Represents xs) {thread : τ} (htok : tv.token = some thread) :
    ∃ v, transientVecTPersistent thread tv = .ok ({ tv with token := none }, v) ∧
      v.Represents xs := by
  obtain ⟨-, ls, S⟩ := R
  exact ⟨_, if_pos htok, ls, S⟩

end Sessions

/-! ## §6 Runs -/

/-- The vector a run starts from. -/
inductive Start (α : Type) where
  | fromList (xs : List α)
  | fromVector (vec : Array α)
  | filled (size : Nat) (x : α)

def Start.build : Start α → VecT α
  | .fromList xs => buildVecTFromList xs
  | .fromVector vec => buildVecTFromVector vec
  | .filled size x => makeFilledVecT size x

def Start.elems : Start α → List α
  | .fromList xs => xs
  | .fromVector vec => vec.toList
  | .filled size x => List.replicate size x

/-- The operations; `transient` to `persistentBang` brackets a session. -/
inductive Op (α : Type) where
  | conj (x : α)
  | assoc (i : Nat) (x : α)
  | pop
  | transient
  | conjBang (x : α)
  | assocBang (i : Nat) (x : α)
  | persistentBang
deriving DecidableEq

/-- A vector, or a transient in the middle of a session. -/
inductive State (τ α : Type) where
  | persistent (v : VecT α)
  | transient (tv : TransientVecT τ α)

def State.count : State τ α → Nat
  | .persistent v => v.count
  | .transient tv => tv.count

def State.ref : State τ α → Int → Option α
  | .persistent v => vecTRef v
  | .transient tv => transientVecTRef tv

section Runs

variable [DecidableEq τ] [DecidableEq α]

/-- One operation by `thread`; `none` where it fails or is for the other kind of
vector. -/
def step (fill : α) (thread : τ) : State τ α → Op α → Option (State τ α)
  | .persistent v, .conj x => some (.persistent (vecTConj v x))
  | .persistent v, .assoc i x => some (.persistent (vecTAssoc v i x))
  | .persistent v, .pop => some (.persistent (vecTPop v))
  | .persistent v, .transient => some (.transient (transientVecT fill thread v))
  | .transient tv, .conjBang x => (transientVecTConj fill thread tv x).toOption.map .transient
  | .transient tv, .assocBang i x => (transientVecTAssoc thread tv i x).toOption.map .transient
  | .transient tv, .persistentBang =>
    (transientVecTPersistent thread tv).toOption.map fun r => .persistent r.2
  | _, _ => none

def run (fill : α) (thread : τ) (s : State τ α) (ops : List (Op α)) : Option (State τ α) :=
  ops.foldlM (step fill thread) s

end Runs

/-- The list, and whether a session is open. -/
structure AbsState (α : Type) where
  elems : List α
  inSession : Bool

/-- The same operation on the list; `none` for an index out of bounds or an
operation for the other kind of vector. -/
def absStep (a : AbsState α) : Op α → Option (AbsState α)
  | .conj x => if a.inSession then none else some { a with elems := a.elems ++ [x] }
  | .assoc i x =>
    if a.inSession ∨ i ≥ a.elems.length then none else some { a with elems := a.elems.set i x }
  | .pop => if a.inSession then none else some { a with elems := a.elems.dropLast }
  | .transient => if a.inSession then none else some { a with inSession := true }
  | .conjBang x => if a.inSession then some { a with elems := a.elems ++ [x] } else none
  | .assocBang i x =>
    if a.inSession ∧ i < a.elems.length then some { a with elems := a.elems.set i x } else none
  | .persistentBang => if a.inSession then some { a with inSession := false } else none

def absRun (a : AbsState α) (ops : List (Op α)) : Option (AbsState α) := ops.foldlM absStep a

/-- The state represents the list, with a session of `thread` open or none. -/
def State.Represents (thread : τ) : State τ α → AbsState α → Prop
  | .persistent v, a => a.inSession = false ∧ v.Represents a.elems
  | .transient tv, a => a.inSession = true ∧ tv.token = some thread ∧ tv.Represents a.elems

theorem State.Represents.count {thread : τ} {s : State τ α} {a : AbsState α}
    (R : s.Represents thread a) : s.count = a.elems.length := by
  cases s with
  | persistent v => exact R.2.choose_spec.len
  | transient tv => exact R.2.2.2.choose_spec.len

theorem State.Represents.ref {thread : τ} {s : State τ α} {a : AbsState α}
    (R : s.Represents thread a) (i : Int) : s.ref i = listRef a.elems i := by
  cases s with
  | persistent v => exact vecTRef_eq R.2 i
  | transient tv => exact transientVecTRef_eq R.2.2 i

theorem Start.represents (start : Start α) : start.build.Represents start.elems := by
  cases start with
  | fromList xs => exact buildVecTFromList_represents xs
  | fromVector vec =>
    rw [Start.build, buildVecTFromVector_eq]
    exact buildVecTFromList_represents vec.toList
  | filled size x => exact makeFilledVecT_represents size x

section Runs

variable [DecidableEq τ] [DecidableEq α]

/-- Step lemma: one operation the list allows. -/
theorem step_represents (fill : α) {thread : τ} {s : State τ α} {a a' : AbsState α}
    (R : s.Represents thread a) {op : Op α} (h : absStep a op = some a') :
    ∃ s', step fill thread s op = some s' ∧ s'.Represents thread a' := by
  cases s with
  | persistent v =>
    obtain ⟨hmode, R⟩ := R
    cases op with
    | conj x =>
      simp only [absStep, hmode, Bool.false_eq_true, if_false, Option.some.injEq] at h
      subst h
      exact ⟨_, rfl, rfl, vecTConj_represents R x⟩
    | assoc i x =>
      simp only [absStep, hmode, Bool.false_eq_true, false_or] at h
      split at h
      · cases h
      · next hi =>
        cases h
        exact ⟨_, rfl, rfl, vecTAssoc_represents R (by omega) x⟩
    | pop =>
      simp only [absStep, hmode, Bool.false_eq_true, if_false, Option.some.injEq] at h
      subst h
      exact ⟨_, rfl, rfl, vecTPop_represents R⟩
    | transient =>
      simp only [absStep, hmode, Bool.false_eq_true, if_false, Option.some.injEq] at h
      subst h
      exact ⟨_, rfl, rfl, rfl, transientVecT_represents R fill thread⟩
    | conjBang x => exact absurd h (by simp [absStep, hmode])
    | assocBang i x => exact absurd h (by simp [absStep, hmode])
    | persistentBang => exact absurd h (by simp [absStep, hmode])
  | transient tv =>
    obtain ⟨hmode, htok, R⟩ := R
    cases op with
    | conj x => exact absurd h (by simp [absStep, hmode])
    | assoc i x => exact absurd h (by simp [absStep, hmode])
    | pop => exact absurd h (by simp [absStep, hmode])
    | transient => exact absurd h (by simp [absStep, hmode])
    | conjBang x =>
      simp only [absStep, hmode, if_true, Option.some.injEq] at h
      subst h
      obtain ⟨tv', hok, htok', R'⟩ := transientVecTConj_represents R fill htok x
      exact ⟨.transient tv', by rw [step, hok]; rfl, rfl, htok', R'⟩
    | assocBang i x =>
      simp only [absStep, hmode, true_and] at h
      split at h
      · next hi =>
        cases h
        obtain ⟨tv', hok, htok', R'⟩ := transientVecTAssoc_represents R htok hi x
        exact ⟨.transient tv', by rw [step, hok]; rfl, rfl, htok', R'⟩
      · cases h
    | persistentBang =>
      simp only [absStep, hmode, if_true, Option.some.injEq] at h
      subst h
      obtain ⟨v, hok, R'⟩ := transientVecTPersistent_represents R htok
      exact ⟨.persistent v, by rw [step, hok]; rfl, rfl, R'⟩

/-- Run lemma: any sequence of operations the list allows. -/
theorem run_represents (fill : α) {thread : τ} {s : State τ α} {a a' : AbsState α}
    (R : s.Represents thread a) {ops : List (Op α)} (h : absRun a ops = some a') :
    ∃ s', run fill thread s ops = some s' ∧ s'.Represents thread a' := by
  induction ops generalizing s a with
  | nil =>
    cases h
    exact ⟨s, rfl, R⟩
  | cons op ops ih =>
    unfold absRun at h
    rw [List.foldlM_cons] at h
    obtain ⟨a₁, h₁, h⟩ := Option.bind_eq_some_iff.mp h
    obtain ⟨s₁, hstep, R₁⟩ := step_represents fill R h₁
    obtain ⟨s', hrun, R'⟩ := ih R₁ h
    refine ⟨s', ?_, R'⟩
    unfold run
    rw [List.foldlM_cons, hstep]
    exact hrun

/-- The vector trie refines a list: from any builder and through any operations
with indices in bounds, also in the middle of a session, the count is the length
of the list, an index in range reads its element, and any other index is not
found. -/
theorem vec_refines_list (fill : α) (thread : τ) (start : Start α) (ops : List (Op α))
    {a : AbsState α} (h : absRun ⟨start.elems, false⟩ ops = some a) :
    ∃ s, run fill thread (.persistent start.build) ops = some s ∧ s.count = a.elems.length ∧
      ∀ i : Int, s.ref i = listRef a.elems i := by
  have R : (State.persistent start.build : State τ α).Represents thread ⟨start.elems, false⟩ :=
    ⟨rfl, start.represents⟩
  obtain ⟨s, hrun, R'⟩ := run_represents fill R h
  exact ⟨s, hrun, R'.count, R'.ref⟩

end Runs

/-- 64 elements from the bulk builder, one conj that splits the root, and a read
in the middle of a session. -/
theorem vec_refines_list_session :
    ∃ s, run 0 () (.persistent (Start.filled 64 7).build)
        [.conj 1, .pop, .conj 2, .transient, .conjBang 3, .assocBang 5 8] = some s ∧
      s.count = 66 ∧ ∀ i : Int, s.ref i =
        listRef ((List.replicate 64 7).set 5 8 ++ [2, 3]) i :=
  vec_refines_list 0 () (.filled 64 7) _ (a := ⟨(List.replicate 64 7).set 5 8 ++ [2, 3], true⟩) rfl

end Fol.VecTrie
