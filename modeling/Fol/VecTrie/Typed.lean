/-
Fol.VecTrie.Typed — the instantiations of `define-pvec-trie` for `double-float`,
`single-float` and `fixnum` against the one for `t`.

The macro expands to the same code for every element type; what differs are the declared
types of the struct slots. A typed trie declares `root` a `(simple-array t (*))` and
keeps its elements in specialized arrays, so a lone leaf does not fit the slot.
-/
import Fol.VecTrie.Refinement

namespace Fol.VecTrie

variable {τ α β : Type}

/-! ## §1 Declared types -/

/-- The element types `define-pvec-trie` is instantiated for. -/
inductive ElementType where
  | doubleFloat
  | singleFloat
  | fixnum
  | t
deriving DecidableEq

/-- Is the value of the declared type of the `root` slot? An inner node is a simple
vector; a leaf is one for the element type `t` only. -/
def rootSlotAccepts (type : ElementType) : Slot α → Bool
  | .node _ => true
  | .leaf _ => type == .t
  | .nil | .unset => false

def State.root : State τ α → Slot α
  | .persistent v => v.root
  | .transient tv => tv.root

/-- The struct's slots hold values of their declared types. The tail is an array of
elements by its Lean type. -/
def State.Fits (type : ElementType) (s : State τ α) : Prop := rootSlotAccepts type s.root = true

/-! ## §2 Reads -/

def Start.map (f : α → β) : Start α → Start β
  | .fromList xs => .fromList (xs.map f)
  | .fromVector vec => .fromVector (vec.map f)
  | .filled size x => .filled size (f x)

def Op.map (f : α → β) : Op α → Op β
  | .conj x => .conj (f x)
  | .assoc i x => .assoc i (f x)
  | .pop => .pop
  | .transient => .transient
  | .conjBang x => .conjBang (f x)
  | .assocBang i x => .assocBang i (f x)
  | .persistentBang => .persistentBang

def AbsState.map (f : α → β) (a : AbsState α) : AbsState β := ⟨a.elems.map f, a.inSession⟩

theorem Start.elems_map (f : α → β) (start : Start α) :
    (start.map f).elems = start.elems.map f := by
  cases start <;> simp [Start.map, Start.elems]

theorem absStep_map (f : α → β) (a : AbsState α) (op : Op α) :
    absStep (a.map f) (op.map f) = (absStep a op).map (AbsState.map f) := by
  cases op with
  | conj x => cases h : a.inSession <;> simp [absStep, AbsState.map, Op.map, h]
  | assoc i x =>
    cases h : a.inSession <;> by_cases hi : a.elems.length ≤ i <;>
      simp [absStep, AbsState.map, Op.map, h, hi]
  | pop => cases h : a.inSession <;> simp [absStep, AbsState.map, Op.map, h, List.map_dropLast]
  | transient => cases h : a.inSession <;> simp [absStep, AbsState.map, Op.map, h]
  | conjBang x => cases h : a.inSession <;> simp [absStep, AbsState.map, Op.map, h]
  | assocBang i x =>
    cases h : a.inSession <;> by_cases hi : i < a.elems.length <;>
      simp [absStep, AbsState.map, Op.map, h, hi]
  | persistentBang => cases h : a.inSession <;> simp [absStep, AbsState.map, Op.map, h]

theorem absRun_map (f : α → β) (a : AbsState α) (ops : List (Op α)) :
    absRun (a.map f) (ops.map (Op.map f)) = (absRun a ops).map (AbsState.map f) := by
  induction ops generalizing a with
  | nil => rfl
  | cons op ops ih =>
    unfold absRun at ih ⊢
    rw [List.map_cons, List.foldlM_cons, List.foldlM_cons, absStep_map]
    cases absStep a op with
    | none => rfl
    | some a' => exact ih a'

theorem listRef_map (f : α → β) (xs : List α) (i : Int) :
    listRef (xs.map f) i = (listRef xs i).map f := by
  unfold listRef
  split <;> simp

/-! ## §3 Roots -/

/-- The value is an inner node. -/
def Slot.IsNode (s : Slot α) : Prop := ∃ slots, s = .node slots

theorem isNode_pushTail {shift idx : Nat} {root leaf : Slot α} (h : root.IsNode) :
    (pushTail shift root idx leaf).IsNode := by
  obtain ⟨slots, rfl⟩ := h
  unfold pushTail
  dsimp only
  split
  · exact ⟨_, rfl⟩
  · split <;> exact ⟨_, rfl⟩

theorem isNode_pushLeaf {cnt shift : Nat} {root leaf : Slot α} (h : root.IsNode) :
    (pushLeaf cnt shift root leaf).2.IsNode := by
  unfold pushLeaf
  split
  · exact ⟨_, rfl⟩
  · split
    · exact ⟨_, rfl⟩
    · exact isNode_pushTail h

theorem isNode_update [DecidableEq α] {levelShift index : Nat} {x : α} {root root' : Slot α}
    (h : root.IsNode) (hu : update levelShift index x root = some root') : root'.IsNode := by
  obtain ⟨slots, rfl⟩ := h
  unfold update at hu
  split at hu
  · cases hu
  · dsimp only at hu
    split at hu
    · obtain ⟨child, -, rfl⟩ := Option.map_eq_some_iff.mp hu
      exact ⟨_, rfl⟩
    · cases hu

section Steps

variable [DecidableEq τ] [DecidableEq α]

omit [DecidableEq α] in
theorem isNode_transientVecTConj {fill x : α} {thread : τ} {tv tv' : TransientVecT τ α}
    (h : tv.root.IsNode) (hok : transientVecTConj fill thread tv x = .ok tv') :
    tv'.root.IsNode := by
  unfold transientVecTConj at hok
  split at hok
  · cases hok
    dsimp only
    split
    · exact isNode_pushLeaf h
    · exact h
  · cases hok

theorem isNode_transientVecTAssoc {i : Int} {x : α} {thread : τ} {tv tv' : TransientVecT τ α}
    (h : tv.root.IsNode) (hok : transientVecTAssoc thread tv i x = .ok tv') : tv'.root.IsNode := by
  unfold transientVecTAssoc at hok
  split at hok
  · split at hok
    · cases hok
    · dsimp only at hok
      split at hok
      · cases hok
        exact h
      · cases hok
        cases hu : update tv.shift i.toNat x tv.root with
        | none => exact h
        | some root' => exact isNode_update h hu
  · cases hok

/-- The step lemma: an operation on a trie whose root is an inner node leaves it one. -/
theorem isNode_step {fill : α} {thread : τ} {s s' : State τ α} {op : Op α} (hop : op ≠ .pop)
    (h : s.root.IsNode) (hstep : step fill thread s op = some s') : s'.root.IsNode := by
  cases s with
  | persistent v =>
    cases op with
    | conj x =>
      cases hstep
      unfold State.root vecTConj
      dsimp only
      split
      · exact h
      · exact isNode_pushLeaf h
    | assoc i x =>
      cases hstep
      unfold State.root vecTAssoc
      dsimp only
      split
      · split <;> exact h
      · split
        · exact h
        · rename_i root' hu
          exact isNode_update h hu
    | pop => exact absurd rfl hop
    | transient =>
      cases hstep
      exact h
    | conjBang x => cases hstep
    | assocBang i x => cases hstep
    | persistentBang => cases hstep
  | transient tv =>
    cases op with
    | conj x => cases hstep
    | assoc i x => cases hstep
    | pop => cases hstep
    | transient => cases hstep
    | conjBang x =>
      rw [step] at hstep
      cases hok : transientVecTConj fill thread tv x with
      | error e => simp [hok, Except.toOption] at hstep
      | ok tv' =>
        rw [hok] at hstep
        cases hstep
        exact isNode_transientVecTConj h hok
    | assocBang i x =>
      rw [step] at hstep
      cases hok : transientVecTAssoc thread tv i x with
      | error e => simp [hok, Except.toOption] at hstep
      | ok tv' =>
        rw [hok] at hstep
        cases hstep
        exact isNode_transientVecTAssoc h hok
    | persistentBang =>
      rw [step] at hstep
      unfold transientVecTPersistent at hstep
      split at hstep
      · cases hstep
        exact h
      · cases hstep

/-- The run lemma. -/
theorem isNode_run {fill : α} {thread : τ} {s s' : State τ α} {ops : List (Op α)}
    (hpop : .pop ∉ ops) (h : s.root.IsNode) (hrun : run fill thread s ops = some s') :
    s'.root.IsNode := by
  induction ops generalizing s with
  | nil =>
    cases hrun
    exact h
  | cons op ops ih =>
    rw [run, List.foldlM_cons] at hrun
    obtain ⟨s₁, hstep, hrun⟩ := Option.bind_eq_some_iff.mp hrun
    rw [List.mem_cons, not_or] at hpop
    exact ih hpop.2 (isNode_step (Ne.symm hpop.1) h hstep) hrun

end Steps

/-! ## §4 Builders -/

theorem isNode_packLevel (nodes : List (Slot α)) : ∀ n ∈ packLevel nodes, n.IsNode := by
  induction nodes using packLevel.induct with
  | case1 => simp [packLevel]
  | case2 n ns ih =>
    rw [packLevel]
    exact List.forall_mem_cons.mpr ⟨⟨_, rfl⟩, ih⟩

theorem isNode_buildLevels {nodes : List (Slot α)} {shift : Nat} (h : ∀ n ∈ nodes, n.IsNode) :
    ∀ n ∈ (buildLevels nodes shift).1, n.IsNode := by
  induction nodes, shift using buildLevels.induct with
  | case1 nodes shift hle =>
    rw [buildLevels, if_pos hle]
    exact h
  | case2 nodes shift hlt ih =>
    rw [buildLevels, if_neg hlt]
    exact ih (isNode_packLevel nodes)

theorem buildLevels_ne_nil {nodes : List (Slot α)} {shift : Nat} (h : nodes ≠ []) :
    (buildLevels nodes shift).1 ≠ [] := by
  induction nodes, shift using buildLevels.induct with
  | case1 nodes shift hle =>
    rw [buildLevels, if_pos hle]
    exact h
  | case2 nodes shift hlt ih =>
    rw [buildLevels, if_neg hlt]
    refine ih fun hnil => hlt ?_
    have hlen := length_packLevel nodes
    rw [hnil, List.length_nil] at hlen
    omega

/-- The root a bulk builder makes of its leaves: the leaf itself when there is one. -/
theorem isNode_buildTree_iff {count : Nat} {leaves : List (Slot α)} {tail : List α}
    (hleaf : ∀ n ∈ leaves, ¬ n.IsNode) (hne : leaves ≠ []) :
    (buildTree count leaves tail).root.IsNode ↔ leaves.length ≠ 1 := by
  have hhead (levels : List (Slot α)) (hlevels : levels ≠ []) : levels.headD .nil ∈ levels := by
    obtain ⟨n, ns, rfl⟩ := List.exists_cons_of_ne_nil hlevels
    exact List.mem_cons_self
  unfold buildTree
  by_cases hlen : leaves.length ≤ 1
  · rw [buildLevels, if_pos hlen]
    have hone : leaves.length = 1 := by
      have := List.length_pos_iff.mpr hne
      omega
    exact iff_of_false (hleaf _ (hhead leaves hne)) (fun h => h hone)
  · rw [buildLevels, if_neg hlen]
    have hpack : packLevel leaves ≠ [] := by
      intro hnil
      have hlen' := length_packLevel leaves
      rw [hnil, List.length_nil] at hlen'
      omega
    refine iff_of_true ?_ (by omega)
    exact isNode_buildLevels (isNode_packLevel leaves) _ (hhead _ (buildLevels_ne_nil hpack))

/-- One full block in the tree: the sizes whose only leaf becomes the root. -/
theorem treeCount_one_iff {n m : Nat} (h : 32 < n) (hsplit : n = m * 32 + tailLength n) :
    m ≠ 1 ↔ ¬ (32 < n ∧ n ≤ 64) := by
  have hle := tailLength_le n
  have hpos : 0 < tailLength n := by
    rw [tailLength_eq, if_neg (by omega)]
    omega
  omega

theorem isNode_buildVecTFromList_iff (xs : List α) :
    (buildVecTFromList xs).root.IsNode ↔ ¬ (32 < xs.length ∧ xs.length ≤ 64) := by
  unfold buildVecTFromList
  by_cases hshort : xs.length ≤ 32
  · simp only [hshort, if_true]
    exact iff_of_true ⟨_, rfl⟩ (by omega)
  · obtain ⟨m, hcount, hshift, hpos, hsplit⟩ := treeCount_split (n := xs.length) (by omega)
    obtain ⟨ls, htake, hlen, -, -⟩ := takeLeaves_eq m xs (by omega)
    simp only [hshort, if_false, hcount, hshift, htake]
    rw [isNode_buildTree_iff, List.length_map, hlen]
    · exact treeCount_one_iff (by omega) hsplit
    · rintro n hn ⟨slots, rfl⟩
      obtain ⟨l, -, hl⟩ := List.mem_map.mp hn
      cases hl
    · rintro hnil
      rw [List.map_eq_nil_iff] at hnil
      rw [hnil, List.length_nil] at hlen
      omega

theorem isNode_makeFilledVecT_iff (size : Nat) (x : α) :
    (makeFilledVecT size x).root.IsNode ↔ ¬ (32 < size ∧ size ≤ 64) := by
  unfold makeFilledVecT
  by_cases hshort : size ≤ 32
  · simp only [hshort, if_true]
    exact iff_of_true ⟨_, rfl⟩ (by omega)
  · obtain ⟨m, hcount, hshift, hpos, hsplit⟩ := treeCount_split (n := size) (by omega)
    simp only [hshort, if_false, hcount, hshift]
    rw [isNode_buildTree_iff, List.length_replicate]
    · exact treeCount_one_iff (by omega) hsplit
    · rintro n hn ⟨slots, rfl⟩
      cases (List.eq_of_mem_replicate hn)
    · simp only [ne_eq, List.replicate_eq_nil_iff]
      omega

theorem isNode_start_iff (start : Start α) :
    start.build.root.IsNode ↔ ¬ (32 < start.elems.length ∧ start.elems.length ≤ 64) := by
  cases start with
  | fromList xs => exact isNode_buildVecTFromList_iff xs
  | fromVector vec =>
    rw [Start.build, buildVecTFromVector_eq]
    exact isNode_buildVecTFromList_iff vec.toList
  | filled size x =>
    rw [Start.elems, List.length_replicate]
    exact isNode_makeFilledVecT_iff size x

/-! ## §5 Main result -/

section DropIn

variable [DecidableEq τ] [DecidableEq α] [DecidableEq β]

/-- After every part of the operations the typed trie's slots hold values of their types,
and it reads as the trie for `t` does after the same operations on the same elements. -/
def DropIn (type : ElementType) (object : α → β) (fill : α) (fillT : β) (thread : τ)
    (start : Start α) (ops : List (Op α)) : Prop :=
  ∀ done, done <+: ops → ∃ s t,
    run fill thread (.persistent start.build) done = some s ∧
    run fillT thread (.persistent (start.map object).build) (done.map (Op.map object)) = some t ∧
    s.Fits type ∧ s.count = t.count ∧ ∀ i : Int, (s.ref i).map object = t.ref i

omit [DecidableEq τ] [DecidableEq α] [DecidableEq β] in
theorem absRun_prefix {a a' : AbsState α} {done ops : List (Op α)} (hpre : done <+: ops)
    (h : absRun a ops = some a') : ∃ a₁, absRun a done = some a₁ := by
  obtain ⟨rest, rfl⟩ := hpre
  rw [absRun, List.foldlM_append] at h
  obtain ⟨a₁, h₁, -⟩ := Option.bind_eq_some_iff.mp h
  exact ⟨a₁, h₁⟩

/-- The typed run and the run on objects, side by side. -/
theorem runs_agree (object : α → β) (fill : α) (fillT : β) (thread : τ) (start : Start α)
    {ops : List (Op α)} {a : AbsState α} (h : absRun ⟨start.elems, false⟩ ops = some a) :
    ∃ s t, run fill thread (.persistent start.build) ops = some s ∧
      run fillT thread (.persistent (start.map object).build) (ops.map (Op.map object)) = some t ∧
      s.count = t.count ∧ ∀ i : Int, (s.ref i).map object = t.ref i := by
  have R : (State.persistent start.build : State τ α).Represents thread ⟨start.elems, false⟩ :=
    ⟨rfl, start.represents⟩
  have Rt : (State.persistent (start.map object).build : State τ β).Represents thread
      ((⟨start.elems, false⟩ : AbsState α).map object) := by
    have hrep := (start.map object).represents
    rw [Start.elems_map] at hrep
    exact ⟨rfl, hrep⟩
  have ht : absRun ((⟨start.elems, false⟩ : AbsState α).map object) (ops.map (Op.map object)) =
      some (a.map object) := by rw [absRun_map, h]; rfl
  obtain ⟨s, hs, R'⟩ := run_represents fill R h
  obtain ⟨t, ht, Rt'⟩ := run_represents fillT Rt ht
  refine ⟨s, t, hs, ht, ?_, fun i => ?_⟩
  · rw [R'.count, Rt'.count, AbsState.map, List.length_map]
  · rw [R'.ref, Rt'.ref, AbsState.map, listRef_map]

omit [DecidableEq τ] [DecidableEq α] [DecidableEq β] in
theorem fits_iff_isNode {type : ElementType} (htype : type ≠ .t) (s : State τ α) :
    s.Fits type ↔ s.root.IsNode := by
  unfold State.Fits Slot.IsNode
  cases s.root <;> simp [rootSlotAccepts, htype]

/-- A typed trie is a drop-in instance of the generic one, through any conj, assoc and
transient operations, exactly when it was not built with 33 to 64 elements: the reads
always agree, and every other builder leaves an inner node in the root slot, which the
operations keep. -/
theorem typed_trie_drop_in_iff {type : ElementType} (htype : type ≠ .t) (object : α → β) (fill : α)
    (fillT : β) (thread : τ) (start : Start α) {ops : List (Op α)} (hpop : .pop ∉ ops)
    {a : AbsState α} (h : absRun ⟨start.elems, false⟩ ops = some a) :
    DropIn type object fill fillT thread start ops ↔
      ¬ (32 < start.elems.length ∧ start.elems.length ≤ 64) := by
  rw [← isNode_start_iff]
  constructor
  · intro hdrop
    obtain ⟨s, t, hs, -, hfits, -⟩ := hdrop [] List.nil_prefix
    cases hs
    exact (fits_iff_isNode htype _).mp hfits
  · intro hroot done hdone
    obtain ⟨a₁, h₁⟩ := absRun_prefix hdone h
    obtain ⟨s, t, hs, ht, hcount, hread⟩ := runs_agree object fill fillT thread start h₁
    have hnode : s.root.IsNode :=
      isNode_run (fun hmem => hpop (hdone.subset hmem)) (s := .persistent start.build) hroot hs
    exact ⟨s, t, hs, ht, (fits_iff_isNode htype s).mpr hnode, hcount, hread⟩

end DropIn

/-- A conj on an empty trie of fixnums, then a session. -/
theorem typed_trie_drop_in_iff_conj :
    DropIn .fixnum
    (fun n : Nat => (n : Int)) 0 0 () (.fromList []) [.conj 1, .transient, .conjBang 2] ↔
      ¬ (32 < (Start.fromList ([] : List Nat)).elems.length ∧
        (Start.fromList ([] : List Nat)).elems.length ≤ 64) :=
  typed_trie_drop_in_iff (by decide) _ 0 0 () (.fromList []) (by decide)
    (a := ⟨[1, 2], true⟩) rfl

/-- A trie built from 33 doubles has the leaf itself in its root slot. -/
theorem lone_leaf_in_root_slot :
    ¬ DropIn .doubleFloat (fun n : Nat => (n : Int)) 0 0 () (.filled 33 7) [] := by
  intro hdrop
  obtain ⟨s, t, hs, -, hfits, -⟩ := hdrop [] List.nil_prefix
  cases hs
  rw [fits_iff_isNode (by decide)] at hfits
  exact (isNode_makeFilledVecT_iff 33 7).mp hfits (by decide)

end Fol.VecTrie
