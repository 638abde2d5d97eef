/-
Fol.SortedDict.Invariant — the separator invariant of the B+-tree.

A routing key is equal to the first key stored below the child on its right: leaf
splits, node splits and bulk load all choose it so. The search, however, goes
left of a routing key it meets (`bsearch-keys` is a lower bound), and so misses
exactly the keys that are routing keys on their own path. `routing` is that
condition, `Route` the shape of a node around the child the search descends to.
-/
import Fol.Lib.Chunks
import Fol.Lib.SortedBindings
import Fol.SortedDict.Tree

namespace Fol.SortedDict

open Lib Std

variable {κ ν : Type}

/-! ## §1 Bindings -/

/-- Induction over trees with one hypothesis for all children. -/
@[elab_as_elim, induction_eliminator]
theorem BTree.induction {motive : BTree κ ν → Prop}
    (leaf : ∀ keys vals, motive (.leaf keys vals))
    (node : ∀ keys children, (∀ c ∈ children, motive c) → motive (.node keys children))
    (t : BTree κ ν) : motive t :=
  BTree.rec (motive_1 := motive) (motive_2 := fun ts => ∀ c ∈ ts, motive c) leaf node
    (fun _ hc => absurd hc List.not_mem_nil)
    (fun _ _ hn hns c hc => (List.mem_cons.mp hc).elim (fun h => h ▸ hn) (hns c)) t

mutual

/-- The bindings below a node, from left to right. -/
def BTree.entries : BTree κ ν → List (κ × ν)
  | .leaf keys vals => keys.zip vals
  | .node _ children => entriesList children

def entriesList : List (BTree κ ν) → List (κ × ν)
  | [] => []
  | t :: ts => t.entries ++ entriesList ts

end

@[simp] theorem entries_leaf (keys : List κ) (vals : List ν) :
    (BTree.leaf keys vals).entries = keys.zip vals := rfl
@[simp] theorem entries_node (keys : List κ) (children : List (BTree κ ν)) :
    (BTree.node keys children).entries = entriesList children := rfl
@[simp] theorem entriesList_nil : entriesList ([] : List (BTree κ ν)) = [] := rfl
@[simp] theorem entriesList_cons (t : BTree κ ν) (ts : List (BTree κ ν)) :
    entriesList (t :: ts) = t.entries ++ entriesList ts := rfl

@[simp] theorem entriesList_append (l r : List (BTree κ ν)) :
    entriesList (l ++ r) = entriesList l ++ entriesList r := by
  induction l with
  | nil => rfl
  | cons t ts ih => simp [ih]

/-- The bindings of a root. -/
def rootEntries (root : Option (BTree κ ν)) : List (κ × ν) := root.elim [] BTree.entries

/-! ## §2 Search -/

section Search

variable (cmp : κ → κ → Ordering)

/-- The loop keeps the lower bound between its two ends. -/
theorem bsearchLoop_spec [TransCmp cmp] {keys : List κ} (key : κ)
    (hs : keys.Pairwise fun a b => (cmp a b).isLE) (fuel low high : Nat) (hle : low ≤ high)
    (hhigh : high ≤ keys.length) (hfuel : high - low ≤ fuel)
    (hbelow : ∀ i k, keys[i]? = some k → i < low → cmp key k = .gt)
    (habove : ∀ i k, keys[i]? = some k → high ≤ i → (cmp key k).isLE) :
    (∀ i k, keys[i]? = some k → i < bsearchLoop cmp keys key fuel low high → cmp key k = .gt) ∧
      (∀ i k, keys[i]? = some k → bsearchLoop cmp keys key fuel low high ≤ i →
        (cmp key k).isLE) ∧
      bsearchLoop cmp keys key fuel low high ≤ keys.length := by
  induction fuel generalizing low high with
  | zero =>
    obtain rfl : low = high := by omega
    exact ⟨hbelow, habove, hhigh⟩
  | succ fuel ih =>
    rw [bsearchLoop]
    by_cases hlt : low < high
    · rw [if_pos hlt]
      have hmid : (low + high) >>> 1 = (low + high) / 2 := by rw [Nat.shiftRight_eq_div_pow]
      have hmidlt : (low + high) / 2 < keys.length := by omega
      have hk : keys[(low + high) / 2]? = some keys[(low + high) / 2] :=
        List.getElem?_eq_getElem hmidlt
      simp only [hmid, hk]
      -- the keys on either side of the middle compare with it
      have hord : ∀ (i j : Nat) (a b : κ), keys[i]? = some a → keys[j]? = some b → i < j →
          (cmp a b).isLE := by
        intro i j a b hi hj hij
        obtain ⟨hi', rfl⟩ := List.getElem?_eq_some_iff.mp hi
        obtain ⟨hj', rfl⟩ := List.getElem?_eq_some_iff.mp hj
        exact List.pairwise_iff_getElem.mp hs i j hi' hj' hij
      by_cases hc : (cmp key keys[(low + high) / 2]).isLE
      · rw [if_pos hc]
        refine ih low _ (by omega) (by omega) (by omega) hbelow fun i k hi hge => ?_
        rcases Nat.eq_or_lt_of_le hge with rfl | hgt
        · rw [hk] at hi
          cases hi
          exact hc
        · exact TransCmp.isLE_trans hc (hord _ _ _ _ hk hi hgt)
      · rw [if_neg hc]
        have hgt : cmp key keys[(low + high) / 2] = .gt := by
          cases hcmp : cmp key keys[(low + high) / 2] with
          | gt => rfl
          | lt => rw [hcmp] at hc; exact absurd rfl hc
          | eq => rw [hcmp] at hc; exact absurd rfl hc
        refine ih _ high (by omega) (by omega) (by omega) (fun i k hi hlt' => ?_) habove
        rcases Nat.lt_or_ge i ((low + high) / 2) with hi' | hi'
        · have hlow := hord _ _ _ _ hi hk hi'
          exact OrientedCmp.gt_of_lt
            (TransCmp.lt_of_isLE_of_lt hlow (OrientedCmp.lt_of_gt hgt))
        · obtain rfl : i = (low + high) / 2 := by omega
          rw [hk] at hi
          cases hi
          exact hgt
    · rw [if_neg hlt]
      obtain rfl : low = high := by omega
      exact ⟨hbelow, habove, hhigh⟩

/-- `bsearch-keys` splits keys in order into those below the key and the rest. -/
theorem bsearchKeys_split_isLE [TransCmp cmp] {keys : List κ}
    (hs : keys.Pairwise fun a b => (cmp a b).isLE) (key : κ) :
    ∃ ls rs, keys = ls ++ rs ∧ bsearchKeys cmp keys key = ls.length ∧
      (∀ s ∈ ls, cmp key s = .gt) ∧ ∀ s ∈ rs, (cmp key s).isLE := by
  obtain ⟨hbelow, habove, hle⟩ := bsearchLoop_spec cmp key hs keys.length 0 keys.length
    (Nat.zero_le _) le_rfl le_rfl (fun i k _ hi => absurd hi (Nat.not_lt_zero i))
    fun i k hi hge => by
      rw [List.getElem?_eq_none hge] at hi
      cases hi
  rw [← bsearchKeys] at hbelow habove hle
  refine ⟨keys.take (bsearchKeys cmp keys key), keys.drop (bsearchKeys cmp keys key),
    (List.take_append_drop _ _).symm, by rw [List.length_take, Nat.min_eq_left hle],
    fun s hs => ?_, fun s hs => ?_⟩
  · obtain ⟨i, hi⟩ := List.mem_iff_getElem?.mp hs
    rw [List.getElem?_take] at hi
    split at hi
    · next hlt => exact hbelow i s hi hlt
    · cases hi
  · obtain ⟨i, hi⟩ := List.mem_iff_getElem?.mp hs
    rw [List.getElem?_drop] at hi
    exact habove _ s hi (Nat.le_add_right _ _)

theorem isLE_of_lt {keys : List κ} (hs : keys.Pairwise fun a b => cmp a b = .lt) :
    keys.Pairwise fun a b => (cmp a b).isLE :=
  hs.imp fun h => by rw [h]; rfl

/-- `bsearch-keys` splits the sorted keys into those below the key and the rest. -/
theorem bsearchKeys_split [TransCmp cmp] {keys : List κ}
    (hs : keys.Pairwise fun a b => cmp a b = .lt) (key : κ) :
    ∃ ls rs, keys = ls ++ rs ∧ bsearchKeys cmp keys key = ls.length ∧
      (∀ s ∈ ls, cmp key s = .gt) ∧ ∀ s ∈ rs, (cmp key s).isLE :=
  bsearchKeys_split_isLE cmp (isLE_of_lt cmp hs) key

theorem hit_split (ls rs : List κ) (key : κ) :
    hit cmp (ls ++ rs) key ls.length = rs.head?.any fun k => (cmp key k).isEq := by
  unfold hit
  rw [List.getElem?_append_right le_rfl, Nat.sub_self]
  cases rs <;> rfl

/-! ## §3 The separator invariant -/

/-- The first binding below `t` has the key `s`, where there is a key `s`. -/
def HeadKey (o : Option κ) (t : BTree κ ν) : Prop :=
  ∀ s, o = some s → ∃ e es, t.entries = e :: es ∧ cmp s e.1 = .eq

theorem headKey_none (t : BTree κ ν) : HeadKey cmp none t := by
  intro s hs
  cases hs

/-- The separators in front of the children: none in front of the first. -/
def seps (keys : List κ) : List (Option κ) := none :: keys.map some

mutual

/-- A leaf has keys, in order, and as many values; every routing key is the first
key below the child behind it, and the bindings are in order throughout. -/
def BTree.Wf : BTree κ ν → Prop
  | .leaf keys vals =>
    keys ≠ [] ∧ keys.length = vals.length ∧ keys.Pairwise fun a b => cmp a b = .lt
  | .node keys children =>
    WfList children ∧ List.Forall₂ (HeadKey cmp) (seps keys) children ∧
      Sorted cmp (entriesList children)

def WfList : List (BTree κ ν) → Prop
  | [] => True
  | t :: ts => t.Wf ∧ WfList ts

end

theorem wfList_iff {ts : List (BTree κ ν)} : WfList cmp ts ↔ ∀ t ∈ ts, t.Wf cmp := by
  induction ts with
  | nil => simp [WfList]
  | cons t ts ih => simp [WfList, ih]

theorem wf_node_iff {keys : List κ} {children : List (BTree κ ν)} :
    (BTree.node keys children).Wf cmp ↔ (∀ c ∈ children, c.Wf cmp) ∧
      List.Forall₂ (HeadKey cmp) (seps keys) children ∧ Sorted cmp (entriesList children) := by
  rw [BTree.Wf, wfList_iff]

theorem sorted_zip {keys : List κ} {vals : List ν} (h : keys.length = vals.length) :
    Sorted cmp (keys.zip vals) ↔ keys.Pairwise fun a b => cmp a b = .lt := by
  unfold Sorted
  have hmap : (keys.zip vals).map Prod.fst = keys := List.map_fst_zip (Nat.le_of_eq h)
  conv_rhs => rw [← hmap, List.pairwise_map]

variable {cmp}

theorem BTree.Wf.sorted {t : BTree κ ν} (h : t.Wf cmp) : Sorted cmp t.entries := by
  cases t with
  | leaf keys vals =>
    obtain ⟨-, hlen, hs⟩ := h
    exact (sorted_zip cmp hlen).mpr hs
  | node keys children => exact ((wf_node_iff cmp).mp h).2.2

theorem BTree.Wf.entries_ne_nil {t : BTree κ ν} (h : t.Wf cmp) : t.entries ≠ [] := by
  induction t with
  | leaf keys vals =>
    obtain ⟨hne, hlen, -⟩ := h
    intro hnil
    have hz := congrArg List.length hnil
    rw [entries_leaf, List.length_zip, ← hlen, Nat.min_self] at hz
    exact hne (List.length_eq_zero_iff.mp hz)
  | node keys children ih =>
    obtain ⟨hwf, hroute, -⟩ := (wf_node_iff cmp).mp h
    cases hroute with
    | cons _ _ =>
      rw [entries_node, entriesList_cons]
      intro hnil
      exact ih _ List.mem_cons_self (hwf _ List.mem_cons_self) (List.append_eq_nil_iff.mp hnil).1

/-- Every separator is a key below the children behind it. -/
theorem exists_headKey {keys : List κ} {children : List (BTree κ ν)}
    (hroute : List.Forall₂ (HeadKey cmp) (keys.map some) children) {s : κ} (hs : s ∈ keys) :
    ∃ e ∈ entriesList children, cmp s e.1 = .eq := by
  induction keys generalizing children with
  | nil => exact absurd hs List.not_mem_nil
  | cons s' keys ih =>
    obtain ⟨c, cs, hhead, hrest, rfl⟩ := List.forall₂_cons_left_iff.mp hroute
    rcases List.mem_cons.mp hs with rfl | hs
    · obtain ⟨e, es, hes, hse⟩ := hhead s rfl
      exact ⟨e, by rw [entriesList_cons, hes]; simp, hse⟩
    · obtain ⟨e, he, hse⟩ := ih hrest hs
      exact ⟨e, by rw [entriesList_cons]; exact List.mem_append_right _ he, hse⟩

/-- Separators in front of sorted children are sorted. -/
theorem keys_sorted [TransCmp cmp] {keys : List κ} {children : List (BTree κ ν)}
    (hroute : List.Forall₂ (HeadKey cmp) (keys.map some) children)
    (hs : Sorted cmp (entriesList children)) : keys.Pairwise fun a b => cmp a b = .lt := by
  induction keys generalizing children with
  | nil => exact List.Pairwise.nil
  | cons s keys ih =>
    obtain ⟨c, cs, hhead, hrest, rfl⟩ := List.forall₂_cons_left_iff.mp hroute
    obtain ⟨-, hsr, hlt⟩ := sorted_append.mp hs
    refine List.pairwise_cons.mpr ⟨fun s' hs' => ?_, ih hrest hsr⟩
    obtain ⟨e, es, hes, hse⟩ := hhead s rfl
    -- the child behind `s'` stands to the right of the child behind `s`
    obtain ⟨e', he', hse'⟩ := exists_headKey hrest hs'
    have hee := hlt e (by rw [hes]; exact List.mem_cons_self) e' he'
    exact TransCmp.lt_of_lt_of_eq (TransCmp.lt_of_eq_of_lt hse hee) (OrientedCmp.eq_symm hse')

/-! ## §4 Descent -/

/-- A node around the child `c` that the search for `key` descends to: the
separators and children to its left and right, and what is known of them. -/
structure Route (cmp : κ → κ → Ordering) (key : κ) (keys : List κ) (children : List (BTree κ ν))
    (ls rs : List κ) (L : List (BTree κ ν)) (c : BTree κ ν) (R : List (BTree κ ν))
    (A : List (Option κ)) (o : Option κ) : Prop where
  keys_eq : keys = ls ++ rs
  children_eq : children = L ++ c :: R
  seps_eq : none :: ls.map some = A ++ [o]
  idx : bsearchKeys cmp keys key = ls.length
  length_left : L.length = ls.length
  left : List.Forall₂ (HeadKey cmp) A L
  here : HeadKey cmp o c
  right : List.Forall₂ (HeadKey cmp) (rs.map some) R
  below : Below cmp (entriesList L) key
  free : ∀ s, o = some s → cmp key s = .gt
  rest : ∀ s ∈ rs, (cmp key s).isLE

theorem exists_route [TransCmp cmp] {keys : List κ} {children : List (BTree κ ν)}
    (h : (BTree.node keys children).Wf cmp) (key : κ) :
    ∃ ls rs L c R A o, Route cmp key keys children ls rs L c R A o := by
  obtain ⟨hwf, hroute, hs⟩ := (wf_node_iff cmp).mp h
  have hkeys : keys.Pairwise fun a b => cmp a b = .lt := by
    obtain ⟨c₀, cs, -, hrest, rfl⟩ := List.forall₂_cons_left_iff.mp hroute
    exact keys_sorted hrest (sorted_append.mp hs).2.1
  obtain ⟨ls, rs, hsplit, hidx, hls, hrs⟩ := bsearchKeys_split cmp hkeys key
  obtain ⟨A, o, hseps⟩ : ∃ A o, (none :: ls.map some : List (Option κ)) = A ++ [o] :=
    ⟨_, _, (List.dropLast_append_getLast (List.cons_ne_nil _ _)).symm⟩
  have hall : seps keys = A ++ o :: rs.map some := by
    rw [seps, hsplit, List.map_append, ← List.cons_append, hseps, List.append_assoc]
    rfl
  rw [hall] at hroute
  obtain ⟨L, R', rfl, hL, hR'⟩ := forall₂_append_left.mp hroute
  obtain ⟨c, R, hc, hR, rfl⟩ := List.forall₂_cons_left_iff.mp hR'
  have hlen : L.length = ls.length := by
    have h1 := hL.length_eq
    have h2 := congrArg List.length hseps
    simp only [List.length_cons, List.length_map, List.length_append, List.length_nil] at h2
    omega
  have hfree : ∀ s, o = some s → cmp key s = .gt := by
    rintro s rfl
    have hmem : (some s) ∈ (none :: ls.map some : List (Option κ)) := by rw [hseps]; simp
    rcases List.mem_cons.mp hmem with h0 | hmem
    · cases h0
    · obtain ⟨s', hs', heq⟩ := List.mem_map.mp hmem
      cases heq
      exact hls s hs'
  refine ⟨ls, rs, L, c, R, A, o, hsplit, rfl, hseps, hidx, hlen, hL, hc, hR, ?_, hfree, hrs⟩
  cases ls with
  | nil =>
    rw [List.length_eq_zero_iff.mp hlen]
    exact Below.nil key
  | cons s₀ ls =>
    -- the separator in front of `c` is above everything to the left of `c`
    obtain ⟨s, rfl⟩ : ∃ s, o = some s := by
      have hlast := congrArg List.getLast? hseps
      rw [List.getLast?_append, List.getLast?_singleton, Option.some_or, List.map_cons,
        List.getLast?_cons_cons, ← List.map_cons, List.getLast?_map] at hlast
      obtain ⟨s, -, hs'⟩ := Option.map_eq_some_iff.mp hlast
      exact ⟨s, hs'.symm⟩
    obtain ⟨e, es, hes, hse⟩ := hc s rfl
    intro a ha
    rw [entriesList_append] at hs
    have hae := (sorted_append.mp hs).2.2 a ha e (by rw [entriesList_cons, hes]; simp)
    exact TransCmp.lt_trans (TransCmp.lt_of_lt_of_eq hae (OrientedCmp.eq_symm hse))
      (OrientedCmp.lt_of_gt (hfree s rfl))

/-- Where the search does not meet the key as a separator, all to the right of
the child is above the key. -/
theorem Route.above [TransCmp cmp] {key : κ} {keys ls rs : List κ} {children L R : List (BTree κ ν)}
    {c : BTree κ ν} {A : List (Option κ)} {o : Option κ}
    (r : Route cmp key keys children ls rs L c R A o) (hs : Sorted cmp (entriesList children))
    (hhit : hit cmp keys key ls.length = false) : Above cmp key (entriesList R) := by
  rw [r.keys_eq, hit_split] at hhit
  cases rs with
  | nil =>
    rw [List.forall₂_nil_left_iff.mp r.right]
    exact Above.nil key
  | cons s rs =>
    obtain ⟨c₁, R', hhead, -, rfl⟩ := List.forall₂_cons_left_iff.mp r.right
    obtain ⟨e, es, hes, hse⟩ := hhead s rfl
    have hlt : cmp key s = .lt := by
      have hle := r.rest s List.mem_cons_self
      cases hcmp : cmp key s with
      | lt => rfl
      | eq => rw [List.head?_cons, Option.any_some, hcmp] at hhit; cases hhit
      | gt => rw [hcmp] at hle; cases hle
    have hke := TransCmp.lt_of_lt_of_eq hlt hse
    rw [r.children_eq, entriesList_append, entriesList_cons, entriesList_cons, hes] at hs
    have hR : Sorted cmp (e :: (es ++ entriesList R')) := by
      have := (sorted_append.mp (sorted_append.mp hs).2.1).2.1
      simpa using this
    rw [entriesList_cons, hes, List.cons_append]
    intro a ha
    rcases List.mem_cons.mp ha with rfl | ha
    · exact hke
    · exact TransCmp.lt_trans hke ((List.pairwise_cons.mp hR).1 a ha)

/-- Where the search meets the key as a separator, the key is bound on the right
of it, and everything below the child is smaller. -/
theorem Route.hit_right [TransCmp cmp] {key : κ} {keys ls rs : List κ}
    {children L R : List (BTree κ ν)} {c : BTree κ ν} {A : List (Option κ)} {o : Option κ}
    (r : Route cmp key keys children ls rs L c R A o) (hs : Sorted cmp (entriesList children))
    (hhit : hit cmp keys key ls.length = true) :
    (∃ e ∈ entriesList R, cmp key e.1 = .eq) ∧ Below cmp c.entries key := by
  rw [r.keys_eq, hit_split] at hhit
  cases rs with
  | nil => cases hhit
  | cons s rs =>
    obtain ⟨c₁, R', hhead, -, rfl⟩ := List.forall₂_cons_left_iff.mp r.right
    obtain ⟨e, es, hes, hse⟩ := hhead s rfl
    have heq : cmp key s = .eq := Ordering.isEq_iff_eq_eq.mp hhit
    have hke := TransCmp.eq_trans heq hse
    have hmem : e ∈ entriesList (c₁ :: R') := by rw [entriesList_cons, hes]; simp
    refine ⟨⟨e, hmem, hke⟩, fun a ha => ?_⟩
    rw [r.children_eq, entriesList_append, entriesList_cons] at hs
    have hae := (sorted_append.mp (sorted_append.mp hs).2.1).2.2 a ha e hmem
    exact TransCmp.lt_of_lt_of_eq hae (OrientedCmp.eq_symm hke)

end Search

end Fol.SortedDict
