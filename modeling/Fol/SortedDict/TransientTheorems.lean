/-
Fol.SortedDict.TransientTheorems — the transient B+-tree does what the persistent one does.

A transient node stands for the persistent node of its first elements: `Stands` says nothing of
what is behind the count. Each operation takes a node to one that stands for the result of the
persistent operation, and fails where that fails: shifting a range opens and closes the gaps that
`insert-at` and `remove-at` make, and both splits cut the same 33 elements.

  §1 Standing   — `Stands`, `StandsFirst`.
  §2 Editing    — `ensureEditableLeaf_spec`, `ensureEditableNode_spec`.
  §3 Lookup     — `btreeGetTransientAware_eq`.
  §4 Insertion  — `btreeAssocNodeBang_spec`.
  §5 Removal    — `btreeDissocNodeBang_spec`.
  §6 Sessions   — `transient_simulates`.
-/
import Fol.SortedDict.Removal
import Fol.SortedDict.Transient

namespace Fol.SortedDict

open Lib

variable {τ κ ν : Type}

/-- Induction over the nodes of a session with one hypothesis for all children. -/
@[elab_as_elim, induction_eliminator]
theorem TTree.induction {motive : TTree τ κ ν → Prop} (nil : motive .nil)
    (leaf : ∀ keys vals, motive (.leaf keys vals))
    (node : ∀ keys children, (∀ c ∈ children, motive c) → motive (.node keys children))
    (tleaf : ∀ token count keys vals, motive (.tleaf token count keys vals))
    (tnode : ∀ token count keys children, (∀ c ∈ children, motive c) →
      motive (.tnode token count keys children)) (t : TTree τ κ ν) : motive t :=
  TTree.rec (motive_1 := motive) (motive_2 := fun ts => ∀ c ∈ ts, motive c) nil leaf node tleaf
    tnode
    (fun _ hc => absurd hc List.not_mem_nil)
    (fun _ _ hn hns c hc => (List.mem_cons.mp hc).elim (fun h => h ▸ hn) (hns c)) t

/-! ## §1 Standing -/

section Standing

variable (token : τ)

mutual

/-- The node, of the session or persistent, stands for the persistent one. -/
@[grind =] def Stands (t : TTree τ κ ν) (p : BTree κ ν) : Prop :=
  match t with
  | .nil => False
  | .leaf keys vals => p = .leaf keys vals
  | .node keys children => ∃ cs, p = .node keys cs ∧ cs.length = children.length ∧
      StandsFirst children cs
  | .tleaf t count keys vals => t = token ∧ keys.length = 32 ∧ vals.length = 32 ∧ count ≤ 32 ∧
      p = .leaf (keys.take count) (vals.take count)
  | .tnode t count keys children => t = token ∧ keys.length = 32 ∧ children.length = 32 ∧
      count ≤ 32 ∧
      ∃ cs, p = .node (keys.take (count - 1)) cs ∧ cs.length = count ∧ StandsFirst children cs

/-- The first children stand for those of the persistent node. -/
@[grind =] def StandsFirst (children : List (TTree τ κ ν)) (cs : List (BTree κ ν)) : Prop :=
  match children, cs with
  | _, [] => True
  | [], _ :: _ => False
  | t :: ts, c :: cs => Stands t c ∧ StandsFirst ts cs

end

variable {token}

@[simp] theorem standsFirst_nil (children : List (TTree τ κ ν)) :
    StandsFirst token children [] := by
  cases children <;> simp [StandsFirst]

@[simp] theorem standsFirst_cons {t : TTree τ κ ν} {ts : List (TTree τ κ ν)} {c : BTree κ ν}
    {cs : List (BTree κ ν)} :
    StandsFirst token (t :: ts) (c :: cs) ↔ Stands token t c ∧ StandsFirst token ts cs := by
  rw [StandsFirst]

theorem StandsFirst.length_le {children : List (TTree τ κ ν)} {cs : List (BTree κ ν)}
    (h : StandsFirst token children cs) : cs.length ≤ children.length := by
  induction cs generalizing children with
  | nil => simp
  | cons c cs ih =>
    cases children with
    | nil => simp [StandsFirst] at h
    | cons t ts => simpa using ih (standsFirst_cons.mp h).2

/-- Around a child. -/
theorem StandsFirst.split {children : List (TTree τ κ ν)} {L' R' : List (BTree κ ν)}
    {c' : BTree κ ν} (h : StandsFirst token children (L' ++ c' :: R')) :
    ∃ L c R, children = L ++ c :: R ∧
      L.length = L'.length ∧ StandsFirst token L L' ∧ Stands token c c' ∧
      StandsFirst token R R' := by
  induction L' generalizing children with
  | nil =>
    cases children with
    | nil => simp [StandsFirst] at h
    | cons t ts =>
      obtain ⟨ht, hts⟩ := standsFirst_cons.mp h
      exact ⟨[], t, ts, rfl, rfl, standsFirst_nil _, ht, hts⟩
  | cons d L' ih =>
    cases children with
    | nil => simp [StandsFirst] at h
    | cons t ts =>
      obtain ⟨ht, hts⟩ := standsFirst_cons.mp h
      obtain ⟨L, c, R, rfl, hlen, hL, hc, hR⟩ := ih hts
      exact ⟨t :: L, c, R, rfl, by simp [hlen], standsFirst_cons.mpr ⟨ht, hL⟩, hc, hR⟩

theorem StandsFirst.append {L X : List (TTree τ κ ν)} {L' X' : List (BTree κ ν)}
    (hlen : L.length = L'.length) (hL : StandsFirst token L L') (hX : StandsFirst token X X') :
    StandsFirst token (L ++ X) (L' ++ X') := by
  induction L' generalizing L with
  | nil =>
    obtain rfl := List.length_eq_zero_iff.mp hlen
    exact hX
  | cons c L' ih =>
    cases L with
    | nil => cases hlen
    | cons t L =>
      obtain ⟨ht, hL⟩ := standsFirst_cons.mp hL
      exact standsFirst_cons.mpr ⟨ht, ih (by simpa using hlen) hL⟩

/-- What is behind the children is not looked at. -/
theorem StandsFirst.take_append {children : List (TTree τ κ ν)} {cs : List (BTree κ ν)}
    (h : StandsFirst token children cs) (junk : List (TTree τ κ ν)) :
    StandsFirst token (children.take cs.length ++ junk) cs := by
  induction cs generalizing children with
  | nil => simp
  | cons c cs ih =>
    cases children with
    | nil => simp [StandsFirst] at h
    | cons t ts =>
      obtain ⟨ht, hts⟩ := standsFirst_cons.mp h
      simpa using ⟨ht, ih hts⟩

theorem standsFirst_iff_forall₂ {children : List (TTree τ κ ν)} {cs : List (BTree κ ν)}
    (hlen : children.length = cs.length) :
    StandsFirst token children cs ↔ List.Forall₂ (Stands token) children cs := by
  induction children generalizing cs with
  | nil =>
    obtain rfl := List.length_eq_zero_iff.mp hlen.symm
    simp
  | cons t ts ih =>
    cases cs with
    | nil => cases hlen
    | cons c cs => rw [standsFirst_cons, List.forall₂_cons, ih (by simpa using hlen)]

/-- The node of a session froze into the persistent one. -/
theorem Stands.freeze {t : TTree τ κ ν} {p : BTree κ ν} (h : Stands token t p) :
    t.freeze = TTree.ofBTree p := by
  have hlist : ∀ (children : List (TTree τ κ ν)) (cs : List (BTree κ ν)),
      (∀ c ∈ children, ∀ p, Stands token c p → c.freeze = TTree.ofBTree p) →
      StandsFirst token children cs → freezeFirst children cs.length = ofBTreeList cs := by
    intro children cs ih h
    induction cs generalizing children with
    | nil => cases children <;> simp [freezeFirst, ofBTreeList]
    | cons c cs ihl =>
      cases children with
      | nil => simp [StandsFirst] at h
      | cons t ts =>
        obtain ⟨ht, hts⟩ := standsFirst_cons.mp h
        rw [List.length_cons, freezeFirst, ofBTreeList, ih t (by simp) c ht,
          ihl ts (fun c hc => ih c (by simp [hc])) hts]
  induction t generalizing p with
  | nil => simp [Stands] at h
  | leaf keys vals =>
    rw [Stands] at h
    subst h
    rfl
  | tleaf t count keys vals =>
    rw [Stands] at h
    obtain ⟨-, -, -, -, rfl⟩ := h
    rfl
  | node keys children ih =>
    rw [Stands] at h
    obtain ⟨cs, rfl, hlen, hfirst⟩ := h
    rw [TTree.freeze, TTree.ofBTree, ← hlen, hlist children cs (fun c hc p hp => ih c hc hp) hfirst]
  | tnode t count keys children ih =>
    rw [Stands] at h
    obtain ⟨-, -, -, -, cs, rfl, rfl, hfirst⟩ := h
    rw [TTree.freeze, TTree.ofBTree, hlist children cs (fun c hc p hp => ih c hc hp) hfirst]

theorem ofBTree_stands (p : BTree κ ν) : Stands token (TTree.ofBTree p) p := by
  induction p with
  | leaf keys vals => rw [TTree.ofBTree, Stands]
  | node keys children ih =>
    have hlist : ∀ cs : List (BTree κ ν), (∀ c ∈ cs, Stands token (TTree.ofBTree c) c) →
        cs.length = (ofBTreeList cs : List (TTree τ κ ν)).length ∧
        StandsFirst token (ofBTreeList cs) cs := by
      intro cs h
      induction cs with
      | nil => simp [ofBTreeList]
      | cons c cs ihl =>
        obtain ⟨hlen, hfirst⟩ := ihl fun d hd => h d (by simp [hd])
        simp [ofBTreeList, ← hlen, hfirst, h c (by simp)]
    rw [TTree.ofBTree, Stands]
    exact ⟨children, rfl, hlist children ih⟩

/-- The children of a node of the session, copied or not. -/
theorem Stands.children {t : TTree τ κ ν} {keys : List κ} {cs : List (BTree κ ν)}
    (h : Stands token t (.node keys cs)) : ∃ children, StandsFirst token children cs ∧
      ((∃ keys', t = .node keys' children) ∨ ∃ t' count keys',
        t = .tnode t' count keys' children) := by
  cases t with
  | nil => simp [Stands] at h
  | leaf keys' vals' =>
    rw [Stands] at h
    cases h
  | tleaf t count keys' vals' =>
    rw [Stands] at h
    obtain ⟨-, -, -, -, heq⟩ := h
    cases heq
  | node keys' children =>
    rw [Stands] at h
    obtain ⟨cs', heq, -, hfirst⟩ := h
    cases heq
    exact ⟨children, hfirst, .inl ⟨_, rfl⟩⟩
  | tnode t count keys' children =>
    rw [Stands] at h
    obtain ⟨-, -, -, -, cs', heq, -, hfirst⟩ := h
    cases heq
    exact ⟨children, hfirst, .inr ⟨_, _, _, rfl⟩⟩

end Standing

/-! ## §2 Editing -/

/-- The array holds the elements first. -/
def Holds {α : Type} (arr : List α) (elements : List α) : Prop :=
  arr.length = 32 ∧ ∃ junk, arr = elements ++ junk

theorem Holds.take {α : Type} {arr elements : List α} (h : Holds arr elements) :
    arr.take elements.length = elements := by
  obtain ⟨-, junk, rfl⟩ := h
  simp

theorem holds_of_take {α : Type} {arr : List α} (h : arr.length = 32) (n : Nat) :
    Holds arr (arr.take n) :=
  ⟨h, arr.drop n, (List.take_append_drop n arr).symm⟩

theorem Holds.getElem? {α : Type} {arr elements : List α} (h : Holds arr elements) {i : Nat}
    (hi : i < elements.length) : arr[i]? = elements[i]? := by
  obtain ⟨-, junk, rfl⟩ := h
  exact List.getElem?_append_left hi

/-- The editable leaf of the keys and values. -/
structure EditLeaf.Of (e : EditLeaf κ ν) (keys : List κ) (vals : List ν) : Prop where
  count : e.count = keys.length
  keys : Holds e.keys keys
  vals : Holds e.vals vals

theorem EditLeaf.Of.stands {e : EditLeaf κ ν} {keys : List κ} {vals : List ν} (h : e.Of keys vals)
    (hlen : vals.length = keys.length) (hmax : keys.length ≤ 32) (token : τ) :
    Stands token (e.toTree token) (.leaf keys vals) := by
  rw [EditLeaf.toTree, Stands]
  refine ⟨rfl, h.keys.1, h.vals.1, by rw [h.count]; exact hmax, ?_⟩
  rw [h.count, h.keys.take, ← hlen, h.vals.take]

/-- The editable node of the keys and children. -/
structure EditNode.Of (token : τ) (e : EditNode τ κ ν) (keys : List κ) (cs : List (BTree κ ν)) :
    Prop where
  count : e.count = cs.length
  keys : Holds e.keys keys
  length_children : e.children.length = 32
  children : StandsFirst token e.children cs

theorem EditNode.Of.stands {token : τ} {e : EditNode τ κ ν} {keys : List κ} {cs : List (BTree κ ν)}
    (h : e.Of token keys cs) (hlen : keys.length + 1 = cs.length) (hmax : cs.length ≤ 32) :
    Stands token (e.toTree token) (.node keys cs) := by
  rw [EditNode.toTree, Stands]
  refine ⟨rfl, h.keys.1, h.length_children, by rw [h.count]; exact hmax, cs, ?_, h.count.symm,
    h.children⟩
  have hkeys : e.count - 1 = keys.length := by
    rw [h.count]
    omega
  rw [hkeys, h.keys.take]

section Editing

variable [DecidableEq τ] (nilKey : κ) (nilVal : ν) {token : τ}

theorem copy_holds {α : Type} (filler : α) {arr elements : List α} {n : Nat} (hn : n ≤ arr.length)
    (helements : arr.take n = elements) (hmax : n ≤ 32) :
    ∃ new, replaceRange (List.replicate 32 filler) 0 arr 0 n = some new ∧ Holds new elements := by
  refine ⟨_, replaceRange_start hn helements (by simpa using hmax), ?_, _, rfl⟩
  rw [← helements]
  simp only [List.length_append, List.length_take, List.length_drop, List.length_replicate]
  omega

theorem ensureEditableLeaf_spec {t : TTree τ κ ν} {keys : List κ} {vals : List ν}
    (h : Stands token t (.leaf keys vals)) (hlen : vals.length = keys.length)
    (hmax : keys.length ≤ 32) :
    ∃ e, ensureEditableLeaf nilKey nilVal token t = some e ∧ e.Of keys vals := by
  cases t with
  | nil => simp [Stands] at h
  | node keys' children =>
    rw [Stands] at h
    obtain ⟨cs, heq, -⟩ := h
    cases heq
  | tnode t count keys' children =>
    rw [Stands] at h
    obtain ⟨-, -, -, -, cs, heq, -⟩ := h
    cases heq
  | leaf keys' vals' =>
    rw [Stands] at h
    cases h
    obtain ⟨newKeys, hk, hkeys⟩ := copy_holds nilKey (Nat.le_refl keys.length) List.take_length hmax
    obtain ⟨newVals, hv, hvals⟩ :=
      copy_holds nilVal (Nat.le_of_eq hlen.symm) (by rw [← hlen, List.take_length])
      hmax
    refine ⟨⟨keys.length, newKeys, newVals⟩, ?_, rfl, hkeys, hvals⟩
    rw [ensureEditableLeaf, copyLeaf, hk, hv]
    rfl
  | tleaf t count keys' vals' =>
    rw [Stands] at h
    obtain ⟨rfl, hk, hv, hcount, heq⟩ := h
    cases heq
    refine ⟨⟨count, keys', vals'⟩, by rw [ensureEditableLeaf, if_pos rfl], ?_, holds_of_take hk _,
      holds_of_take hv _⟩
    simp only [List.length_take]
    omega

theorem ensureEditableNode_spec {t : TTree τ κ ν} {keys : List κ} {cs : List (BTree κ ν)}
    (h : Stands token t (.node keys cs)) (hlen : keys.length + 1 = cs.length)
    (hmax : cs.length ≤ 32) :
    ∃ e, ensureEditableNode nilKey token t = some e ∧ e.Of token keys cs := by
  cases t with
  | nil => simp [Stands] at h
  | leaf keys' vals' =>
    rw [Stands] at h
    cases h
  | tleaf t count keys' vals' =>
    rw [Stands] at h
    obtain ⟨-, -, -, -, heq⟩ := h
    cases heq
  | node keys' children =>
    rw [Stands] at h
    obtain ⟨cs', heq, hcs, hfirst⟩ := h
    cases heq
    have hkeysLen : children.length - 1 = keys.length := by omega
    obtain ⟨newKeys, hk, hkeys⟩ :=
      copy_holds nilKey (Nat.le_refl keys.length) List.take_length (by omega)
    have hc : replaceRange (List.replicate 32 TTree.nil) 0 children 0 children.length =
        some (children ++ (List.replicate 32 TTree.nil).drop children.length) :=
      replaceRange_start (Nat.le_refl _) List.take_length (by simp; omega)
    refine ⟨⟨children.length, newKeys,
      children ++ (List.replicate 32 TTree.nil).drop children.length⟩, ?_,
      hcs.symm, hkeys, ?_, ?_⟩
    · rw [ensureEditableNode, copyNode, hkeysLen, hk, hc]
      rfl
    · simp only [List.length_append, List.length_drop, List.length_replicate]
      omega
    · have htake := hfirst.take_append ((List.replicate 32 TTree.nil).drop children.length)
      rwa [hcs, List.take_length] at htake
  | tnode t count keys' children =>
    rw [Stands] at h
    obtain ⟨rfl, hk, hc, hcount, cs', heq, hcs, hfirst⟩ := h
    cases heq
    exact ⟨⟨count, keys', children⟩, by rw [ensureEditableNode, if_pos rfl], hcs.symm,
      holds_of_take hk _, hc, hfirst⟩

end Editing

/-! ## §3 Lookup -/

section Lookup

variable (cmp : κ → κ → Ordering)

theorem bsearchLoop_append (keys junk : List κ) (key : κ) (fuel low high : Nat)
    (h : high ≤ keys.length) :
    bsearchLoop cmp (keys ++ junk) key fuel low high = bsearchLoop cmp keys key fuel low high := by
  induction fuel generalizing low high with
  | zero => rfl
  | succ fuel ih =>
    have hmid : (low + high) >>> 1 = (low + high) / 2 := by rw [Nat.shiftRight_eq_div_pow]
    rw [bsearchLoop, bsearchLoop]
    by_cases hlt : low < high
    · rw [if_pos hlt, if_pos hlt]
      simp only [hmid]
      rw [List.getElem?_append_left (by omega), List.getElem?_eq_getElem (by omega)]
      dsimp only
      split
      · exact ih _ _ (by omega)
      · exact ih _ _ h
    · rw [if_neg hlt, if_neg hlt]

theorem bsearchFirst_eq {arr keys : List κ} (h : Holds arr keys) (key : κ) :
    bsearchFirst cmp arr key keys.length = bsearchKeys cmp keys key := by
  obtain ⟨-, junk, rfl⟩ := h
  exact bsearchLoop_append cmp keys junk key _ _ _ (Nat.le_refl _)

theorem hitFirst_eq {arr keys : List κ} (h : Holds arr keys) (key : κ) (idx : Nat) :
    hitFirst cmp arr key idx keys.length = hit cmp keys key idx := by
  rw [hitFirst, hit]
  by_cases hidx : idx < keys.length
  · rw [h.getElem? hidx, decide_eq_true hidx, Bool.true_and]
  · have hnone : keys[idx]? = none := List.getElem?_eq_none (by omega)
    rw [decide_eq_false hidx, hnone]
    rfl

variable {cmp} {token : τ}

theorem getChildTransientAware_at (key : κ) (L R : List (TTree τ κ ν)) (c : TTree τ κ ν) :
    getChildTransientAware cmp key (L ++ c :: R) L.length = btreeGetTransientAware cmp key c := by
  induction L with
  | nil => rfl
  | cons t L ih => exact ih

/-- A lookup in a node of the session is one in the node it stands for. -/
theorem btreeGetTransientAware_eq {depth : Nat} {p : BTree κ ν} (hp : p.Shape depth)
    {t : TTree τ κ ν} (h : Stands token t p) (key : κ) :
    btreeGetTransientAware cmp key t = btreeGet cmp key p := by
  induction p generalizing depth t with
  | leaf keys vals =>
    cases hp with
    | leaf hlen hpos hmax =>
      cases t with
      | nil => simp [Stands] at h
      | leaf keys' vals' =>
        rw [Stands] at h
        cases h
        rfl
      | tleaf t count keys' vals' =>
        rw [Stands] at h
        obtain ⟨-, hk, hv, hcount, heq⟩ := h
        cases heq
        have hkeys := holds_of_take hk count
        have hcountLen : (keys'.take count).length = count := by
          simp only [List.length_take]
          omega
        rw [btreeGetTransientAware, btreeGet]
        have hidx : bsearchFirst cmp keys' key count = bsearchKeys cmp (keys'.take count) key := by
          rw [← bsearchFirst_eq cmp hkeys key, hcountLen]
        have hhit : ∀ idx,
          hitFirst cmp keys' key idx count = hit cmp (keys'.take count) key idx := by
          intro idx
          rw [← hitFirst_eq cmp hkeys, hcountLen]
        rw [hidx, hhit]
        split
        · next hh =>
          have hlt : bsearchKeys cmp (keys'.take count) key < count := by
            by_contra hge
            rw [hit, List.getElem?_eq_none (by omega)] at hh
            cases hh
          rw [List.getElem?_take_of_lt hlt]
        · rfl
      | node keys' children =>
        rw [Stands] at h
        obtain ⟨cs, heq, -⟩ := h
        cases heq
      | tnode t count keys' children =>
        rw [Stands] at h
        obtain ⟨-, -, -, -, cs, heq, -⟩ := h
        cases heq
  | node keys cs ih =>
    cases hp with
    | @node d _ _ hlen hmax hbelow =>
      obtain ⟨ls, rs, L', c', R', hkeys, hcs, hL', -, hidx⟩ :=
        exists_descent cmp (.node hlen hmax hbelow) key
      have hc' : c' ∈ cs := by rw [hcs]; simp
      have hpget : btreeGet cmp key (.node keys cs) = btreeGet cmp key c' := by
        rw [btreeGet, hidx, hcs, ← hL', getChild_at]
      rw [hpget]
      obtain ⟨children, hfirst, hshape⟩ := h.children
      rw [hcs] at hfirst
      obtain ⟨L, c, R, hsplit, hL, -, hc, -⟩ := hfirst.split
      have hrec := ih c' hc' (hbelow c' hc') hc
      rcases hshape with ⟨keys', rfl⟩ | ⟨t', count, keys', rfl⟩
      · rw [Stands] at h
        obtain ⟨cs', heq, -⟩ := h
        cases heq
        rw [btreeGetTransientAware, hidx, hsplit, ← hL', ← hL, getChildTransientAware_at, hrec]
      · rw [Stands] at h
        obtain ⟨-, hk, -, hcount, cs', heq, hcsLen, -⟩ := h
        cases heq
        have hcountLen : (keys'.take (count - 1)).length = count - 1 := by
          simp only [List.length_take]
          omega
        have hidx' : bsearchFirst cmp keys' key (count - 1) = ls.length := by
          rw [← hidx, ← bsearchFirst_eq cmp (holds_of_take hk (count - 1)) key, hcountLen]
        rw [btreeGetTransientAware, hidx', hsplit, ← hL', ← hL, getChildTransientAware_at, hrec]

end Lookup

/-! ## §4 Insertion -/

section Insertion

/-- An array with a gap opened for a new element. -/
theorem shiftRight_eq {α : Type} (l r : List α) (y : α) (junk : List α) (x : α) {count : Nat}
    (hcount : count = l.length + r.length) :
    shiftRight (l ++ (r ++ y :: junk)) l.length count x = some (l ++ (x :: r ++ junk)) := by
  rw [shiftRight, hcount, replaceRange_open]

theorem shiftRight_holds {α : Type} {arr l r : List α} (h : Holds arr (l ++ r))
    (hlt : (l ++ r).length < 32) (x : α) {count : Nat} (hcount : count = l.length + r.length) :
    ∃ new, shiftRight arr l.length count x = some new ∧ Holds new (l ++ x :: r) := by
  obtain ⟨hlen, junk, rfl⟩ := h
  cases junk with
  | nil => simp at hlen hlt; omega
  | cons y junk =>
    refine ⟨l ++ (x :: r ++ junk), ?_, ?_, junk, by simp⟩
    · rw [List.append_assoc]
      exact shiftRight_eq l r y junk x hcount
    · simp at hlen ⊢
      omega

/-- A new array with a new element among the old ones. -/
theorem insertInto_eq {α : Type} (filler : α) (l r junk : List α) (x : α) {count : Nat}
    (hcount : count = l.length + r.length) :
    insertInto filler count (l ++ (r ++ junk)) l.length x = some (l ++ x :: r) := by
  have hstart : replaceRange (List.replicate (count + 1) filler) 0 (l ++ (r ++ junk)) 0 l.length =
      some (l ++ filler :: List.replicate r.length filler) := by
    rw [replaceRange_start (by simp) List.take_left (by simp; omega)]
    have hdrop :
      (List.replicate (count + 1) filler).drop l.length = filler :: List.replicate r.length
      filler := by
      rw [List.drop_replicate, show count + 1 - l.length = r.length + 1 by omega]
      rfl
    rw [hdrop]
  have hset : (l ++ filler :: List.replicate r.length filler).set l.length x =
      (l ++ [x]) ++ List.replicate r.length filler := by simp
  have hrest : replaceRange ((l ++ [x]) ++ List.replicate r.length filler) (l ++ [x]).length
      (l ++ (r ++ junk)) l.length count = some ((l ++ [x]) ++ r) := by
    refine replaceRange_rest (by omega) (by simp; omega) ?_ (by simp; omega)
    rw [List.drop_left, hcount, Nat.add_sub_cancel_left, List.take_left]
  rw [List.length_append, List.length_singleton] at hrest
  rw [insertInto, hstart]
  simp only [Option.bind_eq_bind, Option.bind_some, hset, hrest]
  simp

variable {cmp : κ → κ → Ordering} {isNil : κ → Bool} {nilKey : κ} {nilVal : ν} {token : τ}

/-- Both insertions returned the same. -/
structure SameAssoc (token : τ) (r : TAssocResult τ κ ν) (r' : AssocResult κ ν) : Prop where
  node : Stands token r.node r'.node
  split : (r.split = none ∧ r'.split = none) ∨
    ∃ k a b, r.split = some (k, a) ∧ r'.split = some (k, b) ∧ Stands token a b
  oldVal : r.oldVal = r'.oldVal

theorem splitLeafBang_same (keys : List κ) (vals : List ν) :
    SameAssoc token (splitLeafBang keys vals) (splitLeaf keys vals) := by
  refine ⟨by rw [splitLeafBang, splitLeaf, Stands], ?_, rfl⟩
  rw [splitLeafBang, splitLeaf]
  cases keys[16]? with
  | none => exact .inl ⟨rfl, rfl⟩
  | some k => exact .inr ⟨k, _, _, rfl, rfl, by rw [Stands]⟩

theorem splitNodeBang_same (keys : List κ) {children : List (TTree τ κ ν)} {cs : List (BTree κ ν)}
    (hlen : children.length = cs.length) (h : StandsFirst token children cs) :
    SameAssoc token (splitNodeBang keys children) (splitNode keys cs) := by
  rw [standsFirst_iff_forall₂ hlen] at h
  have htake : StandsFirst token (children.take 17) (cs.take 17) :=
    (standsFirst_iff_forall₂ (by simp [hlen])).mpr (List.forall₂_take 17 h)
  have hdrop : StandsFirst token (children.drop 17) (cs.drop 17) :=
    (standsFirst_iff_forall₂ (by simp [hlen])).mpr (List.forall₂_drop 17 h)
  refine ⟨?_, ?_, rfl⟩
  · rw [splitNodeBang, splitNode, Stands]
    exact ⟨_, rfl, by simp [hlen], htake⟩
  · rw [splitNodeBang, splitNode]
    cases keys[16]? with
    | none => exact .inl ⟨rfl, rfl⟩
    | some k =>
      refine .inr ⟨k, _, _, rfl, rfl, ?_⟩
      rw [Stands]
      exact ⟨_, rfl, by simp [hlen], hdrop⟩

variable (cmp isNil nilKey nilVal token) in
theorem assocLeafBang_same {e : EditLeaf κ ν} {keys : List κ} {vals : List ν} (h : e.Of keys vals)
    (hlen : vals.length = keys.length) (hmax : keys.length ≤ 32) (key : κ) (val : ν) :
    ∃ r, assocLeafBang cmp nilKey nilVal token key val e = some r ∧
      SameAssoc token r (btreeAssocNode cmp isNil key val (.leaf keys vals)) := by
  obtain ⟨hcount, hkeys, hvals⟩ := h
  have hle := bsearchKeys_le cmp keys key
  rw [assocLeafBang, btreeAssocNode]
  simp only [hcount, bsearchFirst_eq cmp hkeys, hitFirst_eq cmp hkeys]
  generalize bsearchKeys cmp keys key = idx at hle
  split
  · next hhit =>
    have hlt : idx < vals.length := by
      by_contra hge
      rw [hit, List.getElem?_eq_none (by omega)] at hhit
      cases hhit
    have hset : (⟨keys.length, e.keys, e.vals.set idx val⟩ : EditLeaf κ ν).Of keys
      (vals.set idx val) := by
      obtain ⟨hlen32, junk, hjunk⟩ := hvals
      refine ⟨rfl, hkeys, by simpa using hlen32, junk, ?_⟩
      dsimp only
      rw [hjunk, List.set_append_left _ _ hlt]
    exact ⟨_, rfl, hset.stands (by simpa using hlen) hmax token, .inl ⟨rfl, rfl⟩,
      hvals.getElem? hlt⟩
  · have hkeysCut : keys = keys.take idx ++ keys.drop idx := (List.take_append_drop _ _).symm
    have hvalsCut : vals = vals.take idx ++ vals.drop idx := (List.take_append_drop _ _).symm
    have hki : (keys.take idx).length = idx := by simpa using hle
    have hvi : (vals.take idx).length = idx := by
      simp only [List.length_take]
      omega
    have hkc : keys.length = (keys.take idx).length + (keys.drop idx).length := by
      rw [← List.length_append, ← hkeysCut]
    have hvc : keys.length = (vals.take idx).length + (vals.drop idx).length := by
      rw [← List.length_append, ← hvalsCut, hlen]
    have hnewLen : (insertAt keys idx key).length = keys.length + 1 := length_insertAt hle key
    rw [hkeysCut] at hkeys
    rw [hvalsCut] at hvals
    by_cases hfull : keys.length < 32
    · obtain ⟨newKeys, hk, hnewKeys⟩ :=
        shiftRight_holds hkeys (by rw [← hkeysCut]; exact hfull) key hkc
      obtain ⟨newVals, hv, hnewVals⟩ :=
      shiftRight_holds hvals (by rw [← hvalsCut, hlen]; exact hfull) val hvc
      rw [hki] at hk
      rw [hvi] at hv
      have hof : (⟨keys.length + 1, newKeys, newVals⟩ : EditLeaf κ ν).Of (insertAt keys idx key)
          (insertAt vals idx val) := ⟨hnewLen.symm, hnewKeys, hnewVals⟩
      rw [if_pos hfull, if_pos (by rw [hnewLen, bTreeOrder]; omega), hk, hv]
      refine ⟨_, rfl, hof.stands ?_ (by omega) token, .inl ⟨rfl, rfl⟩, rfl⟩
      rw [length_insertAt (by omega : idx ≤ vals.length), hnewLen, hlen]
    · have h32 : keys.length = 32 := by omega
      obtain ⟨-, junkK, hjunkK⟩ := hkeys
      obtain ⟨-, junkV, hjunkV⟩ := hvals
      have hk := insertInto_eq nilKey (keys.take idx) (keys.drop idx) junkK key (h32.symm.trans hkc)
      have hv := insertInto_eq nilVal (vals.take idx) (vals.drop idx) junkV val (h32.symm.trans hvc)
      rw [hki, ← List.append_assoc, ← hjunkK] at hk
      rw [hvi, ← List.append_assoc, ← hjunkV] at hv
      rw [if_neg hfull, if_neg (by rw [hnewLen, bTreeOrder]; omega), hk, hv]
      exact ⟨_, rfl, splitLeafBang_same _ _⟩

/-- The children of an editable node, one of them replaced. -/
theorem StandsFirst.set {L R : List (TTree τ κ ν)} {L' R' : List (BTree κ ν)} {a : TTree τ κ ν}
    {a' : BTree κ ν} (hlen : L.length = L'.length) (hL : StandsFirst token L L')
    (ha : Stands token a a') (hR : StandsFirst token R R') :
    StandsFirst token (L ++ a :: R) (L' ++ a' :: R') :=
  hL.append hlen (standsFirst_cons.mpr ⟨ha, hR⟩)

variable (isNil nilKey) in
theorem assocParentBang_same {depth : Nat} {e : EditNode τ κ ν} {keys ls rs : List κ}
    {cs L' R' : List (BTree κ ν)} {c' : BTree κ ν} (h : e.Of token keys cs)
    (hp : (BTree.node keys cs).Shape (depth + 1)) (hkeys : keys = ls ++ rs)
    (hcs : cs = L' ++ c' :: R') (hL' : L'.length = ls.length) (hR' : R'.length = rs.length)
    {r : TAssocResult τ κ ν} {r' : AssocResult κ ν} (hr : SameAssoc token r r') :
    ∃ q, assocParentBang isNil nilKey token e ls.length r = some q ∧
      SameAssoc token q (assocParent isNil keys cs ls.length r') := by
  cases hp with
  | node hlen hmax _ =>
    obtain ⟨hcount, hkeysHold, hchildrenLen, hchildren⟩ := h
    rw [hcs] at hchildren
    obtain ⟨L, c, R, hsplit, hL, hstandsL, -, hstandsR⟩ := hchildren.split
    have hLls : L.length = ls.length := hL.trans hL'
    have hset : e.children.set ls.length r.node = L ++ r.node :: R := by rw [hsplit, ← hLls, set_at]
    have hset' : cs.set ls.length r'.node = L' ++ r'.node :: R' := by rw [hcs, ← hL', set_at]
    have hcsLen : cs.length = ls.length + 1 + rs.length := by
      rw [hcs, List.length_append, List.length_cons, hL', hR']
      omega
    have hkept :
      Stands token (({ e with children := L ++ r.node :: R } : EditNode τ κ ν).toTree token)
        (.node keys (L' ++ r'.node :: R')) := by
      refine EditNode.Of.stands ⟨?_, hkeysHold, ?_, hstandsL.set hL hr.node hstandsR⟩ ?_ ?_
      · rw [hcount, hcsLen, List.length_append, List.length_cons, hL', hR']
        omega
      · rw [hsplit] at hchildrenLen
        simpa using hchildrenLen
      · rw [hlen, hcsLen, List.length_append, List.length_cons, hL', hR']
        omega
      · rw [List.length_append, List.length_cons, hL', hR']
        omega
    rw [assocParentBang, assocParent]
    simp only [hset, hset', hr.oldVal]
    by_cases hold : r'.oldVal.isSome = true
    · rw [if_pos hold, if_pos hold]
      exact ⟨_, rfl, hkept, .inl ⟨rfl, rfl⟩, rfl⟩
    · rw [if_neg hold, if_neg hold]
      rcases hr.split with ⟨hs, hs'⟩ | ⟨k, a, b, hs, hs', hab⟩
      · rw [hs, hs']
        exact ⟨_, rfl, hkept, .inl ⟨rfl, rfl⟩, rfl⟩
      · rw [hs, hs', Option.filter_some, Option.filter_some]
        cases hnil : !isNil k with
        | false => exact ⟨_, rfl, hkept, .inl ⟨rfl, rfl⟩, rfl⟩
        | true =>
          simp only [if_true]
          have hnewKeys : insertAt keys ls.length k = ls ++ k :: rs := by rw [hkeys, insertAt_at]
          have hnewCs : cs.take ls.length ++ r'.node :: b :: cs.drop (ls.length + 1) =
              L' ++ r'.node :: b :: R' := by
            rw [hcs, ← hL']
            simp
          have hnewCsLen : (L' ++ r'.node :: b :: R').length = cs.length + 1 := by
            rw [hcsLen, List.length_append, List.length_cons, List.length_cons, hL', hR']
            omega
          have hkeysLen : keys.length = ls.length + rs.length := by rw [hkeys, List.length_append]
          have hR : R'.length ≤ R.length := hstandsR.length_le
          -- the children in use, and what is behind them
          have hRcut : R = R.take rs.length ++ R.drop rs.length := (List.take_append_drop _ _).symm
          have hRtake : (R.take rs.length).length = rs.length := by
            simp only [List.length_take]
            omega
          have htotal : L.length + 1 + R.length = 32 := by
            rw [hsplit] at hchildrenLen
            simpa [Nat.add_assoc, Nat.add_comm, Nat.add_left_comm] using hchildrenLen
          rw [hnewKeys, hnewCs, hnewCsLen, hcount]
          rw [hkeys] at hkeysHold
          by_cases hfull : cs.length < 32
          · rw [if_pos hfull, if_pos (by rw [bTreeOrder]; omega)]
            have hkeysCount : cs.length - 1 = ls.length + rs.length := by omega
            obtain ⟨newKeys, hk, hnewHold⟩ :=
            shiftRight_holds hkeysHold (by rw [List.length_append]; omega) k
              hkeysCount
            have hchildrenHold :
              Holds (L ++ r.node :: R) ((L ++ [r.node]) ++ R.take rs.length) := by
              refine ⟨?_, R.drop rs.length, ?_⟩
              · simp only [List.length_append, List.length_cons]
                omega
              · simp
            have hchildrenCount :
              cs.length = (L ++ [r.node]).length + (R.take rs.length).length := by
              simp only [List.length_append, List.length_singleton]
              omega
            have hroom : ((L ++ [r.node]) ++ R.take rs.length).length < 32 := by
              rw [List.length_append, ← hchildrenCount]
              exact hfull
            obtain ⟨newChildren, hc, hnewChildren⟩ :=
              shiftRight_holds hchildrenHold hroom a hchildrenCount
            rw [List.length_append, List.length_singleton, hLls] at hc
            rw [hk, hc]
            obtain ⟨hnewLen, junk, hjunk⟩ := hnewChildren
            have hof : (⟨cs.length + 1, newKeys, newChildren⟩ : EditNode τ κ ν).Of token
              (ls ++ k :: rs)
                (L' ++ r'.node :: b :: R') := by
              refine ⟨hnewCsLen.symm, hnewHold, hnewLen, ?_⟩
              dsimp only
              rw [hjunk]
              have hbehind := hstandsR.take_append junk
              rw [hR'] at hbehind
              have hall := hstandsL.set hL hr.node (standsFirst_cons.mpr ⟨hab, hbehind⟩)
              simpa using hall
            refine ⟨_, rfl, hof.stands ?_ ?_, .inl ⟨rfl, rfl⟩, rfl⟩
            · rw [hnewCsLen, List.length_append, List.length_cons]
              omega
            · omega
          · have h32 : cs.length = 32 := by omega
            rw [if_neg hfull, if_neg (by rw [bTreeOrder]; omega)]
            obtain ⟨-, junkK, hjunkK⟩ := hkeysHold
            have hk := insertInto_eq nilKey ls rs junkK k (by omega : 31 = ls.length + rs.length)
            rw [← List.append_assoc, ← hjunkK] at hk
            have hRlen : R.length = rs.length := by omega
            have hstart : replaceRange (List.replicate 33 (TTree.nil : TTree τ κ ν)) 0 (L ++
              r.node :: R) 0 ls.length =
                some (L ++ TTree.nil :: TTree.nil :: List.replicate rs.length TTree.nil) := by
              rw [← hLls, replaceRange_start (by simp) List.take_left (by simp; omega)]
              have hdrop : (List.replicate 33 (TTree.nil : TTree τ κ ν)).drop L.length =
                  TTree.nil :: TTree.nil :: List.replicate rs.length TTree.nil := by
                rw [List.drop_replicate, show 33 - L.length = rs.length + 2 by omega]
                rfl
              rw [hdrop]
            have hsets :
              ((L ++ TTree.nil :: TTree.nil :: List.replicate rs.length TTree.nil).set ls.length
                r.node).set (ls.length + 1) a = (L ++ [r.node, a]) ++
                List.replicate rs.length TTree.nil := by
              rw [← hLls, set_at, List.set_append_right _ _ (by omega), Nat.add_sub_cancel_left]
              simp
            have hrest : replaceRange ((L ++ [r.node, a]) ++ List.replicate rs.length TTree.nil)
                (L ++ [r.node, a]).length (L ++ r.node :: R) (ls.length + 1) 32 =
                some ((L ++ [r.node, a]) ++ R) := by
              refine replaceRange_rest (by omega) (by simp; omega) ?_ (by simp; omega)
              have hdrop : (L ++ r.node :: R).drop (ls.length + 1) = R := by
                rw [← hLls]
                simp
              rw [hdrop, List.take_of_length_le (by omega)]
            rw [List.length_append, List.length_cons, List.length_singleton, hLls] at hrest
            rw [hk, hstart]
            simp only [Option.bind_eq_bind, Option.bind_some, hsets, hrest]
            refine ⟨_, rfl, splitNodeBang_same _ ?_ ?_⟩
            · rw [hnewCsLen]
              simp only [List.length_append, List.length_cons, List.length_nil]
              omega
            · have hall := hstandsL.set hL hr.node (standsFirst_cons.mpr ⟨hab, hstandsR⟩)
              simpa using hall

variable [DecidableEq τ]

theorem assocChildBang_at (key : κ) (val : ν) (L R : List (TTree τ κ ν)) (c : TTree τ κ ν) :
    assocChildBang cmp isNil nilKey nilVal token key val (L ++ c :: R) L.length =
      btreeAssocNodeBang cmp isNil nilKey nilVal token key val c := by
  induction L with
  | nil => rfl
  | cons t L ih => exact ih

/-- An insertion into a node of the session does what one into the node it stands for does. -/
theorem btreeAssocNodeBang_spec {depth : Nat} {p : BTree κ ν} (hp : p.Shape depth) {t : TTree τ κ ν}
    (h : Stands token t p) (key : κ) (val : ν) :
    ∃ r, btreeAssocNodeBang cmp isNil nilKey nilVal token key val t = some r ∧
      SameAssoc token r (btreeAssocNode cmp isNil key val p) := by
  induction p generalizing depth t with
  | leaf keys vals =>
    cases hp with
    | leaf hlen hpos hmax =>
      obtain ⟨e, he, hof⟩ := ensureEditableLeaf_spec nilKey nilVal h hlen hmax
      obtain ⟨r, hr, hsame⟩ :=
        assocLeafBang_same cmp isNil nilKey nilVal token hof hlen hmax key val
      refine ⟨r, ?_, hsame⟩
      cases t with
      | nil => simp [Stands] at h
      | leaf keys' vals' =>
        rw [btreeAssocNodeBang, he]
        exact hr
      | tleaf t' count keys' vals' =>
        rw [btreeAssocNodeBang, he]
        exact hr
      | node keys' children => cases he
      | tnode t' count keys' children => cases he
  | node keys cs ih =>
    cases hp with
    | @node d _ _ hlen hmax hbelow =>
      obtain ⟨ls, rs, L', c', R', hkeys, hcs, hL', hR', hidx⟩ :=
        exists_descent cmp (.node hlen hmax hbelow) key
      have hc' : c' ∈ cs := by rw [hcs]; simp
      have hat' : assocChild cmp isNil key val cs ls.length =
        some (btreeAssocNode cmp isNil key val c') := by
        rw [hcs, ← hL', assocChild_at]
      obtain ⟨e, he, hof⟩ := ensureEditableNode_spec nilKey h hlen hmax
      have hidx' : bsearchFirst cmp e.keys key (e.count - 1) = ls.length := by
        rw [← hidx, ← bsearchFirst_eq cmp hof.keys, hof.count, ← hlen, Nat.add_sub_cancel]
      obtain ⟨children, hfirst, hshape⟩ := h.children
      rw [hcs] at hfirst
      obtain ⟨L, c, R, hsplit, hL, -, hc, -⟩ := hfirst.split
      obtain ⟨r, hr, hsame⟩ := ih c' hc' (hbelow c' hc') hc
      have hat : assocChildBang cmp isNil nilKey nilVal token key val children ls.length =
        some r := by
        rw [hsplit, ← hL', ← hL, assocChildBang_at, hr]
      obtain ⟨q, hq, hqsame⟩ := assocParentBang_same isNil nilKey hof
        (.node hlen hmax hbelow) hkeys hcs hL' hR' hsame
      refine ⟨q, ?_, ?_⟩
      · rcases hshape with ⟨keys', rfl⟩ | ⟨t', count, keys', rfl⟩
        · rw [btreeAssocNodeBang, he]
          simp only [Option.bind_eq_bind, Option.bind_some, hidx', hat, hq]
        · rw [btreeAssocNodeBang, he]
          simp only [Option.bind_eq_bind, Option.bind_some, hidx', hat, hq]
      · rw [btreeAssocNode]
        simp only [hidx, hat']
        exact hqsame

end Insertion

/-! ## §5 Removal -/

section Removal

/-- The array without an element. -/
theorem shiftLeft_holds {α : Type} {arr l r : List α} {x : α} (h : Holds arr (l ++ x :: r))
    {count : Nat} (hcount : count = l.length + 1 + r.length) :
    ∃ new, shiftLeft arr l.length count = some new ∧ Holds new (l ++ r) := by
  obtain ⟨hlen, junk, rfl⟩ := h
  obtain ⟨y, hy⟩ := replaceRange_close l r junk x
  refine ⟨l ++ (r ++ y :: junk), ?_, ?_, y :: junk, by simp⟩
  · rw [shiftLeft, hcount, List.append_assoc, hy]
  · simp at hlen ⊢
    omega

variable {cmp : κ → κ → Ordering} {nilKey : κ} {nilVal : ν} {token : τ}

/-- A root, which may be `NIL` on both sides. -/
def RootStands (token : τ) (t : TTree τ κ ν) : Option (BTree κ ν) → Prop
  | none => t = .nil
  | some p => Stands token t p

/-- Both removals returned the same. -/
def SameDissoc (token : τ) (r : TTree τ κ ν × Option ν) (r' : Option (BTree κ ν) × Option ν) :
    Prop :=
  RootStands token r.1 r'.1 ∧ r.2 = r'.2

variable (cmp token) in
theorem dissocLeafBang_same {e : EditLeaf κ ν} {keys : List κ} {vals : List ν} (h : e.Of keys vals)
    (hlen : vals.length = keys.length) (hmax : keys.length ≤ 32) (key : κ) :
    Option.Rel (SameDissoc token) (dissocLeafBang cmp token key e)
    (btreeDissocNode cmp key (.leaf keys vals)) := by
  have hsame := h.stands hlen hmax token
  obtain ⟨hcount, hkeys, hvals⟩ := h
  rw [dissocLeafBang, btreeDissocNode]
  simp only [hcount, bsearchFirst_eq cmp hkeys, hitFirst_eq cmp hkeys]
  generalize bsearchKeys cmp keys key = idx
  split
  · next hhit =>
    have hlt := hit_lt hhit
    have hltVals : idx < vals.length := by omega
    have hold : e.vals[idx]? = vals[idx]? := hvals.getElem? hltVals
    have hkeysNe : keys ≠ [] := List.ne_nil_of_length_pos (by omega)
    have hvalsNe : vals ≠ [] := List.ne_nil_of_length_pos (by omega)
    have herase : (keys.eraseIdx idx).length = keys.length - 1 := List.length_eraseIdx_of_lt hlt
    have hcut : ∀ {α : Type} {arr xs : List α}, Holds arr xs → idx < xs.length →
        ∃ new, shiftLeft arr idx xs.length = some new ∧ Holds new (xs.eraseIdx idx) := by
      intro α arr xs hxs hidx
      have htake : (xs.take idx).length = idx := by
        simp only [List.length_take]
        omega
      rw [← List.take_append_drop idx xs, List.drop_eq_getElem_cons hidx] at hxs
      have hcount : xs.length = (xs.take idx).length + 1 + (xs.drop (idx + 1)).length := by
        simp only [List.length_take, List.length_drop]
        omega
      obtain ⟨new, hnew, hholds⟩ := shiftLeft_holds hxs hcount
      rw [htake] at hnew
      rw [List.eraseIdx_eq_take_drop_succ]
      exact ⟨new, hnew, hholds⟩
    obtain ⟨newKeys, hk, hnewKeys⟩ := hcut hkeys hlt
    obtain ⟨newVals, hv, hnewVals⟩ := hcut hvals hltVals
    rw [hlen] at hv
    simp only [hk, hv, hold, removeAt_eq_some hkeysNe, removeAt_eq_some hvalsNe, herase,
      Option.bind_eq_bind, Option.bind_some]
    split
    · exact .some ⟨rfl, rfl⟩
    · have hof :
        (⟨keys.length - 1, newKeys, newVals⟩ : EditLeaf κ ν).Of (keys.eraseIdx idx)
        (vals.eraseIdx idx) :=
        ⟨herase.symm, hnewKeys, hnewVals⟩
      refine .some ⟨hof.stands ?_ (by omega) token, rfl⟩
      rw [List.length_eraseIdx_of_lt hltVals, herase, hlen]
  · refine .some ⟨?_, rfl⟩
    have hkeep : EditLeaf.toTree token ⟨keys.length, e.keys, e.vals⟩ = e.toTree token := by
      rw [EditLeaf.toTree, EditLeaf.toTree, hcount]
    rwa [RootStands]

/-- The routing key that goes with a child. -/
theorem exists_goingKey {ls rs : List κ} (hne : ls ++ rs ≠ []) : ∃ l x r, ls ++ rs = l ++ x :: r ∧
    l.length = if ls.length = 0 then 0 else ls.length - 1 := by
  rcases List.eq_nil_or_concat ls with rfl | ⟨l, x, rfl⟩
  · obtain ⟨x, r, rfl⟩ := List.exists_cons_of_ne_nil (by simpa using hne)
    exact ⟨[], x, r, rfl, rfl⟩
  · exact ⟨l, x, rs, by simp, by simp⟩

theorem dissocParentBang_same {depth : Nat} {e : EditNode τ κ ν} {keys ls rs : List κ}
    {cs L' R' : List (BTree κ ν)} {c' : BTree κ ν} (h : e.Of token keys cs)
    (hp : (BTree.node keys cs).Shape (depth + 1)) (hkeys : keys = ls ++ rs)
    (hcs : cs = L' ++ c' :: R') (hL' : L'.length = ls.length) (hR' : R'.length = rs.length)
    {newChild : TTree τ κ ν} {newChild' : Option (BTree κ ν)}
    (hnew : RootStands token newChild newChild') :
    Option.Rel (RootStands token) (dissocParentBang token e ls.length newChild)
      (dissocParent keys cs ls.length newChild') := by
  cases hp with
  | node hlen hmax _ =>
    obtain ⟨hcount, hkeysHold, hchildrenLen, hchildren⟩ := h
    rw [hcs] at hchildren
    obtain ⟨L, c, R, hsplit, hL, hstandsL, -, hstandsR⟩ := hchildren.split
    have hLls : L.length = ls.length := hL.trans hL'
    have hkeysLen : keys.length = ls.length + rs.length := by rw [hkeys, List.length_append]
    rw [hsplit] at hchildrenLen
    cases newChild' with
    | some p =>
      have hstands : Stands token newChild p := hnew
      have hset : e.children.set ls.length newChild = L ++ newChild :: R := by
        rw [hsplit, ← hLls, set_at]
      have hset' : cs.set ls.length p = L' ++ p :: R' := by rw [hcs, ← hL', set_at]
      have hbang : dissocParentBang token e ls.length newChild =
          some (({ e with children := e.children.set ls.length newChild } : EditNode τ κ ν).toTree
            token) := by
        cases newChild with
        | nil => simp [Stands] at hstands
        | leaf _ _ => rfl
        | node _ _ => rfl
        | tleaf _ _ _ _ => rfl
        | tnode _ _ _ _ => rfl
      have hsetLen : (L' ++ p :: R').length = cs.length := by rw [← hset', List.length_set]
      rw [hbang, dissocParent, hset, hset']
      refine .some (EditNode.Of.stands ⟨?_, hkeysHold, ?_, hstandsL.set hL hstands hstandsR⟩ ?_ ?_)
      · rw [hsetLen]
        exact hcount
      · simpa using hchildrenLen
      · rw [hsetLen]
        exact hlen
      · rw [hsetLen]
        exact hmax
    | none =>
      have hnil : newChild = .nil := hnew
      subst hnil
      rw [dissocParentBang, dissocParent, hcount]
      by_cases hne : ls ++ rs = []
      · obtain ⟨rfl, rfl⟩ := List.append_eq_nil_iff.mp hne
        have hend : cs.length - 1 < 0 + 1 := by
          simp only [List.length_nil] at hkeysLen
          omega
        rw [hkeys, List.append_nil, List.length_nil, if_pos rfl, shiftLeft,
          replaceRange_eq_none _ _ _ hend]
        exact .none
      · obtain ⟨l, x, r, hlxr, hl⟩ := exists_goingKey hne
        have hlxrLen : (l ++ x :: r).length = keys.length := by rw [← hlxr, hkeys]
        rw [hkeys, hlxr] at hkeysHold
        have hkeysCount : cs.length - 1 = l.length + 1 + r.length := by
          rw [← hlen, ← hlxrLen, List.length_append, List.length_cons]
          omega
        obtain ⟨newKeys, hk, hnewKeys⟩ := shiftLeft_holds hkeysHold hkeysCount
        have hRtake : (R.take rs.length).length = rs.length := by
          have hle := hstandsR.length_le
          simp only [List.length_take]
          omega
        have hchildrenHold : Holds e.children (L ++ c :: R.take rs.length) :=
          ⟨by rw [hsplit, hchildrenLen], R.drop rs.length, by simp [hsplit]⟩
        have hchildrenCount : cs.length = L.length + 1 + (R.take rs.length).length := by omega
        obtain ⟨newChildren, hc, hnewLen, junk, hjunk⟩ :=
          shiftLeft_holds hchildrenHold hchildrenCount
        have herase : keys.eraseIdx l.length = l ++ r := by
          rw [hkeys, hlxr, List.eraseIdx_append_of_length_le (Nat.le_refl _), Nat.sub_self]
          rfl
        have heraseCs : cs.eraseIdx ls.length = L' ++ R' := by
          rw [hcs, ← hL', List.eraseIdx_append_of_length_le (Nat.le_refl _), Nat.sub_self]
          rfl
        have hcsLen : (L' ++ R').length = cs.length - 1 := by
          rw [List.length_append]
          omega
        have hkne : keys ≠ [] := by rwa [hkeys]
        have hkpos := List.length_pos_iff.mpr hkne
        rw [hLls] at hc
        rw [← hl, hk, hc, removeAt_eq_some hkne, heraseCs, herase]
        simp only [Option.bind_eq_bind, Option.bind_some, Option.map_some, hcsLen]
        rw [if_neg (by omega), if_neg (by omega)]
        refine .some (EditNode.Of.stands ⟨hcsLen.symm, hnewKeys, hnewLen, ?_⟩ ?_ ?_)
        · have hbehind := hstandsR.take_append junk
          rw [hR'] at hbehind
          have hall := hstandsL.append hL hbehind
          rw [← List.append_assoc, ← hjunk] at hall
          exact hall
        · rw [hcsLen, List.length_append]
          omega
        · omega

variable [DecidableEq τ]

theorem dissocChildBang_at (key : κ) (L R : List (TTree τ κ ν)) (c : TTree τ κ ν) :
    dissocChildBang cmp nilKey nilVal token key (L ++ c :: R) L.length =
      btreeDissocNodeBang cmp nilKey nilVal token key c := by
  induction L with
  | nil => rfl
  | cons t L ih => exact ih

/-- A removal from a node of the session does what one from the node it stands for does. -/
theorem btreeDissocNodeBang_spec {depth : Nat} {p : BTree κ ν} (hp : p.Shape depth)
    {t : TTree τ κ ν} (h : Stands token t p) (key : κ) :
    Option.Rel (SameDissoc token) (btreeDissocNodeBang cmp nilKey nilVal token key t)
      (btreeDissocNode cmp key p) := by
  induction p generalizing depth t with
  | leaf keys vals =>
    cases hp with
    | leaf hlen hpos hmax =>
      obtain ⟨e, he, hof⟩ := ensureEditableLeaf_spec nilKey nilVal h hlen hmax
      have hsame := dissocLeafBang_same cmp token hof hlen hmax key
      cases t with
      | nil => simp [Stands] at h
      | leaf keys' vals' =>
        rw [btreeDissocNodeBang, he]
        exact hsame
      | tleaf t' count keys' vals' =>
        rw [btreeDissocNodeBang, he]
        exact hsame
      | node keys' children => cases he
      | tnode t' count keys' children => cases he
  | node keys cs ih =>
    cases hp with
    | @node d _ _ hlen hmax hbelow =>
      obtain ⟨ls, rs, L', c', R', hkeys, hcs, hL', hR', hidx⟩ :=
        exists_descent cmp (.node hlen hmax hbelow) key
      have hc' : c' ∈ cs := by rw [hcs]; simp
      have hat' : dissocChild cmp key cs ls.length = btreeDissocNode cmp key c' := by
        rw [hcs, ← hL', dissocChild_at]
      obtain ⟨e, he, hof⟩ := ensureEditableNode_spec nilKey h hlen hmax
      have hidx' : bsearchFirst cmp e.keys key (e.count - 1) = ls.length := by
        rw [← hidx, ← bsearchFirst_eq cmp hof.keys, hof.count, ← hlen, Nat.add_sub_cancel]
      obtain ⟨children, hfirst, hshape⟩ := h.children
      rw [hcs] at hfirst
      obtain ⟨L, c, R, hsplit, hL, -, hc, -⟩ := hfirst.split
      have hsame := ih c' hc' (hbelow c' hc') hc
      have hat : dissocChildBang cmp nilKey nilVal token key children ls.length =
          btreeDissocNodeBang cmp nilKey nilVal token key c := by
        rw [hsplit, ← hL', ← hL, dissocChildBang_at]
      -- both clauses for nodes go on alike
      have hnode : btreeDissocNodeBang cmp nilKey nilVal token key t =
          (btreeDissocNodeBang cmp nilKey nilVal token key c).bind fun r =>
            r.2.elim (some (e.toTree token, none)) fun old =>
              (dissocParentBang token e ls.length r.1).map fun n => (n, some old) := by
        rcases hshape with ⟨keys', rfl⟩ | ⟨t', count, keys', rfl⟩
        · rw [btreeDissocNodeBang, he]
          simp only [Option.bind_eq_bind, Option.bind_some, hidx', hat]
          rcases btreeDissocNodeBang cmp nilKey nilVal token key c with - | ⟨n, - | old⟩
          · rfl
          · rfl
          · simp only [Option.bind_some, Option.elim_some]
            cases dissocParentBang token e ls.length n <;> rfl
        · rw [btreeDissocNodeBang, he]
          simp only [Option.bind_eq_bind, Option.bind_some, hidx', hat]
          rcases btreeDissocNodeBang cmp nilKey nilVal token key c with - | ⟨n, - | old⟩
          · rfl
          · rfl
          · simp only [Option.bind_some, Option.elim_some]
            cases dissocParentBang token e ls.length n <;> rfl
      rw [hnode, btreeDissocNode]
      simp only [hidx, hat', Option.bind_eq_bind]
      generalize btreeDissocNodeBang cmp nilKey nilVal token key c = q,
        btreeDissocNode cmp key c' = q' at hsame
      cases hsame with
      | none => exact .none
      | @some r r' hr =>
        obtain ⟨n, old⟩ := r
        obtain ⟨n', old'⟩ := r'
        obtain ⟨hn, hold⟩ := hr
        obtain rfl : old = old' := hold
        cases old with
        | none => exact .some ⟨hof.stands hlen hmax, rfl⟩
        | some v =>
          have hparent : Option.Rel (RootStands token) _ _ :=
            dissocParentBang_same hof (.node hlen hmax hbelow) hkeys hcs hL' hR' hn
          simp only [Option.bind_some, Option.elim_some]
          generalize dissocParentBang token e ls.length n = q,
            dissocParent keys cs ls.length n' = q' at hparent
          cases hparent with
          | none => exact .none
          | some hq => exact .some ⟨hq, rfl⟩

end Removal

/-! ## §6 Sessions -/

section Sessions

/-- A root among the nodes of a session. -/
def rootOf (root : Option (BTree κ ν)) : TTree τ κ ν := root.elim .nil TTree.ofBTree

theorem rootOf_stands (token : τ) (root : Option (BTree κ ν)) :
    RootStands token (rootOf root) root := by
  cases root with
  | none => rfl
  | some p => exact ofBTree_stands p

theorem RootStands.freeze {token : τ} {t : TTree τ κ ν} {root : Option (BTree κ ν)}
    (h : RootStands token t root) :
    t.freeze = rootOf root := by
  cases root with
  | none =>
    have hnil : t = .nil := h
    rw [hnil, TTree.freeze]
    rfl
  | some p => exact Stands.freeze h

variable (cmp : κ → κ → Ordering) (isNil : κ → Bool)

/-- The root of a session and the persistent one: the same old values, the same tree behind the
freeze and the same value at every key. -/
def SameOutcome (r : List (Option ν) × TTree τ κ ν) (r' : List (Option ν) × Option (BTree κ ν)) :
    Prop :=
  r.1 = r'.1 ∧ r.2.freeze = rootOf r'.2 ∧
    ∀ key, btreeGetTransientAware cmp key r.2 = r'.2.bind (btreeGet cmp key)

variable {cmp isNil} {root : Option (BTree κ ν)}

theorem edit_shaped (h : ∀ p ∈ root, ∃ depth, p.Shape depth) {s : Edit κ ν}
    {r : Option (BTree κ ν) × Option ν} (hr : edit cmp isNil root s = some r) :
    ∀ p ∈ r.1, ∃ depth, p.Shape depth := by
  cases s with
  | assoc key val =>
    have hold : Shaped ({ root } : BTreeDict κ ν) := h
    have hdict : Shaped (sortedDictAssoc cmp isNil { root } key val) :=
      sortedDictAssoc_shaped hold key val
    have hroot : r.1 = (sortedDictAssoc cmp isNil { root } key val).root := by
      cases root with
      | none =>
        cases hr
        rfl
      | some t =>
        simp only [edit] at hr
        simp only [sortedDictAssoc]
        cases hsplit : (btreeAssocNode cmp isNil key val t).split.filter fun s => !isNil s.1 with
        | none =>
          rw [hsplit] at hr
          cases hr
          rfl
        | some split =>
          rw [hsplit] at hr
          cases hr
          rfl
    rw [hroot]
    exact hdict
  | dissoc key =>
    cases root with
    | none =>
      cases hr
      exact h
    | some t =>
      intro p hp
      obtain ⟨depth, hdepth⟩ := h t rfl
      exact ⟨depth, dissoc_shape cmp hdepth hr p hp⟩

variable [DecidableEq τ] {nilKey : κ} {nilVal : ν} {token : τ} {t : TTree τ κ ν}

/-- One step of both. -/
theorem editBang_same (hshape : ∀ p ∈ root, ∃ depth, p.Shape depth) (h : RootStands token t root)
    (s : Edit κ ν) :
    Option.Rel (SameDissoc token) (editBang cmp isNil nilKey nilVal token t s)
    (edit cmp isNil root s) := by
  cases root with
  | none =>
    have hnil : t = .nil := h
    subst hnil
    cases s with
    | assoc key val =>
      have hleaf : Stands token (.leaf [key] [val]) (.leaf [key] [val]) := by rw [Stands]
      simp only [editBang, edit, btreeAssocNodeBang]
      exact .some ⟨hleaf, rfl⟩
    | dissoc key =>
      simp only [editBang, edit, btreeDissocNodeBang]
      exact .some ⟨rfl, rfl⟩
  | some p =>
    obtain ⟨depth, hp⟩ := hshape p rfl
    cases s with
    | dissoc key => exact btreeDissocNodeBang_spec hp h key
    | assoc key val =>
      obtain ⟨r, hr, hsame⟩ :
        ∃ r, btreeAssocNodeBang cmp isNil nilKey nilVal token key val t = some r ∧
          SameAssoc token r (btreeAssocNode cmp isNil key val p) :=
          btreeAssocNodeBang_spec hp h key val
      simp only [editBang, edit, hr, Option.map_some]
      rcases hsame.split with ⟨hs, hs'⟩ | ⟨k, a, b, hs, hs', hab⟩
      · rw [hs, hs']
        exact .some ⟨hsame.node, hsame.oldVal⟩
      · rw [hs, hs', Option.filter_some, Option.filter_some]
        cases hnil : !isNil k with
        | false => exact .some ⟨hsame.node, hsame.oldVal⟩
        | true =>
          refine .some ⟨?_, hsame.oldVal⟩
          simp only [if_true]
          rw [RootStands, Stands]
          exact ⟨_, rfl, rfl,
            standsFirst_cons.mpr ⟨hsame.node, standsFirst_cons.mpr ⟨hab, standsFirst_nil _⟩⟩⟩

/-- From roots that stand for each other, both runs go the same way. -/
theorem transientRun_same (hshape : ∀ p ∈ root, ∃ depth, p.Shape depth)
    (h : RootStands token t root) (edits : List (Edit κ ν)) :
    Option.Rel (SameOutcome cmp) (transientRun cmp isNil nilKey nilVal token t edits)
      (persistentRun cmp isNil root edits) := by
  induction edits generalizing root t with
  | nil =>
    refine .some ⟨rfl, h.freeze, fun key => ?_⟩
    cases root with
    | none =>
      have hnil : t = .nil := h
      rw [hnil, btreeGetTransientAware]
      rfl
    | some p =>
      obtain ⟨depth, hp⟩ := hshape p rfl
      exact btreeGetTransientAware_eq hp h key
  | cons s ss ih =>
    have hstep : Option.Rel (SameDissoc token) (editBang cmp isNil nilKey nilVal token t s) _ :=
      editBang_same hshape h s
    have hshaped : ∀ r, edit cmp isNil root s = some r → ∀ p ∈ r.1, ∃ depth, p.Shape depth :=
      fun r hr => edit_shaped hshape hr
    rw [transientRun, persistentRun]
    simp only [Option.bind_eq_bind]
    generalize editBang cmp isNil nilKey nilVal token t s = q,
      edit cmp isNil root s = q' at hstep hshaped
    cases hstep with
    | none => exact .none
    | @some r r' hr =>
      have hrest :
        Option.Rel (SameOutcome cmp) (transientRun cmp isNil nilKey nilVal token r.1 ss) _ :=
        ih (hshaped r' rfl) hr.1
      simp only [Option.bind_some]
      generalize transientRun cmp isNil nilKey nilVal token r.1 ss = q,
        persistentRun cmp isNil r'.1 ss = q'
        at hrest
      cases hrest with
      | none => exact .none
      | some hout => exact .some ⟨by rw [hr.2, hout.1], hout.2⟩

/-- A session on any B+-tree fails where the persistent run does, returns the same old values, and
its frozen root is the persistent one. -/
theorem transient_simulates (cmp : κ → κ → Ordering) (isNil : κ → Bool) (nilKey : κ) (nilVal : ν)
    (token : τ) {root : Option (BTree κ ν)} (hroot : ∀ p ∈ root, ∃ depth, p.Shape depth)
    (edits : List (Edit κ ν)) :
    Option.Rel (SameOutcome cmp) (transientRun cmp isNil nilKey nilVal token (rootOf root) edits)
      (persistentRun cmp isNil root edits) :=
  transientRun_same hroot (rootOf_stands token root) edits

/-- Forty pairs added to a tree of one pair, past the first split, and the old pair removed
twice. -/
theorem transient_simulates_small :
    Option.Rel (SameOutcome (compare : Nat → Nat → Ordering))
      (transientRun compare (fun _ => false) 0 0 () (rootOf (some (.leaf [4] [40])))
        ((List.range 40).map (fun k => .assoc (k + 5) k) ++ [.dissoc 4, .dissoc 4]))
      (persistentRun compare (fun _ => false) (some (.leaf [4] [40]))
        ((List.range 40).map (fun k => .assoc (k + 5) k) ++ [.dissoc 4, .dissoc 4])) :=
  transient_simulates compare (fun _ => false) 0 0 ()
    (fun p hp => ⟨0, by cases hp; exact .leaf rfl (by decide) (by decide)⟩) _

end Sessions

end Fol.SortedDict
