/-
Fol.HashTrie.Invariant — the path invariant of the trie and the bindings a node
holds.

A node at depth `shift` sits on the path of the low `shift` hash bits `pre`:
every leaf below it, in a bucket or not, stores the hash of its key and that
hash ends in `pre`. Buckets may stand at any depth and hold keys of several
hashes; they only have to agree on `pre`. This is the invariant lookup,
insertion, merging and removal share, for persistent and transient nodes alike.
-/
import Fol.HashTrie.Node
import Fol.Lib.Bindings

namespace Fol.HashTrie

open Lib

variable {τ κ ν : Type}

/-! ## §1 Bindings -/

/-- Induction over nodes with one hypothesis for all children. -/
@[elab_as_elim, induction_eliminator]
theorem Node.induction {motive : Node τ κ ν → Prop}
    (leaf : ∀ l, motive (.leaf l))
    (collision : ∀ hash leaves, motive (.collision hash leaves))
    (node : ∀ bitmap children, (∀ c ∈ children, motive c) → motive (.node bitmap children))
    (tnode : ∀ token bitmap children, (∀ c ∈ children, motive c) →
      motive (.tnode token bitmap children))
    (n : Node τ κ ν) : motive n :=
  Node.rec (motive_1 := motive) (motive_2 := fun ns => ∀ c ∈ ns, motive c) leaf collision node tnode
    (fun _ hc => absurd hc List.not_mem_nil)
    (fun _ _ hn hns c hc => (List.mem_cons.mp hc).elim (fun h => h ▸ hn) (hns c)) n

/-- The binding a leaf holds. -/
def Leaf.binding (l : Leaf κ ν) : κ × ν := (l.key, l.value)

mutual

/-- The bindings below a node, in slot order. -/
def Node.entries : Node τ κ ν → List (κ × ν)
  | .leaf l => [l.binding]
  | .collision _ leaves => leaves.map Leaf.binding
  | .node _ children => entriesList children
  | .tnode _ _ children => entriesList children

def entriesList : List (Node τ κ ν) → List (κ × ν)
  | [] => []
  | n :: ns => n.entries ++ entriesList ns

end

@[simp] theorem entries_leaf (l : Leaf κ ν) :
    (Node.leaf l : Node τ κ ν).entries = [l.binding] := rfl
@[simp] theorem entries_collision (h : Nat) (leaves : List (Leaf κ ν)) :
    (Node.collision h leaves : Node τ κ ν).entries = leaves.map Leaf.binding := rfl
@[simp] theorem entries_node (b : Nat) (cs : List (Node τ κ ν)) :
    (Node.node b cs).entries = entriesList cs := rfl
@[simp] theorem entries_tnode (t : τ) (b : Nat) (cs : List (Node τ κ ν)) :
    (Node.tnode t b cs).entries = entriesList cs := rfl
@[simp] theorem entriesList_nil : entriesList ([] : List (Node τ κ ν)) = [] := rfl
@[simp] theorem entriesList_cons (n : Node τ κ ν) (ns : List (Node τ κ ν)) :
    entriesList (n :: ns) = n.entries ++ entriesList ns := rfl

@[simp] theorem entriesList_append (l r : List (Node τ κ ν)) :
    entriesList (l ++ r) = entriesList l ++ entriesList r := by
  induction l with
  | nil => rfl
  | cons n ns ih => simp [ih]

/-- The bindings of a root. -/
def rootEntries (root : Option (Node τ κ ν)) : List (κ × ν) := root.elim [] Node.entries

@[simp] theorem rootEntries_none : rootEntries (none : Option (Node τ κ ν)) = [] := rfl
@[simp] theorem rootEntries_some (n : Node τ κ ν) : rootEntries (some n) = n.entries := rfl

/-! ## §2 Hash chunks -/

theorem chunk_eq (hash shift : Nat) : chunk hash shift = hash / 2 ^ shift % 32 := by
  rw [chunk, shiftRight_and_bitMask]

theorem chunk_lt (hash shift : Nat) : chunk hash shift < 32 := by
  rw [chunk_eq]; exact Nat.mod_lt _ (by decide)

/-- The path prefix of the child in slot `c`. -/
def extend (shift pre c : Nat) : Nat := pre + 2 ^ shift * c

/-- A hash whose low bits are `pre` belongs below slot `c` exactly when its next
chunk is `c`. -/
theorem mod_extend (hash shift : Nat) :
    hash % 2 ^ (shift + bitShift) = extend shift (hash % 2 ^ shift) (chunk hash shift) := by
  rw [chunk_eq, extend, bitShift, Nat.pow_add, Nat.mod_mul]

theorem chunk_of_extend {hash shift pre c : Nat} (hpre : pre < 2 ^ shift)
    (h : hash % 2 ^ (shift + bitShift) = extend shift pre c) : chunk hash shift = c := by
  rw [mod_extend, extend, extend] at h
  have hlow : hash % 2 ^ shift < 2 ^ shift := Nat.mod_lt _ (Nat.two_pow_pos shift)
  have hdiv := congrArg (· / 2 ^ shift) h
  simp only [Nat.add_mul_div_left _ _ (Nat.two_pow_pos shift), Nat.div_eq_of_lt hlow,
    Nat.div_eq_of_lt hpre, Nat.zero_add] at hdiv
  exact hdiv

theorem mod_of_extend {hash shift pre c : Nat} (hpre : pre < 2 ^ shift)
    (h : hash % 2 ^ (shift + bitShift) = extend shift pre c) : hash % 2 ^ shift = pre := by
  have hc := chunk_of_extend hpre h
  rw [mod_extend, extend, extend, hc] at h
  omega

theorem extend_lt {shift pre c : Nat} (hpre : pre < 2 ^ shift) (hc : c < 32) :
    extend shift pre c < 2 ^ (shift + bitShift) := by
  rw [extend, bitShift, Nat.pow_add]
  calc pre + 2 ^ shift * c < 2 ^ shift + 2 ^ shift * c := by omega
    _ = 2 ^ shift * (c + 1) := by rw [Nat.mul_succ]; omega
    _ ≤ 2 ^ shift * 2 ^ 5 := Nat.mul_le_mul_left _ (by omega)

/-- Hashes that agree on a chunk but not above `shift` still differ above it, and
what is left of them is smaller. -/
theorem merge_measure {h1 h2 shift : Nat} (hne : h1 / 2 ^ shift ≠ h2 / 2 ^ shift)
    (hc : chunk h1 shift = chunk h2 shift) :
    h1 / 2 ^ (shift + bitShift) ≠ h2 / 2 ^ (shift + bitShift) ∧
      h1 / 2 ^ (shift + bitShift) + h2 / 2 ^ (shift + bitShift) <
      h1 / 2 ^ shift + h2 / 2 ^ shift := by
  rw [chunk_eq, chunk_eq] at hc
  rw [bitShift, Nat.pow_add, ← Nat.div_div_eq_div_mul, ← Nat.div_div_eq_div_mul]
  generalize h1 / 2 ^ shift = a at *
  generalize h2 / 2 ^ shift = b at *
  omega

/-! ## §3 The path invariant -/

/-- A leaf on the path `pre` stores its key's hash. -/
def Leaf.Wf (sxhash : κ → Nat) (shift pre : Nat) (l : Leaf κ ν) : Prop :=
  l.hash = sxhash l.key ∧ l.hash % 2 ^ shift = pre

theorem Leaf.Wf.extend {sxhash : κ → Nat} {l : Leaf κ ν} {shift pre : Nat}
    (h : l.Wf sxhash shift pre) :
    l.Wf sxhash (shift + bitShift) (extend shift pre (chunk l.hash shift)) :=
  ⟨h.1, by rw [mod_extend, h.2]⟩

theorem Leaf.Wf.retract {sxhash : κ → Nat} {l : Leaf κ ν} {shift pre c : Nat}
    (hpre : pre < 2 ^ shift)
    (h : l.Wf sxhash (shift + bitShift) (HashTrie.extend shift pre c)) : l.Wf sxhash shift pre :=
  ⟨h.1, mod_of_extend hpre h.2⟩

section Wf

variable [BEq κ] (sxhash : κ → Nat)

mutual

/-- Every leaf below `n` lies on the path, and the child array of every routing
node fills the slots of its bitmap. -/
def Node.Wf (shift pre : Nat) (n : Node τ κ ν) : Prop :=
  match n with
  | .leaf l => l.Wf sxhash shift pre
  | .collision _ leaves =>
    2 ≤ leaves.length ∧ (∀ l ∈ leaves, l.Wf sxhash shift pre) ∧ Distinct (leaves.map Leaf.binding)
  | .node bitmap children => bitmap < 2 ^ 32 ∧ WfChildren shift pre (slots 32 bitmap) children
  | .tnode _ bitmap children => bitmap < 2 ^ 32 ∧ WfChildren shift pre (slots 32 bitmap) children

def WfChildren (shift pre : Nat) (cs : List Nat) (ns : List (Node τ κ ν)) : Prop :=
  match ns, cs with
  | [], [] => True
  | n :: ns, c :: cs =>
    n.Wf (shift + bitShift) (extend shift pre c) ∧ WfChildren shift pre cs ns
  | _, _ => False

end

/-- A child of slot `c` lies on the path extended by `c`. -/
def ChildWf (shift pre c : Nat) (n : Node τ κ ν) : Prop :=
  n.Wf sxhash (shift + bitShift) (extend shift pre c)

theorem wfChildren_iff {shift pre : Nat} {cs : List Nat} {ns : List (Node τ κ ν)} :
    WfChildren sxhash shift pre cs ns ↔ List.Forall₂ (ChildWf sxhash shift pre) cs ns := by
  induction ns generalizing cs with
  | nil => cases cs <;> simp [WfChildren]
  | cons n ns ih => cases cs <;> simp [WfChildren, ChildWf, ih]

@[simp] theorem wf_leaf_iff {shift pre : Nat} {l : Leaf κ ν} :
    (Node.leaf l : Node τ κ ν).Wf sxhash shift pre ↔ l.Wf sxhash shift pre := Iff.rfl

theorem wf_node_iff {shift pre b : Nat} {ns : List (Node τ κ ν)} :
    (Node.node b ns).Wf sxhash shift pre ↔
      b < 2 ^ 32 ∧ List.Forall₂ (ChildWf sxhash shift pre) (slots 32 b) ns := by
  rw [Node.Wf, wfChildren_iff]

theorem wf_tnode_iff {shift pre b : Nat} {t : τ} {ns : List (Node τ κ ν)} :
    (Node.tnode t b ns).Wf sxhash shift pre ↔
      b < 2 ^ 32 ∧ List.Forall₂ (ChildWf sxhash shift pre) (slots 32 b) ns := by
  rw [Node.Wf, wfChildren_iff]

end Wf

mutual

/-- No transient node in the subtree. -/
def Node.Frozen : Node τ κ ν → Prop
  | .leaf _ => True
  | .collision _ _ => True
  | .node _ children => FrozenList children
  | .tnode _ _ _ => False

def FrozenList : List (Node τ κ ν) → Prop
  | [] => True
  | n :: ns => n.Frozen ∧ FrozenList ns

end

theorem frozenList_iff {ns : List (Node τ κ ν)} : FrozenList ns ↔ ∀ n ∈ ns, n.Frozen := by
  induction ns with
  | nil => simp [FrozenList]
  | cons n ns ih => simp [FrozenList, ih]

@[simp] theorem frozen_leaf (l : Leaf κ ν) : (Node.leaf l : Node τ κ ν).Frozen := trivial
@[simp] theorem frozen_collision (h : Nat) (leaves : List (Leaf κ ν)) :
    (Node.collision h leaves : Node τ κ ν).Frozen := trivial
@[simp] theorem frozen_node {b : Nat} {ns : List (Node τ κ ν)} :
    (Node.node b ns).Frozen ↔ ∀ n ∈ ns, n.Frozen := frozenList_iff
@[simp] theorem frozen_tnode {t : τ} {b : Nat} {ns : List (Node τ κ ν)} :
    ¬(Node.tnode t b ns).Frozen := id

/-! ## §4 Consequences -/

section Consequences

variable [BEq κ] {sxhash : κ → Nat}

/-- Every key bound below a well-formed node has a hash on the node's path. -/
theorem Node.Wf.mem_path {n : Node τ κ ν} {shift pre : Nat} (hpre : pre < 2 ^ shift)
    (h : n.Wf sxhash shift pre) {e : κ × ν} (he : e ∈ n.entries) :
    sxhash e.1 % 2 ^ shift = pre := by
  induction n generalizing shift pre with
  | leaf l =>
    obtain ⟨hhash, hpath⟩ := h
    rw [entries_leaf, List.mem_singleton] at he
    subst he
    rw [← hpath, hhash]; rfl
  | collision hash leaves =>
    obtain ⟨l, hl, rfl⟩ := List.mem_map.mp he
    obtain ⟨hhash, hpath⟩ := h.2.1 l hl
    rw [← hpath, hhash]; rfl
  | node bitmap children ih =>
    exact children_path ih hpre ((wf_node_iff sxhash).mp h).2 (fun c hc => lt_of_mem_slots hc) he
  | tnode token bitmap children ih =>
    exact children_path ih hpre ((wf_tnode_iff sxhash).mp h).2 (fun c hc => lt_of_mem_slots hc) he
where
  children_path {children : List (Node τ κ ν)} {shift pre : Nat} {cs : List Nat} {e : κ × ν}
      (ih : ∀ c ∈ children, ∀ {shift pre : Nat}, pre < 2 ^ shift → c.Wf sxhash shift pre →
        e ∈ c.entries → sxhash e.1 % 2 ^ shift = pre)
      (hpre : pre < 2 ^ shift) (h : List.Forall₂ (ChildWf sxhash shift pre) cs children)
      (hcs : ∀ c ∈ cs, c < 32) (he : e ∈ entriesList children) : sxhash e.1 % 2 ^ shift = pre := by
    induction h with
    | nil => simp at he
    | @cons c n cs ns hn _ ihl =>
      rw [entriesList_cons, List.mem_append] at he
      rcases he with he | he
      · have hc := hcs c List.mem_cons_self
        exact mod_of_extend hpre (ih n List.mem_cons_self (extend_lt hpre hc) hn he)
      · exact ihl (fun c hc => ih c (List.mem_cons_of_mem _ hc))
          (fun c hc => hcs c (List.mem_cons_of_mem _ hc)) he

variable (hcongr : ∀ a b : κ, (a == b) = true → sxhash a = sxhash b)
include hcongr

/-- A key whose next chunk differs from every slot is not bound below those
slots. -/
theorem not_bound_off_slots {shift pre : Nat} (hpre : pre < 2 ^ shift) {cs : List Nat}
    {ns : List (Node τ κ ν)} (h : List.Forall₂ (ChildWf sxhash shift pre) cs ns)
    (hlt : ∀ c ∈ cs, c < 32) {key : κ} (hne : ∀ c ∈ cs, c ≠ chunk (sxhash key) shift) :
    bound key (entriesList ns) = false := by
  rw [bound_eq_false_iff]
  induction h with
  | nil => simp
  | @cons c n cs ns hn _ ih =>
    intro e he
    rw [entriesList_cons, List.mem_append] at he
    rcases he with he | he
    · cases heq : e.1 == key with
      | false => rfl
      | true =>
        have hpath := hn.mem_path (extend_lt hpre (hlt c List.mem_cons_self)) he
        rw [hcongr _ _ heq] at hpath
        exact absurd (chunk_of_extend hpre hpath).symm (hne c List.mem_cons_self)
    · exact ih (fun c hc => hlt c (List.mem_cons_of_mem _ hc))
        (fun c hc => hne c (List.mem_cons_of_mem _ hc)) e he

theorem not_bound_below {shift pre b : Nat} (hpre : pre < 2 ^ shift) {ns : List (Node τ κ ν)}
    {key : κ} (h : List.Forall₂ (ChildWf sxhash shift pre) (slots (chunk (sxhash key) shift) b)
      ns) :
    bound key (entriesList ns) = false :=
  not_bound_off_slots hcongr hpre h
    (fun _ hc => Nat.lt_trans (lt_of_mem_slots hc) (chunk_lt _ _)) fun _ hc =>
    ne_of_mem_slots_below hc

theorem not_bound_above {shift pre b : Nat} (hpre : pre < 2 ^ shift) {ns : List (Node τ κ ν)}
    {key : κ}
    (h : List.Forall₂ (ChildWf sxhash shift pre) (slotsAbove 32 (chunk (sxhash key) shift) b) ns) :
    bound key (entriesList ns) = false := by
  refine not_bound_off_slots hcongr hpre h (fun c hc => ?_) fun _ hc => ne_of_mem_slotsAbove hc
  have := (List.mem_range'_1.mp (List.mem_filter.mp hc).1).2
  have := chunk_lt (sxhash key) shift
  omega

end Consequences

end Fol.HashTrie
