/-
Fol.HashTrie.Position — where an insertion puts its binding.

The iterator lists a routing node's children from the lowest chunk up, so the keys of a trie stand
in the order of their hashes read from the low end, five bits at a time (`before`), and only a
bucket keeps an order of its own: `assoc-node` puts a new key in front of it. A new key is listed
last exactly when it comes `before` no other key and meets no bucket.

Where the buckets stand can be read off the hashes: without removals there is a bucket on the path
of a hash exactly when, at some depth, the first two hashes on this path are equal (`MeetsBucket`).

  §1 Hashes    — `agree`, `before`.
  §2 Position  — `assocNode_position`, `assocNode_rebind`.
  §3 Buckets   — `Built`, `assocNode_built`, `onPath_built`.
  §4 Growth    — `Grown`, `Follows`, `hamtAssoc_last_iff`.
  §5 Bulk load — `EachFollows`, `bulkLoad_in_order_iff`.
-/
import Mathlib.Data.List.Induction
import Fol.HashTrie.Session

namespace Fol.HashTrie

open Lib

variable {τ κ ν : Type}

/-! ## §1 Hashes -/

/-- The hashes agree on `n` chunks from `shift` on. -/
def agree (shift n a b : Nat) : Prop :=
  a / 2 ^ shift % 2 ^ (bitShift * n) = b / 2 ^ shift % 2 ^ (bitShift * n)

instance (shift n a b : Nat) : Decidable (agree shift n a b) := inferInstanceAs (Decidable (_ = _))

@[simp] theorem agree_refl (shift n a : Nat) : agree shift n a a := rfl

@[simp] theorem agree_zero (shift a b : Nat) : agree shift 0 a b := by simp [agree, Nat.mod_one]

theorem agree_succ {shift n a b : Nat} :
    agree shift (n + 1) a b ↔ chunk a shift = chunk b shift ∧ agree (shift + bitShift) n a b := by
  have hsplit : ∀ h : Nat, h / 2 ^ shift % 2 ^ (bitShift * (n + 1)) =
      chunk h shift + 32 * (h / 2 ^ (shift + bitShift) % 2 ^ (bitShift * n)) := fun h => by
    rw [chunk_eq, Nat.mul_succ, Nat.add_comm (bitShift * n), Nat.pow_add, Nat.mod_mul,
      Nat.div_div_eq_div_mul, ← Nat.pow_add]
    rfl
  have ha := chunk_lt a shift
  have hb := chunk_lt b shift
  rw [agree, hsplit, hsplit, agree]
  omega

/-- The first chunk from `shift` on in which they differ is smaller in `a`. -/
def before (shift a b : Nat) : Prop :=
  ∃ n, agree shift n a b ∧ chunk a (shift + bitShift * n) < chunk b (shift + bitShift * n)

theorem before_iff {shift a b : Nat} : before shift a b ↔ chunk a shift < chunk b shift ∨
    (chunk a shift = chunk b shift ∧ before (shift + bitShift) a b) := by
  constructor
  · rintro ⟨n, hagree, hlt⟩
    cases n with
    | zero => exact .inl (by simpa using hlt)
    | succ n =>
      obtain ⟨hchunk, hrest⟩ := agree_succ.mp hagree
      refine .inr ⟨hchunk, n, hrest, ?_⟩
      rwa [show shift + bitShift + bitShift * n = shift + bitShift * (n + 1) by
        rw [Nat.mul_succ]; omega]
  · rintro (hlt | ⟨hchunk, n, hagree, hlt⟩)
    · exact ⟨0, agree_zero _ _ _, by simpa using hlt⟩
    · refine ⟨n + 1, agree_succ.mpr ⟨hchunk, hagree⟩, ?_⟩
      rwa [show shift + bitShift * (n + 1) = shift + bitShift + bitShift * n by
        rw [Nat.mul_succ]; omega]

theorem before_irrefl (shift a : Nat) : ¬ before shift a a := by
  rintro ⟨n, -, hlt⟩
  exact Nat.lt_irrefl _ hlt

theorem before_of_chunk_lt {shift a b : Nat} (h : chunk a shift < chunk b shift) :
    before shift a b :=
  before_iff.mpr (.inl h)

theorem not_before_of_chunk_lt {shift a b : Nat} (h : chunk b shift < chunk a shift) :
    ¬ before shift a b := by
  intro hb
  rcases before_iff.mp hb with hlt | ⟨heq, -⟩ <;> omega

theorem before_of_chunk_eq {shift a b : Nat} (h : chunk a shift = chunk b shift) :
    before shift a b ↔ before (shift + bitShift) a b := by
  rw [before_iff]
  simp [h]

/-! ## §2 Position -/

section Position

variable [BEq κ] {sxhash : κ → Nat}

/-- A new binding among the others; `free` says that it meets no bucket. -/
structure Placed (sxhash : κ → Nat) (shift : Nat) (key : κ) (value : ν) (free : Bool)
    (es es' : List (κ × ν)) (l r : List (κ × ν)) : Prop where
  old : es = l ++ r
  new : es' = l ++ (key, value) :: r
  left : free = true → ∀ e ∈ l, ¬ before shift (sxhash key) (sxhash e.1)
  right : free = true → ∀ e ∈ r, before shift (sxhash key) (sxhash e.1)
  bucket : free = false → r ≠ []

omit [BEq κ] in
/-- Two leaves are put in the order of their hashes. -/
theorem mergeLeaves_position {fuel shift : Nat} {l₁ l₂ : Leaf κ ν} {n : Node τ κ ν}
    (h : mergeLeaves fuel shift l₁ l₂ = some n) :
    (before shift l₂.hash l₁.hash ∧ n.entries = [l₂.binding, l₁.binding]) ∨
      (¬ before shift l₂.hash l₁.hash ∧ n.entries = [l₁.binding, l₂.binding]) := by
  induction fuel generalizing shift n with
  | zero => cases h
  | succ fuel ih =>
    rw [mergeLeaves] at h
    split at h
    · next hhash =>
      cases h
      rw [hhash]
      exact .inr ⟨before_irrefl _ _, by simp⟩
    · dsimp only at h
      split at h
      · next hchunk =>
        obtain ⟨child, hchild, rfl⟩ := Option.map_eq_some_iff.mp h
        rw [before_of_chunk_eq hchunk.symm]
        simpa using ih hchild
      · next hchunk =>
        cases h
        by_cases hlt : chunk l₁.hash shift < chunk l₂.hash shift
        · exact .inr ⟨not_before_of_chunk_lt hlt, by simp [hlt]⟩
        · exact .inl ⟨before_of_chunk_lt (by omega), by simp [hlt]⟩

/-- The chunks of the keys below a list of children. -/
theorem chunk_of_children {shift pre : Nat} (hpre : pre < 2 ^ shift) {cs : List Nat}
    {ns : List (Node τ κ ν)} (hlt : ∀ c ∈ cs, c < 32)
    (h : List.Forall₂ (ChildWf sxhash shift pre) cs ns) :
    ∀ e ∈ entriesList ns, chunk (sxhash e.1) shift ∈ cs := by
  induction h with
  | nil => simp
  | @cons c n cs ns hwf _ ih =>
    intro e he
    rw [entriesList_cons, List.mem_append] at he
    rcases he with he | he
    · have hpath := hwf.mem_path (extend_lt hpre (hlt c (by simp))) he
      rw [chunk_of_extend hpre hpath]
      exact List.mem_cons_self
    · exact List.mem_cons_of_mem _ (ih (fun c' hc' => hlt c' (by simp [hc'])) e he)

theorem assocChild_inv {cs cs' : List (Node τ κ ν)} {idx shift hash : Nat} {key : κ} {value : ν}
    {added : Bool} (h : assocChild cs idx shift hash key value = some (cs', added)) :
    ∃ l c c' r, cs = l ++ c :: r ∧ cs' = l ++ c' :: r ∧ assocNode c shift hash key value =
    some (c', added) := by
  induction cs generalizing idx cs' with
  | nil => cases h
  | cons c cs ih =>
    cases idx with
    | zero =>
      obtain ⟨⟨c', a⟩, hc, heq⟩ := Option.map_eq_some_iff.mp h
      cases heq
      exact ⟨[], c, c', cs, rfl, rfl, hc⟩
    | succ i =>
      obtain ⟨⟨tail, a⟩, htail, heq⟩ := Option.map_eq_some_iff.mp h
      cases heq
      obtain ⟨l, x, x', r, rfl, rfl, hx⟩ := ih htail
      exact ⟨c :: l, x, x', r, rfl, rfl, hx⟩

/-- A new binding is put before those whose hash it comes before, or in front of a bucket. -/
theorem assocNode_position {n n' : Node τ κ ν} {shift pre : Nat} {key : κ} {value : ν}
    (hpre : pre < 2 ^ shift) (hwf : n.Wf sxhash shift pre) (hfrozen : n.Frozen)
    (hkey : sxhash key % 2 ^ shift = pre)
    (hassoc : assocNode n shift (sxhash key) key value = some (n', true)) :
    ∃ l r, Placed sxhash shift key value (!onPath bucket n shift (sxhash key)) n.entries n'.entries
    l r := by
  induction n generalizing shift pre n' with
  | leaf x =>
    have hx : x.hash = sxhash x.key := hwf.1
    rw [assocNode] at hassoc
    split at hassoc
    · cases hassoc
    · obtain ⟨m, hm, heq⟩ := Option.map_eq_some_iff.mp hassoc
      cases heq
      rcases mergeLeaves_position hm with ⟨hbefore, hentries⟩ | ⟨hbefore, hentries⟩
      · refine ⟨[], [x.binding], by simp, hentries, by simp, ?_, by simp⟩
        simpa [Leaf.binding, ← hx] using fun _ => hbefore
      · refine ⟨[x.binding], [], by simp, hentries, ?_, by simp, fun h => ?_⟩
        · simpa [Leaf.binding, ← hx] using fun _ => hbefore
        · cases h
  | collision hash leaves =>
    rw [assocNode] at hassoc
    split at hassoc
    · cases hassoc
    · cases hassoc
      refine ⟨[], leaves.map Leaf.binding, rfl, rfl, fun h => (by cases h), fun h => (by cases h),
        fun _ => ?_⟩
      have hlen := hwf.1
      simp only [ne_eq, List.map_eq_nil_iff]
      rintro rfl
      simp at hlen
  | tnode => exact absurd hfrozen frozen_tnode
  | node bitmap children ih =>
    obtain ⟨hb, hch⟩ := (wf_node_iff sxhash).mp hwf
    have hfz := frozen_node.mp hfrozen
    have hc := chunk_lt (sxhash key) shift
    rw [assocNode] at hassoc
    simp only [and_bit_eq_zero] at hassoc
    cases hbit : bitmap.testBit (chunk (sxhash key) shift) with
    | false =>
      obtain ⟨l, r, rfl, hlen, hl, hr⟩ := children_at_clear hc hbit hch
      have hfree : onPath bucket (.node bitmap (l ++ r)) shift (sxhash key) = false := by
        simp [onPath, bucket, (and_bit_eq_zero _ _).mpr hbit]
      rw [if_pos hbit, hamtIndex, ← hlen, cloneAndInsert_at] at hassoc
      cases hassoc
      refine ⟨entriesList l, entriesList r, by simp, by simp [Leaf.binding], fun _ e he => ?_,
        fun _ e he => ?_, by simp [hfree]⟩
      · have hmem :=
          chunk_of_children hpre (fun c hc' => Nat.lt_trans (lt_of_mem_slots hc') hc) hl e he
        exact not_before_of_chunk_lt (lt_of_mem_slots hmem)
      · have hmem := chunk_of_children hpre (fun c hc' => lt_of_mem_slotsAbove hc') hr e he
        exact before_of_chunk_lt (gt_of_mem_slotsAbove hmem)
    | true =>
      obtain ⟨l, x, r, rfl, hlen, hl, hx, hr⟩ := children_at_set hc hbit hch
      have hpath : onPath bucket (.node bitmap (l ++ x :: r)) shift (sxhash key) =
          onPath bucket x (shift + bitShift) (sxhash key) := by
        have hzero : (bitmap &&& 1 <<< chunk (sxhash key) shift == 0) = false := by
          rw [beq_eq_false_iff_ne, Ne, and_bit_eq_zero, hbit]
          simp
        rw [onPath, hzero, hamtIndex, ← hlen, onPathChild_at]
        rfl
      rw [if_neg (by simp [hbit]), hamtIndex, ← hlen, assocChild_at] at hassoc
      obtain ⟨r', hr', heq⟩ := Option.map_eq_some_iff.mp hassoc
      obtain ⟨⟨x', added⟩, hx', rfl⟩ := Option.map_eq_some_iff.mp hr'
      cases heq
      obtain ⟨lx, rx, hp⟩ := ih x (by simp) (extend_lt hpre hc) hx (hfz x (by simp))
        (by rw [mod_extend, hkey]) hx'
      have hchunk : ∀ e ∈ x.entries, chunk (sxhash e.1) shift = chunk (sxhash key) shift :=
        fun e he =>
        chunk_of_extend hpre (hx.mem_path (extend_lt hpre hc) he)
      refine ⟨entriesList l ++ lx, rx ++ entriesList r, by simp [hp.old], by simp [hp.new], ?_,
        ?_, ?_⟩
      · rw [hpath]
        intro hfree e he
        rcases List.mem_append.mp he with he | he
        · have hmem :=
            chunk_of_children hpre (fun c hc' => Nat.lt_trans (lt_of_mem_slots hc') hc) hl e he
          exact not_before_of_chunk_lt (lt_of_mem_slots hmem)
        · rw [before_of_chunk_eq (hchunk e (by simp [hp.old, he])).symm]
          exact hp.left hfree e he
      · rw [hpath]
        intro hfree e he
        rcases List.mem_append.mp he with he | he
        · rw [before_of_chunk_eq (hchunk e (by simp [hp.old, he])).symm]
          exact hp.right hfree e he
        · have hmem := chunk_of_children hpre (fun c hc' => lt_of_mem_slotsAbove hc') hr e he
          exact before_of_chunk_lt (gt_of_mem_slotsAbove hmem)
      · rw [hpath]
        intro hbucket hnil
        exact hp.bucket hbucket (List.append_eq_nil_iff.mp hnil).1

/-- A bound key keeps its place. -/
theorem assocNode_rebind {n n' : Node τ κ ν} {shift : Nat} {key : κ} {value : ν}
    (hassoc : assocNode n shift (sxhash key) key value = some (n', false)) :
    ∃ l x r, n.entries = l ++ x :: r ∧ n'.entries = l ++ (key, value) :: r ∧
    (x.1 == key) = true := by
  induction n generalizing shift n' with
  | leaf x =>
    rw [assocNode] at hassoc
    split at hassoc
    · next hkey =>
      cases hassoc
      exact ⟨[], x.binding, [], by simp, by simp [Leaf.binding], hkey⟩
    · obtain ⟨m, -, heq⟩ := Option.map_eq_some_iff.mp hassoc
      cases heq
  | collision hash leaves =>
    rw [assocNode] at hassoc
    cases hfind : leaves.findIdx? fun l => l.key == key with
    | none =>
      rw [hfind] at hassoc
      cases hassoc
    | some i =>
      obtain ⟨l, x, r, rfl, rfl, hx, -⟩ := exists_of_findIdx? hfind
      rw [hfind] at hassoc
      cases hassoc
      exact ⟨l.map Leaf.binding, x.binding, r.map Leaf.binding, by simp, by simp [Leaf.binding], hx⟩
  | tnode => cases hassoc
  | node bitmap children ih =>
    rw [assocNode] at hassoc
    split at hassoc
    · cases hassoc
    · obtain ⟨⟨cs, added⟩, hcs, heq⟩ := Option.map_eq_some_iff.mp hassoc
      cases heq
      obtain ⟨l, c, c', r, rfl, rfl, hc⟩ := assocChild_inv hcs
      obtain ⟨lc, x, rc, hold, hnew, hx⟩ := ih c (by simp) hc
      exact ⟨entriesList l ++ lc, x, rc ++ entriesList r, by simp [hold], by simp [hnew], hx⟩

end Position

/-! ## §3 Buckets -/

/-- Some depth at which the first two hashes that agree with `hash` are equal. -/
def MeetsBucket (shift : Nat) (hashes : List Nat) (hash : Nat) : Prop :=
  ∃ n h rest, hashes.filter (agree shift n hash ·) = h :: h :: rest

mutual

/-- The trie that insertions of these hashes, in this order, leave. -/
def Built (shift : Nat) (hashes : List Nat) : Node τ κ ν → Prop
  | .leaf l => hashes = [l.hash]
  | .collision _ _ => ∃ h rest, hashes = h :: h :: rest
  | .node bitmap children => (∃ h h' rest, hashes = h :: h' :: rest ∧ h ≠ h') ∧
      (∀ h ∈ hashes, bitmap.testBit (chunk h shift) = true) ∧
      BuiltChildren shift hashes (slots 32 bitmap) children
  | .tnode _ _ _ => False

def BuiltChildren (shift : Nat) (hashes : List Nat) (cs : List Nat) : List (Node τ κ ν) → Prop
  | [] => cs = []
  | n :: ns => ∃ c cs', cs = c :: cs' ∧
      Built (shift + bitShift) (hashes.filter (chunk · shift = c)) n ∧
      BuiltChildren shift hashes cs' ns

end

/-- The child of slot `c` is built from the hashes with this chunk. -/
def ChildBuilt (shift : Nat) (hashes : List Nat) (c : Nat) (n : Node τ κ ν) : Prop :=
  Built (shift + bitShift) (hashes.filter (chunk · shift = c)) n

theorem builtChildren_iff {shift : Nat} {hashes cs : List Nat} {ns : List (Node τ κ ν)} :
    BuiltChildren shift hashes cs ns ↔ List.Forall₂ (ChildBuilt shift hashes) cs ns := by
  induction ns generalizing cs with
  | nil => simp [BuiltChildren]
  | cons n ns ih =>
    simp only [BuiltChildren, ih, List.forall₂_cons_right_iff, ChildBuilt]
    constructor
    · rintro ⟨c, cs', rfl, hc, hcs⟩
      exact ⟨c, cs', hc, hcs, rfl⟩
    · rintro ⟨c, cs', hc, hcs, rfl⟩
      exact ⟨c, cs', rfl, hc, hcs⟩

theorem built_node {shift bitmap : Nat} {hashes : List Nat} {ns : List (Node τ κ ν)} :
    Built shift hashes (.node bitmap ns) ↔ (∃ h h' rest, hashes = h :: h' :: rest ∧ h ≠ h') ∧
      (∀ h ∈ hashes, bitmap.testBit (chunk h shift) = true) ∧
      List.Forall₂ (ChildBuilt shift hashes) (slots 32 bitmap) ns := by
  rw [Built, builtChildren_iff]

/-- A bucket is met where the first two hashes of the path are equal. -/
theorem onPath_built {n : Node τ κ ν} {shift : Nat} {hashes : List Nat} (h : Built shift hashes n)
    (hash : Nat) :
    onPath bucket n shift hash = true ↔ MeetsBucket shift hashes hash := by
  induction n generalizing shift hashes with
  | leaf l =>
    obtain rfl : hashes = [l.hash] := h
    simp only [onPath, bucket, Bool.false_eq_true, false_iff]
    rintro ⟨m, g, rest, hfilter⟩
    have hlen := congrArg List.length hfilter
    have := List.length_filter_le (agree shift m hash ·) [l.hash]
    simp at hlen this
    omega
  | collision hash' leaves =>
    obtain ⟨g, rest, rfl⟩ := h
    simp only [onPath, bucket, true_iff]
    exact ⟨0, g, rest, by simp⟩
  | tnode => cases h
  | node bitmap children ih =>
    obtain ⟨⟨g, g', rest, rfl, hne⟩, hbits, hch⟩ := built_node.mp h
    have hc := chunk_lt hash shift
    have hmeets : MeetsBucket shift (g :: g' :: rest) hash ↔
        MeetsBucket (shift + bitShift)
        ((g :: g' :: rest).filter (chunk · shift = chunk hash shift)) hash := by
      have hfilter : ∀ m, (g :: g' :: rest).filter (agree shift (m + 1) hash ·) =
          ((g :: g' :: rest).filter (chunk · shift = chunk hash shift)).filter
            (agree (shift + bitShift) m hash ·) := fun m => by
        rw [List.filter_filter]
        refine List.filter_congr fun x _ => ?_
        simp only [agree_succ, Bool.decide_and, Bool.and_comm, eq_comm]
      constructor
      · rintro ⟨m, f, more, hm⟩
        cases m with
        | zero =>
          simp only [agree_zero, decide_true, List.filter_true, List.cons.injEq] at hm
          exact absurd (hm.1.trans hm.2.1.symm) hne
        | succ m => exact ⟨m, f, more, by rw [← hfilter, hm]⟩
      · rintro ⟨m, f, more, hm⟩
        exact ⟨m + 1, f, more, by rw [hfilter, hm]⟩
    rw [hmeets]
    cases hbit : bitmap.testBit (chunk hash shift) with
    | false =>
      have hnone : (g :: g' :: rest).filter (chunk · shift = chunk hash shift) = [] := by
        refine List.filter_eq_nil_iff.mpr fun x hx => ?_
        intro heq
        have hset := hbits x hx
        rw [of_decide_eq_true heq, hbit] at hset
        cases hset
      have hzero := (and_bit_eq_zero _ _).mpr hbit
      rw [hnone, onPath, hzero]
      simp [bucket, MeetsBucket]
    | true =>
      obtain ⟨l, x, r, rfl, hlen, -, hx, -⟩ := children_at_set hc hbit hch
      have hzero : (bitmap &&& 1 <<< chunk hash shift == 0) = false := by
        rw [beq_eq_false_iff_ne, Ne, and_bit_eq_zero, hbit]
        simp
      rw [onPath, hzero, hamtIndex, ← hlen, onPathChild_at]
      simpa [bucket] using ih x (by simp) hx

theorem mergeLeaves_built {fuel shift : Nat} {l₁ l₂ : Leaf κ ν} {n : Node τ κ ν}
    (h : mergeLeaves fuel shift l₁ l₂ = some n) : Built shift [l₁.hash, l₂.hash] n := by
  induction fuel generalizing shift n with
  | zero => cases h
  | succ fuel ih =>
    rw [mergeLeaves] at h
    split at h
    · next hhash =>
      cases h
      exact ⟨l₁.hash, [], by rw [hhash]⟩
    · next hhash =>
      dsimp only at h
      have hc₁ := chunk_lt l₁.hash shift
      have hc₂ := chunk_lt l₂.hash shift
      split at h
      · next hchunk =>
        obtain ⟨child, hchild, rfl⟩ := Option.map_eq_some_iff.mp h
        refine built_node.mpr ⟨⟨_, _, [], rfl, hhash⟩, by simp [hchunk, Nat.one_shiftLeft], ?_⟩
        rw [slots_single hc₁]
        refine .cons ?_ .nil
        simpa [ChildBuilt, hchunk] using ih hchild
      · next hchunk =>
        cases h
        refine built_node.mpr ⟨⟨_, _, [], rfl, hhash⟩, by simp [Nat.one_shiftLeft], ?_⟩
        have hchunk' := Ne.symm hchunk
        by_cases hlt : chunk l₁.hash shift < chunk l₂.hash shift
        · rw [if_pos hlt, slots_pair hlt hc₂]
          exact .cons (by simp [ChildBuilt, Built, hchunk']) (.cons
            (by simp [ChildBuilt, Built, hchunk]) .nil)
        · rw [if_neg hlt, Nat.or_comm, slots_pair (by omega) hc₁]
          exact .cons (by
            simp [ChildBuilt, Built, hchunk]) (.cons (by simp [ChildBuilt, Built, hchunk']) .nil)

section Insertion

variable [BEq κ] {sxhash : κ → Nat}

/-- The hashes after an insertion. -/
def hashesAfter (hashes : List Nat) (hash : Nat) (added : Bool) : List Nat :=
  if added then hashes ++ [hash] else hashes

theorem filter_hashesAfter_self {shift hash : Nat} (hashes : List Nat) (added : Bool) :
    (hashesAfter hashes hash added).filter (chunk · shift = chunk hash shift) =
      hashesAfter (hashes.filter (chunk · shift = chunk hash shift)) hash added := by
  cases added <;> simp [hashesAfter]

theorem filter_hashesAfter_other {shift hash c : Nat} (hashes : List Nat) (added : Bool)
    (h : c ≠ chunk hash shift) :
    (hashesAfter hashes hash added).filter (chunk · shift = c) =
    hashes.filter (chunk · shift = c) := by
  cases added <;> simp [hashesAfter, Ne.symm h]

omit [BEq κ] in
/-- Children of other slots do not notice an insertion. -/
theorem childBuilt_other {shift hash : Nat} {hashes cs : List Nat} {ns : List (Node τ κ ν)}
    (added : Bool) (hne : ∀ c ∈ cs, c ≠ chunk hash shift)
    (h : List.Forall₂ (ChildBuilt shift hashes) cs ns) :
    List.Forall₂ (ChildBuilt shift (hashesAfter hashes hash added)) cs ns := by
  induction h with
  | nil => exact .nil
  | @cons c n cs ns hc _ ih =>
    refine .cons ?_ (ih fun c' hc' => hne c' (by simp [hc']))
    rw [ChildBuilt, filter_hashesAfter_other _ _ (hne c (by simp))]
    exact hc

theorem assocNode_built (hcongr : ∀ a b : κ, (a == b) = true → sxhash a = sxhash b)
    {n n' : Node τ κ ν} {shift pre : Nat} {key : κ} {value : ν} {hashes : List Nat} {added : Bool}
    (hwf : n.Wf sxhash shift pre) (h : Built shift hashes n)
    (hassoc : assocNode n shift (sxhash key) key value = some (n', added)) :
    Built shift (hashesAfter hashes (sxhash key) added) n' := by
  induction n generalizing shift pre hashes n' added with
  | leaf l =>
    obtain rfl : hashes = [l.hash] := h
    rw [assocNode] at hassoc
    split at hassoc
    · next hkey =>
      cases hassoc
      simp [hashesAfter, Built, show l.hash = sxhash l.key from hwf.1, hcongr _ _ hkey]
    · obtain ⟨m, hm, heq⟩ := Option.map_eq_some_iff.mp hassoc
      cases heq
      exact mergeLeaves_built hm
  | collision hash leaves =>
    obtain ⟨g, rest, rfl⟩ := h
    rw [assocNode] at hassoc
    split at hassoc
    · cases hassoc
      exact ⟨g, rest, rfl⟩
    · cases hassoc
      exact ⟨g, rest ++ [sxhash key], rfl⟩
  | tnode => cases h
  | node bitmap children ih =>
    obtain ⟨hb, hchwf⟩ := (wf_node_iff sxhash).mp hwf
    obtain ⟨⟨g, g', rest, rfl, hne⟩, hbits, hch⟩ := built_node.mp h
    have hc := chunk_lt (sxhash key) shift
    have hfirst : ∀ added, ∃ h h' more, hashesAfter (g :: g' :: rest) (sxhash key) added =
      h :: h' :: more ∧
        h ≠ h' := by
      intro added
      cases added with
      | false => exact ⟨g, g', rest, rfl, hne⟩
      | true => exact ⟨g, g', rest ++ [sxhash key], rfl, hne⟩
    have hmem : ∀ added, ∀ x ∈ hashesAfter (g :: g' :: rest) (sxhash key) added,
        x ∈ g :: g' :: rest ∨ x = sxhash key := by
      intro added x hx
      cases added with
      | false => exact .inl hx
      | true => simpa [hashesAfter, or_assoc] using hx
    rw [assocNode] at hassoc
    simp only [and_bit_eq_zero] at hassoc
    cases hbit : bitmap.testBit (chunk (sxhash key) shift) with
    | false =>
      obtain ⟨l, r, rfl, hlen, hl, hr⟩ := children_at_clear hc hbit hch
      rw [if_pos hbit, hamtIndex, ← hlen, cloneAndInsert_at] at hassoc
      cases hassoc
      refine built_node.mpr ⟨hfirst true, ?_, children_set hc
        (childBuilt_other true (fun c hc' => ne_of_mem_slots_below hc') hl) ?_
        (childBuilt_other true (fun c hc' => ne_of_mem_slotsAbove hc') hr)⟩
      · intro x hx
        rcases hmem true x hx with hx | rfl
        · simp [hbits x hx]
        · simp [Nat.one_shiftLeft]
      · -- no hash had this chunk
        have hnone : (g :: g' :: rest).filter (chunk · shift = chunk (sxhash key) shift) = [] := by
          refine List.filter_eq_nil_iff.mpr fun x hx heq => ?_
          have hset := hbits x hx
          rw [of_decide_eq_true heq, hbit] at hset
          cases hset
        rw [ChildBuilt, filter_hashesAfter_self, hnone]
        rfl
    | true =>
      obtain ⟨l, x, r, rfl, hlen, hl, hx, hr⟩ := children_at_set hc hbit hch
      obtain ⟨l', y, r', heq, hlen', -, hy, -⟩ := children_at_set hc hbit hchwf
      obtain ⟨rfl, htail⟩ := List.append_inj heq (by rw [hlen, hlen'])
      cases htail
      rw [if_neg (by simp [hbit]), hamtIndex, ← hlen, assocChild_at] at hassoc
      obtain ⟨cs, hcs, heq'⟩ := Option.map_eq_some_iff.mp hassoc
      obtain ⟨⟨x', a⟩, hx', rfl⟩ := Option.map_eq_some_iff.mp hcs
      cases heq'
      refine built_node.mpr ⟨hfirst a, ?_, children_replace hc hbit
        (childBuilt_other a (fun c hc' => ne_of_mem_slots_below hc') hl) ?_
        (childBuilt_other a (fun c hc' => ne_of_mem_slotsAbove hc') hr)⟩
      · intro z hz
        rcases hmem a z hz with hz | rfl
        · exact hbits z hz
        · exact hbit
      · rw [ChildBuilt, filter_hashesAfter_self]
        exact ih x (by simp) hy hx hx'

end Insertion

/-! ## §4 Growth -/

section Growth

variable [BEq κ] {sxhash : κ → Nat}

/-- The keys in the order of the iterator. -/
def Hamt.keys (h : Hamt τ κ ν) : List κ := (rootEntries h.root).map Prod.fst

/-- The trie that insertions of `keys`, in this order, leave. -/
structure Grown (sxhash : κ → Nat) (h : Hamt τ κ ν) (keys : List κ) : Prop where
  valid : h.Valid sxhash
  nil : h.root = none → keys = []
  built : ∀ n ∈ h.root, Built 0 (keys.map sxhash) n

theorem Grown.empty (sxhash : κ → Nat) : Grown sxhash ({} : Hamt τ κ ν) [] :=
  ⟨.empty sxhash, fun _ => rfl, by simp⟩

/-- The new key comes after every key so far: it differs from them, does not come `before` any and
meets no bucket. -/
structure Follows (sxhash : κ → Nat) (keys : List κ) (key : κ) : Prop where
  fresh : key ∉ keys
  last : ∀ k ∈ keys, ¬ before 0 (sxhash key) (sxhash k)
  free : ¬ MeetsBucket 0 (keys.map sxhash) (sxhash key)

variable {h h' : Hamt τ κ ν} {keys : List κ} {key : κ} {value : ν}

theorem Grown.rootOnPath (hg : Grown sxhash h keys) (hash : Nat) :
    rootOnPath bucket h.root hash = true ↔ MeetsBucket 0 (keys.map sxhash) hash := by
  cases hr : h.root with
  | none => simp [HashTrie.rootOnPath, hg.nil hr, MeetsBucket]
  | some n => exact onPath_built (hg.built n hr) hash

variable (hcongr : ∀ a b : κ, (a == b) = true → sxhash a = sxhash b)
include hcongr

/-- What an insertion does to a trie that grew by insertions. -/
theorem Grown.assocRoot (hg : Grown sxhash h keys)
    (hassoc : hamtAssoc sxhash h key value = some h') :
    ∃ added n, assocRoot h.root (sxhash key) key value = some (n, added) ∧ h'.root = some n ∧
      Built 0 (hashesAfter (keys.map sxhash) (sxhash key) added) n := by
  obtain ⟨⟨n, added⟩, hn, rfl⟩ := Option.map_eq_some_iff.mp hassoc
  refine ⟨added, n, hn, rfl, ?_⟩
  cases hr : h.root with
  | none =>
    rw [hr] at hn
    cases hn
    rw [hg.nil hr]
    rfl
  | some m =>
    rw [hr] at hn
    exact assocNode_built hcongr (hg.valid.wf m hr) (hg.built m hr) hn

variable [LawfulBEq κ]

/-- A new key. -/
theorem Grown.assoc (hg : Grown sxhash h keys) (hassoc : hamtAssoc sxhash h key value = some h')
    (hnew : key ∉ h.keys) : Grown sxhash h' (keys ++ [key]) ∧
      ∃ l r, Placed sxhash 0 key value (!HashTrie.rootOnPath bucket h.root (sxhash key))
        (rootEntries h.root) (rootEntries h'.root) l r := by
  obtain ⟨h₁, hassoc₁, hvalid, -⟩ := hamtAssoc_spec hcongr hg.valid key value
  obtain rfl := Option.some.inj (hassoc₁.symm.trans hassoc)
  obtain ⟨added, n, hn, hroot, hbuilt⟩ := hg.assocRoot hcongr hassoc
  cases added with
  | false =>
    refine absurd ?_ hnew
    cases hr : h.root with
    | none =>
      rw [hr] at hn
      cases hn
    | some m =>
      rw [hr] at hn
      obtain ⟨l, x, r, hold, -, hx⟩ := assocNode_rebind hn
      rw [Hamt.keys, hr, rootEntries_some, hold, ← eq_of_beq hx]
      simp
  | true =>
    refine ⟨⟨hvalid, by simp [hroot], fun m hm => ?_⟩, ?_⟩
    · rw [hroot] at hm
      cases hm
      simpa [hashesAfter] using hbuilt
    · cases hr : h.root with
      | none =>
        rw [hr] at hn
        cases hn
        rw [hroot]
        exact ⟨[], [], by simp, by simp [Leaf.binding], by simp, by simp, by
          simp [HashTrie.rootOnPath]⟩
      | some m =>
        rw [hr] at hn
        rw [hroot]
        exact assocNode_position (by simp) (hg.valid.wf m hr) (hg.valid.frozen m hr)
          (Nat.mod_one _) hn

/-- A bound key. -/
theorem Grown.rebind (hg : Grown sxhash h keys) (hassoc : hamtAssoc sxhash h key value = some h')
    (hbound : key ∈ h.keys) : Grown sxhash h' keys ∧
      ∃ l old r, rootEntries h.root = l ++ (key, old) :: r ∧
      rootEntries h'.root = l ++ (key, value) :: r := by
  obtain ⟨h₁, hassoc₁, hvalid, hperm⟩ := hamtAssoc_spec hcongr hg.valid key value
  obtain rfl := Option.some.inj (hassoc₁.symm.trans hassoc)
  obtain ⟨added, n, hn, hroot, hbuilt⟩ := hg.assocRoot hcongr hassoc
  cases hr : h.root with
  | none =>
    rw [Hamt.keys, hr] at hbound
    cases hbound
  | some m =>
    rw [hr] at hn
    cases added with
    | true =>
      -- the key would be bound twice
      obtain ⟨l, r, hp⟩ := assocNode_position (by simp) (hg.valid.wf m hr) (hg.valid.frozen m hr)
        (Nat.mod_one _) hn
      have hd := hvalid.distinct hcongr
      rw [hroot, rootEntries_some, hp.new] at hd
      rw [Hamt.keys, hr, rootEntries_some, hp.old] at hbound
      obtain ⟨e, he, hkey⟩ := List.mem_map.mp hbound
      have hpair := hd.perm List.perm_middle
      have hne := (List.pairwise_cons.mp hpair).1 e he
      simp [hkey] at hne
    | false =>
      obtain ⟨l, x, r, hold, hnew, hx⟩ := assocNode_rebind hn
      refine ⟨⟨hvalid, by simp [hroot], fun k hk => ?_⟩, l, x.2, r, ?_, ?_⟩
      · rw [hroot] at hk
        cases hk
        exact hbuilt
      · rw [rootEntries_some, hold, ← eq_of_beq hx]
      · rw [hroot, rootEntries_some, hnew]

omit hcongr [BEq κ] [LawfulBEq κ] in
/-- The last of a list that it is only once. -/
theorem append_eq_concat {α : Type} {l r p : List α} {x : α} (h : l ++ x :: r = p ++ [x])
    (hr : x ∉ r) :
    r = [] ∧ l = p := by
  rcases List.eq_nil_or_concat r with rfl | ⟨r', y, rfl⟩
  · exact ⟨rfl, (List.append_inj' h rfl).1⟩
  · rw [List.concat_eq_append, ← List.cons_append, ← List.append_assoc] at h
    have hy := (List.append_inj' h rfl).2
    cases hy
    simp at hr

/-- A new key is listed last exactly when it follows the others. -/
theorem Grown.last_iff (hg : Grown sxhash h h.keys)
    (hassoc : hamtAssoc sxhash h key value = some h') (hnew : key ∉ h.keys) :
    h'.keys = h.keys ++ [key] ↔ Follows sxhash h.keys key := by
  obtain ⟨-, l, r, hp⟩ := hg.assoc hcongr hassoc hnew
  have hold : h.keys = l.map Prod.fst ++ r.map Prod.fst := by
    rw [Hamt.keys, hp.old, List.map_append]
  have hkeys : h'.keys = l.map Prod.fst ++ key :: r.map Prod.fst := by rw [Hamt.keys, hp.new]; simp
  have hmem : ∀ {k : κ}, k ∈ h.keys → (∃ e ∈ l, e.1 = k) ∨ ∃ e ∈ r, e.1 = k := by
    intro k hk
    rw [hold, List.mem_append, List.mem_map, List.mem_map] at hk
    exact hk
  constructor
  · intro heq
    rw [hkeys] at heq
    have hkr : key ∉ r.map Prod.fst := fun h => hnew (by rw [hold]; exact List.mem_append_right _ h)
    obtain ⟨hnil, -⟩ := append_eq_concat heq hkr
    rw [List.map_eq_nil_iff] at hnil
    have hfree : HashTrie.rootOnPath bucket h.root (sxhash key) = false := by
      rw [← Bool.not_eq_true]
      exact fun hmeets => hp.bucket (by simp [hmeets]) hnil
    refine ⟨hnew, fun k hk => ?_, fun hmeets => ?_⟩
    · rcases hmem hk with ⟨e, he, rfl⟩ | ⟨e, he, rfl⟩
      · exact hp.left (by simp [hfree]) e he
      · simp [hnil] at he
    · rw [(hg.rootOnPath _).mpr hmeets] at hfree
      cases hfree
  · intro hf
    have hfree : HashTrie.rootOnPath bucket h.root (sxhash key) = false := by
      rw [← Bool.not_eq_true, hg.rootOnPath]
      exact hf.free
    have hnil : r = [] := by
      cases r with
      | nil => rfl
      | cons e r =>
        refine absurd (hp.right (by simp [hfree]) e (by simp)) (hf.last e.1 ?_)
        simp [hold]
    rw [hkeys, hold, hnil]
    simp

end Growth

/-! ## §5 Bulk load -/

/-- Each key follows the ones before it. -/
def EachFollows (sxhash : κ → Nat) (keys : List κ) : Prop :=
  ∀ l k r, keys = l ++ k :: r → Follows sxhash l k

theorem eachFollows_nil (sxhash : κ → Nat) : EachFollows sxhash [] := by
  intro l k r h
  simp at h

/-- A property of each element and those before it. -/
theorem forall_split_concat {α : Type} {P : List α → α → Prop} {xs : List α} {x : α} :
    (∀ l y r, xs ++ [x] = l ++ y :: r → P l y) ↔ (∀ l y r, xs = l ++ y :: r → P l y) ∧ P xs x := by
  constructor
  · intro h
    exact ⟨fun l y r heq => h l y (r ++ [x]) (by simp [heq]), h xs x [] rfl⟩
  · rintro ⟨hin, hlast⟩ l y r heq
    rcases List.eq_nil_or_concat r with rfl | ⟨r', z, rfl⟩
    · obtain ⟨rfl, hy⟩ := List.append_inj' heq rfl
      cases hy
      exact hlast
    · rw [List.concat_eq_append, ← List.cons_append, ← List.append_assoc] at heq
      exact hin l y r' (List.append_inj' heq rfl).1

theorem eachFollows_concat {sxhash : κ → Nat} {keys : List κ} {key : κ} :
    EachFollows sxhash (keys ++ [key]) ↔ EachFollows sxhash keys ∧ Follows sxhash keys key :=
  forall_split_concat

theorem onPath_freezeNode (n : Node τ κ ν) (shift hash : Nat) :
    onPath bucket (freezeNode n) shift hash = onPath bucket n shift hash := by
  induction n generalizing shift with
  | tnode token bitmap children ih =>
    have hchildren : ∀ (cs : List (Node τ κ ν)) idx shift, (∀ c ∈ cs, ∀ shift,
        onPath bucket (freezeNode c) shift hash = onPath bucket c shift hash) →
        onPathChild bucket (cs.map freezeNode) idx shift hash =
        onPathChild bucket cs idx shift hash := by
      intro cs
      induction cs with
      | nil => exact fun _ _ _ => rfl
      | cons c cs ihs =>
        intro idx shift hcs
        cases idx with
        | zero => exact hcs c (by simp) shift
        | succ i => exact ihs i shift fun c' hc' => hcs c' (by simp [hc'])
    rw [freezeNode, freezeList_eq, onPath, onPath, hchildren _ _ _ ih]
    rfl
  | _ => rfl

section BulkLoad

variable [BEq κ] [DecidableEq τ] {sxhash : κ → Nat} {token : τ}

omit [BEq κ] [DecidableEq τ] in
theorem rootOnPath_freeze (root : Option (Node τ κ ν)) (hash : Nat) :
    rootOnPath bucket (root.map freezeNode) hash = rootOnPath bucket root hash := by
  cases root with
  | none => rfl
  | some n => exact onPath_freezeNode n 0 hash

theorem bulkLoadLoop_append (root : Option (Node τ κ ν)) (count : Nat) (xs ys : List (κ × ν)) :
    bulkLoadLoop sxhash token root count (xs ++ ys) =
      bulkLoadLoop sxhash token root count xs >>= fun r =>
      bulkLoadLoop sxhash token r.1 r.2 ys := by
  induction xs generalizing root count with
  | nil => rfl
  | cons x xs ih =>
    rw [List.cons_append, bulkLoadLoop, bulkLoadLoop]
    cases assocRootBang root ⟨sxhash x.1, x.1, x.2⟩ token with
    | error e => rfl
    | ok r => exact ih _ _

variable [EquivBEq κ] (hcongr : ∀ a b : κ, (a == b) = true → sxhash a = sxhash b)
include hcongr

/-- What the loop builds is a transient of this token. -/
theorem bulkLoadLoop_valid {th : TransientHamt τ κ ν} {r : Option (Node τ κ ν) × Nat}
    (hv : th.Valid (· = token) sxhash) (htok : th.token = some token) {pairs : List (κ × ν)}
    (h : bulkLoadLoop sxhash token th.root th.count pairs = .ok r) :
    ({ token := some token, root := r.1, count := r.2 } : TransientHamt τ κ ν).Valid (· = token)
    sxhash := by
  induction pairs generalizing th with
  | nil =>
    cases h
    exact ⟨hv.wf, hv.layered, hv.count⟩
  | cons p pairs ih =>
    rw [bulkLoadLoop] at h
    cases hpath : rootOnPath (uneditable token) th.root (sxhash p.1) with
    | true =>
      obtain ⟨e, he⟩ := assocRootBang_blocked p.2 hv.wf hpath
      rw [he] at h
      cases h
    | false =>
      obtain ⟨th₁, hok, hv₁, htok₁, -⟩ := hamtAssocBang_ok hcongr hv htok rfl p.1 p.2 hpath
      obtain ⟨n, added, hn, hth₁⟩ := hamtAssocBang_inv htok hok
      rw [hn] at h
      refine ih hv₁ (htok₁.trans htok) ?_
      rw [hth₁]
      exact h

/-- One more pair: it must meet no bucket, and is then inserted as `hamt-assoc` does. -/
theorem hamtBulkLoad_concat {h' : Hamt τ κ ν} {pairs : List (κ × ν)} {p : κ × ν} :
    hamtBulkLoad sxhash token (pairs ++ [p]) = .ok h' ↔
    ∃ h, hamtBulkLoad sxhash token pairs = .ok h ∧
      rootOnPath bucket h.root (sxhash p.1) = false ∧ hamtAssoc sxhash h p.1 p.2 = some h' := by
  have hstart : ({ token := some token } : TransientHamt τ κ ν).Valid (· = token) sxhash :=
    ⟨by simp, by simp, rfl⟩
  rw [hamtBulkLoad, hamtBulkLoad, bulkLoadLoop_append]
  cases hloop : bulkLoadLoop (ν := ν) sxhash token none 0 pairs with
  | error e => simp [bind, Except.bind]
  | ok r =>
    have hv := bulkLoadLoop_valid hcongr hstart rfl hloop
    have hfree := rootOnPath_freeze r.1 (sxhash p.1)
    simp only [bind, Except.bind, bulkLoadLoop, pure, Except.pure, Except.ok.injEq, exists_eq_left',
      hfree]
    cases hpath : rootOnPath bucket r.1 (sxhash p.1) with
    | true =>
      obtain ⟨e, he⟩ :=
        assocRootBang_blocked p.2 hv.wf ((rootOnPath_uneditable_own hv.layered _).trans hpath)
      simp [he]
    | false =>
      obtain ⟨th₁, hok, -, -, -⟩ := hamtAssocBang_ok hcongr hv rfl rfl p.1 p.2
        ((rootOnPath_uneditable_own hv.layered _).trans hpath)
      obtain ⟨n, added, hn, -⟩ := hamtAssocBang_inv rfl hok
      rw [hn, hamtAssoc, assocRootBang_freeze hv.layered hn]
      simp

end BulkLoad

section InOrder

variable [BEq κ] [LawfulBEq κ] [DecidableEq τ] {sxhash : κ → Nat} {token : τ} {pairs : List (κ × ν)}

omit [DecidableEq τ] in
theorem Hamt.Valid.keys_nodup {h : Hamt τ κ ν} (hv : h.Valid sxhash) : h.keys.Nodup := by
  have hd := hv.distinct fun a b hab => by rw [eq_of_beq hab]
  refine List.pairwise_map.mpr (hd.imp ?_)
  intro a b hab heq
  simp [heq] at hab

/-- A loaded trie grew by insertions of keys of the pairs. -/
theorem grown_of_bulkLoad {h : Hamt τ κ ν} (hload : hamtBulkLoad sxhash token pairs = .ok h) :
    (∃ keys, Grown sxhash h keys) ∧ ∀ k ∈ h.keys, k ∈ pairs.map Prod.fst := by
  have hcongr : ∀ a b : κ, (a == b) = true → sxhash a = sxhash b := fun a b hab => by
    rw [eq_of_beq hab]
  induction pairs using List.reverseRecOn generalizing h with
  | nil =>
    cases hload
    exact ⟨⟨[], .empty sxhash⟩, by simp [Hamt.keys]⟩
  | append_singleton pairs p ih =>
    obtain ⟨h₀, hload₀, -, hassoc⟩ := (hamtBulkLoad_concat hcongr).mp hload
    obtain ⟨⟨keys, hg⟩, hsub⟩ := ih hload₀
    by_cases hmem : p.1 ∈ h₀.keys
    · obtain ⟨hg', l, old, r, hold, hnew⟩ := hg.rebind hcongr hassoc hmem
      have hkeys : h.keys = h₀.keys := by simp [Hamt.keys, hold, hnew]
      refine ⟨⟨keys, hg'⟩, fun k hk => ?_⟩
      rw [hkeys] at hk
      rw [List.map_append]
      exact List.mem_append_left _ (hsub k hk)
    · obtain ⟨hg', l, r, hp⟩ := hg.assoc hcongr hassoc hmem
      refine ⟨⟨_, hg'⟩, fun k hk => ?_⟩
      rw [List.map_append, List.mem_append, List.map_singleton, List.mem_singleton]
      by_cases hkey : k = p.1
      · exact .inr hkey
      · refine .inl (hsub k ?_)
        simpa [Hamt.keys, hp.old, hp.new, hkey] using hk

/-- The keys of what is loaded are in the order written: each followed the ones before it. -/
theorem eachFollows_of_bulkLoad {h : Hamt τ κ ν} (hload : hamtBulkLoad sxhash token pairs = .ok h)
    (hkeys : h.keys = pairs.map Prod.fst) : EachFollows sxhash (pairs.map Prod.fst) ∧
    Grown sxhash h h.keys := by
  have hcongr : ∀ a b : κ, (a == b) = true → sxhash a = sxhash b := fun a b hab => by
    rw [eq_of_beq hab]
  induction pairs using List.reverseRecOn generalizing h with
  | nil =>
    cases hload
    exact ⟨eachFollows_nil sxhash, .empty sxhash⟩
  | append_singleton pairs p ih =>
    obtain ⟨h₀, hload₀, hfree, hassoc⟩ := (hamtBulkLoad_concat hcongr).mp hload
    obtain ⟨⟨keys, hg⟩, hsub⟩ := grown_of_bulkLoad hload₀
    rw [List.map_append, List.map_singleton] at hkeys ⊢
    have hnodup := (hamtBulkLoad_spec hcongr hload).1.keys_nodup
    rw [hkeys, List.nodup_append] at hnodup
    have hmem : p.1 ∉ h₀.keys := fun hmem => hnodup.2.2 p.1 (hsub p.1 hmem) p.1 (by simp) rfl
    obtain ⟨-, l, r, hp⟩ := hg.assoc hcongr hassoc hmem
    have hold : h₀.keys = l.map Prod.fst ++ r.map Prod.fst := by
      rw [Hamt.keys, hp.old, List.map_append]
    have hnew : h.keys = l.map Prod.fst ++ p.1 :: r.map Prod.fst := by rw [Hamt.keys, hp.new]; simp
    obtain ⟨hnil, hl⟩ := append_eq_concat (hnew.symm.trans hkeys) fun hr =>
      hmem (by simp [hold, hr])
    have hkeys₀ : h₀.keys = pairs.map Prod.fst := by rw [hold, hnil, hl, List.append_nil]
    obtain ⟨hfollows, hg₀⟩ := ih hload₀ hkeys₀
    rw [← hkeys₀] at hkeys hfollows ⊢
    refine ⟨eachFollows_concat.mpr ⟨hfollows, (hg₀.last_iff hcongr hassoc hmem).mp hkeys⟩, ?_⟩
    rw [hkeys]
    exact (hg₀.assoc hcongr hassoc hmem).1

/-- When each key follows the ones before it, the pairs are loaded in the order written. -/
theorem bulkLoad_of_eachFollows (token : τ) (hf : EachFollows sxhash (pairs.map Prod.fst)) :
    ∃ h : Hamt τ κ ν, hamtBulkLoad sxhash token pairs = .ok h ∧ rootEntries h.root = pairs ∧
      Grown sxhash h h.keys := by
  have hcongr : ∀ a b : κ, (a == b) = true → sxhash a = sxhash b := fun a b hab => by
    rw [eq_of_beq hab]
  induction pairs using List.reverseRecOn with
  | nil => exact ⟨{}, rfl, rfl, .empty sxhash⟩
  | append_singleton pairs p ih =>
    rw [List.map_append, List.map_singleton, eachFollows_concat] at hf
    obtain ⟨h₀, hload₀, hentries₀, hg⟩ := ih hf.1
    have hkeys₀ : h₀.keys = pairs.map Prod.fst := by rw [Hamt.keys, hentries₀]
    rw [← hkeys₀] at hf
    have hfree : rootOnPath bucket h₀.root (sxhash p.1) = false := by
      rw [← Bool.not_eq_true, hg.rootOnPath]
      exact hf.2.free
    obtain ⟨h, hassoc, -⟩ := hamtAssoc_spec hcongr hg.valid p.1 p.2
    obtain ⟨hg', l, r, hp⟩ := hg.assoc hcongr hassoc hf.2.fresh
    have hkeys := (hg.last_iff hcongr hassoc hf.2.fresh).mpr hf.2
    refine ⟨h, (hamtBulkLoad_concat hcongr).mpr ⟨h₀, hload₀, hfree, hassoc⟩, ?_, hkeys ▸ hg'⟩
    have hnew : h.keys = l.map Prod.fst ++ p.1 :: r.map Prod.fst := by rw [Hamt.keys, hp.new]; simp
    obtain ⟨hnil, -⟩ := append_eq_concat (hnew.symm.trans hkeys) fun hr => hf.2.fresh (by
      rw [Hamt.keys, hp.old, List.map_append]
      exact List.mem_append_right _ hr)
    obtain rfl := List.map_eq_nil_iff.mp hnil
    have hl : l = pairs := by rw [← hentries₀, hp.old, List.append_nil]
    rw [hp.new, hl]

/-- A bulk load lists the keys in the order written exactly when each follows the ones before it. -/
theorem bulkLoad_in_order_iff (token : τ) :
    (∃ h : Hamt τ κ ν, hamtBulkLoad sxhash token pairs = .ok h ∧
    h.keys = pairs.map Prod.fst) ↔ EachFollows sxhash (pairs.map Prod.fst) := by
  constructor
  · rintro ⟨h, hload, hkeys⟩
    exact (eachFollows_of_bulkLoad hload hkeys).1
  · intro hf
    obtain ⟨h, hload, hentries, -⟩ := bulkLoad_of_eachFollows token hf
    exact ⟨h, hload, by rw [Hamt.keys, hentries]⟩

end InOrder

end Fol.HashTrie
