/-
Fol.HashTrie.Order — a session keeps the order in which the bindings stand.

`dissoc-node` puts a lone leaf in the place of its routing node and `dissoc-node!` leaves the node
standing, so the two tries drift apart: where the persistent one has a leaf or a bucket, the
transient one may have a chain of nodes with one child down to the same leaf or bucket (`Matches`).
An insertion that meets no bucket of the persistent trie keeps them matched, and the order of the
bindings is then the same.

  §1 Matches   — the relation, and its bindings.
  §2 Insertion — `assoc_matches`.
  §3 Removal   — `dissoc_matches`.
  §4 Calls     — `InOrder`, `assocBang_inOrder`, `dissocBang_inOrder`.
-/
import Fol.HashTrie.Session

namespace Fol.HashTrie

open Lib

variable {τ κ ν : Type}

/-! ## §1 Matches -/

def Node.isEntry : Node τ κ ν → Bool
  | .leaf _ => true
  | .collision _ _ => true
  | _ => false

mutual

/-- The transient node has the structure of the persistent one, but for chains of nodes with one
child. -/
def Matches (p : Node τ κ ν) : Node τ κ ν → Prop
  | .tnode _ b ts => (∃ ps, p = .node b ps ∧ MatchesList ps ts) ∨
      (p.isEntry = true ∧ MatchesOnly p ts)
  | .leaf l => p = .leaf l
  | .collision h leaves => p = .collision h leaves
  | .node b ts => p = .node b ts

def MatchesList (ps : List (Node τ κ ν)) : List (Node τ κ ν) → Prop
  | [] => ps = []
  | t :: ts => ∃ p ps', ps = p :: ps' ∧ Matches p t ∧ MatchesList ps' ts

/-- There is one child. -/
def MatchesOnly (p : Node τ κ ν) : List (Node τ κ ν) → Prop
  | [] => False
  | t :: ts => ts = [] ∧ Matches p t

end

theorem matchesList_iff {ps ts : List (Node τ κ ν)} :
    MatchesList ps ts ↔ List.Forall₂ Matches ps ts := by
  induction ts generalizing ps with
  | nil => simp [MatchesList]
  | cons t ts ih =>
    simp only [MatchesList, ih, List.forall₂_cons_right_iff]
    constructor
    · rintro ⟨p, ps', rfl, hp, hps⟩
      exact ⟨p, ps', hp, hps, rfl⟩
    · rintro ⟨p, ps', hp, hps, rfl⟩
      exact ⟨p, ps', rfl, hp, hps⟩

theorem matchesOnly_iff {p : Node τ κ ν} {ts : List (Node τ κ ν)} :
    MatchesOnly p ts ↔ ∃ t, ts = [t] ∧ Matches p t := by
  cases ts with
  | nil => simp [MatchesOnly]
  | cons t ts =>
    simp only [MatchesOnly, List.cons.injEq]
    constructor
    · rintro ⟨rfl, h⟩
      exact ⟨t, ⟨rfl, rfl⟩, h⟩
    · rintro ⟨t', ⟨rfl, rfl⟩, h⟩
      exact ⟨rfl, h⟩

theorem matches_tnode {p : Node τ κ ν} {token : τ} {b : Nat} {ts : List (Node τ κ ν)} :
    Matches p (.tnode token b ts) ↔ (∃ ps, p = .node b ps ∧ List.Forall₂ Matches ps ts) ∨
      (p.isEntry = true ∧ ∃ t, ts = [t] ∧ Matches p t) := by
  simp only [Matches, matchesList_iff, matchesOnly_iff]

theorem Matches.refl {n : Node τ κ ν} (h : n.Frozen) : Matches n n := by
  cases n with
  | tnode t b ts => exact absurd h frozen_tnode
  | _ => rfl

theorem Matches.refl_list {ns : List (Node τ κ ν)} (h : ∀ n ∈ ns, n.Frozen) :
    List.Forall₂ Matches ns ns := by
  induction ns with
  | nil => exact .nil
  | cons n ns ih => exact .cons (.refl (h n (by simp))) (ih fun m hm => h m (by simp [hm]))

/-- Matched nodes have the same bindings in the same order. -/
theorem Matches.entries {p t : Node τ κ ν} (h : Matches p t) : p.entries = t.entries := by
  induction t generalizing p with
  | leaf l => rw [show p = .leaf l from h]
  | collision hash leaves => rw [show p = .collision hash leaves from h]
  | node b ts => rw [show p = .node b ts from h]
  | tnode token b ts ih =>
    rcases matches_tnode.mp h with ⟨ps, rfl, hchildren⟩ | ⟨-, t, rfl, hmatch⟩
    · rw [entries_node, entries_tnode]
      clear h
      induction hchildren with
      | nil => rfl
      | cons hx _ ihs =>
        rw [entriesList_cons, entriesList_cons, ih _ List.mem_cons_self hx,
          ihs fun c hc => ih c (List.mem_cons_of_mem _ hc)]
    · rw [ih t List.mem_cons_self hmatch, entries_tnode, entriesList_cons, entriesList_nil,
        List.append_nil]

section

variable [BEq κ] {sxhash : κ → Nat} {shift pre b c : Nat} {ps ts : List (Node τ κ ν)}

/-- Two matched child lists around an occupied slot. -/
theorem matched_at_set (hc : c < 32) (hbit : b.testBit c = true)
    (hp : List.Forall₂ (ChildWf sxhash shift pre) (slots 32 b) ps)
    (ht : List.Forall₂ (ChildWf sxhash shift pre) (slots 32 b) ts)
    (hm : List.Forall₂ Matches ps ts) :
    ∃ l x r l' x' r', ps = l ++ x :: r ∧ ts = l' ++ x' :: r' ∧
      l.length = logcount (b &&& (1 <<< c - 1)) ∧ l'.length = logcount (b &&& (1 <<< c - 1)) ∧
      ChildWf sxhash shift pre c x ∧ ChildWf sxhash shift pre c x' ∧
      List.Forall₂ Matches l l' ∧ Matches x x' ∧ List.Forall₂ Matches r r' := by
  obtain ⟨l, x, r, rfl, hlen, -, hx, -⟩ := children_at_set hc hbit hp
  obtain ⟨l', x', r', rfl, hlen', -, hx', -⟩ := children_at_set hc hbit ht
  obtain ⟨m, mr, heq, hl, hmr⟩ := forall₂_append_left.mp hm
  obtain ⟨rfl, rfl⟩ := List.append_inj heq (by rw [hlen', ← hlen, hl.length_eq])
  cases hmr with
  | cons hxx hr => exact ⟨l, x, r, l', x', r', rfl, rfl, hlen, hlen', hx, hx', hl, hxx, hr⟩

/-- … and around a free one. -/
theorem matched_at_clear (hc : c < 32) (hbit : b.testBit c = false)
    (hp : List.Forall₂ (ChildWf sxhash shift pre) (slots 32 b) ps)
    (ht : List.Forall₂ (ChildWf sxhash shift pre) (slots 32 b) ts)
    (hm : List.Forall₂ Matches ps ts) :
    ∃ l r l' r', ps = l ++ r ∧ ts = l' ++ r' ∧ l.length = logcount (b &&& (1 <<< c - 1)) ∧
      l'.length = logcount (b &&& (1 <<< c - 1)) ∧ List.Forall₂ Matches l l' ∧
      List.Forall₂ Matches r r' := by
  obtain ⟨l, r, rfl, hlen, -, -⟩ := children_at_clear hc hbit hp
  obtain ⟨l', r', rfl, hlen', -, -⟩ := children_at_clear hc hbit ht
  obtain ⟨m, mr, heq, hl, hr⟩ := forall₂_append_left.mp hm
  obtain ⟨rfl, rfl⟩ := List.append_inj heq (by rw [hlen', ← hlen, hl.length_eq])
  exact ⟨l, r, l', r', rfl, rfl, hlen, hlen', hl, hr⟩

/-- A chain of one child has one bit, the next chunk of every hash below it. -/
theorem chain_bitmap (hpre : pre < 2 ^ shift) (hb : b < 2 ^ 32) {t : Node τ κ ν}
    (ht : List.Forall₂ (ChildWf sxhash shift pre) (slots 32 b) [t]) :
    ∃ c, c < 32 ∧ b = 1 <<< c ∧ ChildWf sxhash shift pre c t ∧
      ∀ e ∈ t.entries, chunk (sxhash e.1) shift = c := by
  obtain ⟨c, cs, hwf, hnil, hslots⟩ := List.forall₂_cons_right_iff.mp ht
  rw [List.forall₂_nil_right_iff.mp hnil] at hslots
  have hc : c < 32 := lt_of_mem_slots (by rw [hslots]; exact List.mem_singleton_self c)
  refine ⟨c, hc, eq_single_of_slots hb hslots, hwf, ?_⟩
  intro e he
  exact chunk_of_extend hpre (hwf.mem_path (extend_lt hpre hc) he)

end

/-! ## §2 Insertion -/

section

variable [DecidableEq τ] [BEq κ] {sxhash : κ → Nat} {shift pre b : Nat} {leaf : Leaf κ ν}
    {token : τ}

/-- Both insertions succeed, and the results match. -/
def AssocMatches (shift : Nat) (leaf : Leaf κ ν) (token : τ) (p t : Node τ κ ν) : Prop :=
  ∃ p' t' added, assocNode p shift leaf.hash leaf.key leaf.value = some (p', added) ∧
    assocNodeBang t shift leaf token = .ok (t', added) ∧ Matches p' t'

omit [DecidableEq τ] [BEq κ] in
/-- More fuel makes no difference. -/
theorem mergeLeaves_mono {l₁ l₂ : Leaf κ ν} {fuel fuel' : Nat} {n : Node τ κ ν} (hle : fuel ≤ fuel')
    (h : mergeLeaves fuel shift l₁ l₂ = some n) : mergeLeaves fuel' shift l₁ l₂ = some n := by
  induction fuel generalizing fuel' shift n with
  | zero => cases h
  | succ fuel ih =>
    obtain ⟨k, rfl⟩ := Nat.exists_eq_add_of_le hle
    rw [Nat.add_right_comm, mergeLeaves]
    rw [mergeLeaves] at h
    split
    · next hhash => rwa [if_pos hhash] at h
    · next hhash =>
      rw [if_neg hhash] at h
      dsimp only at h ⊢
      split
      · next hchunk =>
        rw [if_pos hchunk] at h
        obtain ⟨child, hchild, rfl⟩ := Option.map_eq_some_iff.mp h
        rw [ih (Nat.le_add_right fuel k) hchild]
        rfl
      · next hchunk => rwa [if_neg hchunk] at h

/-- In matched routing nodes, given the children. -/
theorem assoc_routing {ps ts : List (Node τ κ ν)}
    (hp : List.Forall₂ (ChildWf sxhash shift pre) (slots 32 b) ps)
    (ht : List.Forall₂ (ChildWf sxhash shift pre) (slots 32 b) ts) (hm : List.Forall₂ Matches ps ts)
    (ih : ∀ t ∈ ts, ∀ p ∈ ps, ChildWf sxhash shift pre (chunk leaf.hash shift) p →
      ChildWf sxhash shift pre (chunk leaf.hash shift) t → Matches p t →
      onPath bucket p (shift + bitShift) leaf.hash = false →
      AssocMatches (shift + bitShift) leaf token p t)
    (hpath : onPath bucket (.node b ps) shift leaf.hash = false) :
    ∃ ps' ts' b' added,
      assocNode (.node b ps) shift leaf.hash leaf.key leaf.value = some (.node b' ps', added) ∧
      assocEditable token shift leaf (b, ts) (assocChildBang ts
        (hamtIndex b (1 <<< chunk leaf.hash shift)) (shift + bitShift) leaf token) =
          .ok (.tnode token b' ts', added) ∧ List.Forall₂ Matches ps' ts' := by
  have hc := chunk_lt leaf.hash shift
  rw [assocNode]
  simp only [assocEditable, and_bit_eq_zero]
  cases hbit : b.testBit (chunk leaf.hash shift) with
  | false =>
    obtain ⟨l, r, l', r', rfl, rfl, hlen, hlen', hl, hr⟩ := matched_at_clear hc hbit hp ht hm
    rw [if_pos rfl, if_pos rfl, hamtIndex, ← hlen, cloneAndInsert_at, hlen, ← hlen',
      cloneAndInsert_at]
    exact ⟨_, _, _, _, rfl, rfl, List.rel_append hl (.cons rfl hr)⟩
  | true =>
    obtain ⟨l, x, r, l', x', r', rfl, rfl, hlen, hlen', hx, hx', hl, hxx, hr⟩ :=
      matched_at_set hc hbit hp ht hm
    have hzero : (b &&& 1 <<< chunk leaf.hash shift == 0) = false := by
      rw [beq_eq_false_iff_ne, Ne, and_bit_eq_zero, hbit]
      simp
    rw [onPath, hzero, hamtIndex, ← hlen, onPathChild_at, Bool.or_eq_false_iff] at hpath
    obtain ⟨y, y', added, hy, hy', hyy⟩ :=
      ih x' (by simp) x (by simp) hx hx' hxx (by simpa using hpath.2)
    rw [if_neg (by simp), if_neg (by simp), hamtIndex, ← hlen, assocChild_at, hy, hlen, ← hlen',
      assocChildBang_at, hy']
    exact ⟨_, _, _, _, rfl, rfl, List.rel_append hl (.cons hyy hr)⟩

omit [DecidableEq τ] [BEq κ] in
theorem slots_of_single {c d : Nat} : slots d (1 <<< c) = if c < d then [c] else [] := by
  split
  · next hlt => exact slots_single hlt
  · next hle =>
    refine List.filter_eq_nil_iff.mpr fun i hi => ?_
    have hi' := List.mem_range.mp hi
    simp [Nat.one_shiftLeft, Nat.testBit_two_pow]
    omega

omit [DecidableEq τ] [BEq κ] in
theorem hamtIndex_single {c d : Nat} : hamtIndex (1 <<< c) (1 <<< d) = if c < d then 1 else 0 := by
  rw [hamtIndex, logcount_below, slots_of_single]
  split <;> rfl

/-- A leaf against a chain to this leaf, given the child. -/
theorem assoc_chain (hcongr : ∀ a b : κ, (a == b) = true → sxhash a = sxhash b) {l : Leaf κ ν}
    {t : Node τ κ ν} (hl : l.Wf sxhash shift pre) (hleaf : leaf.Wf sxhash shift pre)
    (hpre : pre < 2 ^ shift)
    (ht : Matches (.leaf l) t)
    (ih : chunk leaf.hash shift = chunk l.hash shift →
      AssocMatches (shift + bitShift) leaf token (.leaf l) t) :
    AssocMatches shift leaf token (.leaf l) (.tnode token (1 <<< chunk l.hash shift) [t]) := by
  have hkey : (l.key == leaf.key) = true → l.hash = leaf.hash := fun h => by
    rw [hl.1, hleaf.1, hcongr _ _ h]
  rw [AssocMatches, assocNodeBang, ensureEditable, if_pos rfl]
  simp only [bind, Except.bind, assocEditable, and_bit_eq_zero, hamtIndex_single]
  by_cases hchunk : chunk leaf.hash shift = chunk l.hash shift
  · obtain ⟨p', t', added, hp', ht', hm⟩ := ih hchunk
    have hbit : (1 <<< chunk l.hash shift).testBit (chunk l.hash shift) = true := by
      simp [Nat.one_shiftLeft]
    rw [hchunk, hbit, if_neg (by simp), if_neg (Nat.lt_irrefl _), assocChildBang, ht']
    rw [assocNode] at hp' ⊢
    cases hk : l.key == leaf.key with
    | true =>
      rw [hk, if_pos rfl] at hp'
      cases hp'
      exact ⟨_, _, _, rfl, rfl, matches_tnode.mpr (.inr ⟨rfl, t', rfl, hm⟩)⟩
    | false =>
      rw [hk, if_neg (by simp)] at hp'
      obtain ⟨n, hn, heq⟩ := Option.map_eq_some_iff.mp hp'
      cases heq
      rw [if_neg (by simp)]
      by_cases hhash : l.hash = leaf.hash
      · -- both make the bucket, the chain stays above it
        rw [mergeFuel, mergeLeaves, if_pos hhash] at hn ⊢
        cases hn
        exact ⟨_, _, _, rfl, rfl, matches_tnode.mpr (.inr ⟨rfl, t', rfl, hm⟩)⟩
      · -- `merge-leaves` makes the node that the chain already has
        obtain ⟨m, hmerge, -⟩ := mergeLeaves_ok (τ := τ) hpre hl hleaf hk
        have hmerge' := hmerge
        rw [mergeFuel, mergeLeaves, if_neg hhash] at hmerge'
        dsimp only at hmerge'
        rw [if_pos hchunk.symm] at hmerge'
        obtain ⟨child, hchild, rfl⟩ := Option.map_eq_some_iff.mp hmerge'
        have hsame := mergeLeaves_mono (Nat.le_succ _) hchild
        obtain rfl := Option.some.inj (hsame.symm.trans hn)
        rw [hmerge]
        exact ⟨_, _, _, rfl, rfl, matches_tnode.mpr (.inl ⟨_, rfl, .cons hm .nil⟩)⟩
  · have hhash : l.hash ≠ leaf.hash := fun h => hchunk (by rw [h])
    have hk : (l.key == leaf.key) = false := Bool.eq_false_iff.mpr fun h => hhash (hkey h)
    have hbit : (1 <<< chunk l.hash shift).testBit (chunk leaf.hash shift) = false := by
      simp [Nat.one_shiftLeft, Ne.symm hchunk]
    rw [hbit, if_pos rfl, assocNode, hk, if_neg (by simp), mergeFuel, mergeLeaves, if_neg hhash]
    dsimp only
    rw [if_neg (Ne.symm hchunk)]
    refine ⟨_, _, _, rfl, rfl, matches_tnode.mpr (.inl ⟨_, rfl, ?_⟩)⟩
    split
    · exact .cons ht (.cons rfl .nil)
    · exact .cons rfl (.cons ht .nil)

/-- Past no bucket of the persistent trie, both insertions succeed and the results match. -/
theorem assoc_matches (hcongr : ∀ a b : κ, (a == b) = true → sxhash a = sxhash b) {p t : Node τ κ ν}
    (hpre : pre < 2 ^ shift) (hp : p.Wf sxhash shift pre) (ht : t.Wf sxhash shift pre)
    (hfrozen : p.Frozen) (hlay : t.Layered (· = token)) (hm : Matches p t)
    (hleaf : leaf.Wf sxhash shift pre)
    (hpath : onPath bucket p shift leaf.hash = false) : AssocMatches shift leaf token p t := by
  induction t generalizing shift pre p with
  | leaf l =>
    obtain rfl : p = .leaf l := hm
    rw [AssocMatches, assocNode, assocNodeBang]
    cases hk : l.key == leaf.key with
    | true => exact ⟨_, _, _, rfl, rfl, rfl⟩
    | false =>
      obtain ⟨n, hn, -, hfz, -⟩ := mergeLeaves_ok (τ := τ) hpre hp hleaf hk
      rw [if_neg (by simp), if_neg (by simp), mergeInto, hn]
      exact ⟨n, n, true, rfl, rfl, .refl hfz⟩
  | collision hash leaves =>
    obtain rfl : p = .collision hash leaves := hm
    cases hpath
  | node b ts ih =>
    obtain rfl : p = .node b ts := hm
    obtain ⟨hb, hch⟩ := (wf_node_iff sxhash).mp hp
    have hfz := frozen_node.mp hfrozen
    obtain ⟨ps', ts', b', added, hassoc, hbang, hmatch⟩ :=
      assoc_routing hch hch (Matches.refl_list hfz)
      (fun x hx y hy hy' hx' hxy hpath => ih x hx (extend_lt hpre (chunk_lt _ _)) hy' hx' (hfz y hy)
        (hfz x hx).layered hxy hleaf.extend hpath) hpath
    exact ⟨_, _, _, hassoc, hbang, matches_tnode.mpr (.inl ⟨_, rfl, hmatch⟩)⟩
  | tnode token' b ts ih =>
    obtain ⟨rfl, hts⟩ := layered_tnode.mp hlay
    obtain ⟨hb, htch⟩ := (wf_tnode_iff sxhash).mp ht
    rcases matches_tnode.mp hm with ⟨ps, rfl, hchildren⟩ | ⟨hentry, t, rfl, hchild⟩
    · obtain ⟨-, hpch⟩ := (wf_node_iff sxhash).mp hp
      have hfz := frozen_node.mp hfrozen
      obtain ⟨ps', ts', b', added, hassoc, hbang, hmatch⟩ := assoc_routing hpch htch hchildren
        (fun x hx y hy hy' hx' hxy hpath =>
          ih x hx (extend_lt hpre (chunk_lt _ _)) hy' hx' (hfz y hy)
          (hts x hx) hxy hleaf.extend hpath) hpath
      refine ⟨_, .tnode token' b' ts', _, hassoc, ?_, matches_tnode.mpr (.inl ⟨_, rfl, hmatch⟩)⟩
      rw [assocNodeBang, ensureEditable, if_pos rfl]
      exact hbang
    · cases p with
      | leaf l =>
        obtain ⟨c, hc, rfl, hwf, hchunks⟩ := chain_bitmap hpre hb htch
        have hl : l.Wf sxhash shift pre := hp
        have hchunk : chunk l.hash shift = c := by
          rw [hl.1]
          exact hchunks l.binding (by rw [← hchild.entries]; exact List.mem_singleton_self _)
        subst hchunk
        refine assoc_chain hcongr hl hleaf hpre hchild fun heq => ?_
        exact ih t List.mem_cons_self (extend_lt hpre hc) hl.extend hwf trivial
          (hts t List.mem_cons_self) hchild
          (heq ▸ hleaf.extend) rfl
      | collision hash leaves => cases hpath
      | node b' ps => cases hentry
      | tnode t' b' ps => cases hentry

end

/-! ## §3 Removal -/

section

variable [DecidableEq τ] [BEq κ] {sxhash : κ → Nat} {shift pre b hash : Nat} {key : κ} {token : τ}

/-- Both removals succeed, and the results match. -/
def DissocMatches (shift hash : Nat) (key : κ) (token : τ) (p t : Node τ κ ν) : Prop :=
  ∃ p' t' removed, dissocNode p shift hash key = (p', removed) ∧
    dissocNodeBang t shift hash key token = .ok (t', removed) ∧ Option.Rel Matches p' t'

omit [DecidableEq τ] [BEq κ] in
theorem shrink_matches (b : Nat) (token : τ) {ps ts : List (Node τ κ ν)}
    (hm : List.Forall₂ Matches ps ts) :
    Option.Rel Matches (shrinkNode b ps) (if b = 0 then none else some (.tnode token b ts)) := by
  unfold shrinkNode
  split
  · exact .none
  · split
    · next l =>
      obtain ⟨t, ts', ht, hnil, rfl⟩ := List.forall₂_cons_left_iff.mp hm
      rw [List.forall₂_nil_left_iff.mp hnil]
      exact .some (matches_tnode.mpr (.inr ⟨rfl, t, rfl, ht⟩))
    · exact .some (matches_tnode.mpr (.inl ⟨ps, rfl, hm⟩))

/-- In matched routing nodes, given the children. -/
theorem dissoc_routing {ps ts : List (Node τ κ ν)}
    (hp : List.Forall₂ (ChildWf sxhash shift pre) (slots 32 b) ps)
    (ht : List.Forall₂ (ChildWf sxhash shift pre) (slots 32 b) ts) (hm : List.Forall₂ Matches ps ts)
    (ih : ∀ t ∈ ts, ∀ p ∈ ps, ChildWf sxhash shift pre (chunk hash shift) p →
      ChildWf sxhash shift pre (chunk hash shift) t → Matches p t →
      DissocMatches (shift + bitShift) hash key token p t) :
    ∃ p' t' removed, dissocNode (.node b ps) shift hash key = (p', removed) ∧
      dissocEditable token shift hash (b, ts)
      (dissocChildBang ts (hamtIndex b (1 <<< chunk hash shift))
        (shift + bitShift) hash key token) = .ok (t', removed) ∧ Option.Rel Matches p' t' := by
  have hc := chunk_lt hash shift
  have hkept : Option.Rel Matches (some (.node b ps)) (some (.tnode token b ts)) :=
    .some (matches_tnode.mpr (.inl ⟨ps, rfl, hm⟩))
  rw [dissocNode]
  simp only [dissocEditable, and_bit_eq_zero]
  cases hbit : b.testBit (chunk hash shift) with
  | false => exact ⟨_, _, _, rfl, rfl, hkept⟩
  | true =>
    obtain ⟨l, x, r, l', x', r', rfl, rfl, hlen, hlen', hx, hx', hl, hxx, hr⟩ :=
      matched_at_set hc hbit hp ht hm
    obtain ⟨y, y', removed, hy, hy', hyy⟩ := ih x' (by simp) x (by simp) hx hx' hxx
    have hll : l.length = l'.length := hlen.trans hlen'.symm
    rw [if_neg (by simp), if_neg (by simp), hamtIndex, ← hlen, dissocChild_at, hy, hll,
      dissocChildBang_at, hy', ← hll]
    cases removed with
    | false => exact ⟨_, _, _, rfl, rfl, hkept⟩
    | true =>
      cases hyy with
      | none =>
        have hshrunk := shrink_matches (logandc2 b (1 <<< chunk hash shift)) token
          (List.rel_append hl hr)
        simp only [cloneAndRemove_at]
        simp only [hll, cloneAndRemove_at]
        refine ⟨_, _, _, rfl, ?_, hshrunk⟩
        show (if _ then _ else _) = _
        split <;> rfl
      | some hyy =>
        simp only [set_at]
        simp only [hll, set_at]
        exact ⟨_, _, _, rfl, rfl,
          .some (matches_tnode.mpr (.inl ⟨_, rfl, List.rel_append hl (.cons hyy hr)⟩))⟩

omit [DecidableEq τ] in
theorem dissocNode_entry {p : Node τ κ ν} (hentry : p.isEntry = true) (shift hash : Nat) (key : κ) :
    (∀ shift', dissocNode p shift' hash key = dissocNode p shift hash key) ∧
      (∀ n ∈ (dissocNode p shift hash key).1, n.isEntry = true) ∧
      ((dissocNode p shift hash key).2 = false → (dissocNode p shift hash key).1 = some p) := by
  cases p with
  | leaf l =>
    rw [dissocNode]
    refine ⟨fun _ => by rw [dissocNode], ?_⟩
    cases l.key == key <;> simp [Node.isEntry]
  | collision h leaves =>
    rw [dissocNode]
    refine ⟨fun _ => by rw [dissocNode], ?_⟩
    cases leaves.findIdx? fun l => l.key == key with
    | none => simp [Node.isEntry]
    | some i =>
      simp only [Option.mem_def, Option.some.injEq, forall_eq', shrinkBucket, Bool.true_eq_false,
        false_implies, and_true]
      split <;> rfl
  | node b' ps => cases hentry
  | tnode t' b' ps => cases hentry

/-- A leaf or bucket against a chain to it, given the child. -/
theorem dissoc_chain {p t : Node τ κ ν} {c : Nat} (hentry : p.isEntry = true)
    (hm : Matches p t)
    (hoff : chunk hash shift ≠ c → (dissocNode p shift hash key).2 = false)
    (ih : chunk hash shift = c → DissocMatches (shift + bitShift) hash key token p t) :
    DissocMatches shift hash key token p (.tnode token (1 <<< c) [t]) := by
  obtain ⟨hshift, hentries, hkept⟩ := dissocNode_entry hentry shift hash key
  have hsame : Option.Rel Matches (some p) (some (.tnode token (1 <<< c) [t])) :=
    .some (matches_tnode.mpr (.inr ⟨hentry, t, rfl, hm⟩))
  rw [DissocMatches, dissocNodeBang, ensureEditable, if_pos rfl]
  simp only [bind, Except.bind, dissocEditable, and_bit_eq_zero, hamtIndex_single]
  by_cases hchunk : chunk hash shift = c
  · obtain ⟨y, y', removed, hy, hy', hyy⟩ := ih hchunk
    rw [hshift] at hy
    have hbit : (1 <<< c).testBit c = true := by simp [Nat.one_shiftLeft]
    rw [hchunk, hbit, if_neg (by simp), if_neg (Nat.lt_irrefl _), dissocChildBang, hy', hy]
    rw [hy] at hentries hkept
    cases removed with
    | false =>
      obtain rfl : y = some p := hkept rfl
      exact ⟨_, _, _, rfl, rfl, hsame⟩
    | true =>
      cases hyy with
      | none =>
        have hzero : logandc2 (1 <<< c) (1 <<< c) = 0 := by simp [logandc2]
        simp only [hzero]
        exact ⟨_, _, _, rfl, rfl, .none⟩
      | some hyy =>
          exact ⟨_, _, _, rfl, rfl, .some (matches_tnode.mpr (.inr ⟨hentries _ rfl, _, rfl, hyy⟩))⟩
  · have hbit : (1 <<< c).testBit (chunk hash shift) = false := by
      simp [Nat.one_shiftLeft, Ne.symm hchunk]
    have hfound := hoff hchunk
    rw [hbit, if_pos rfl]
    exact ⟨some p, _, false, Prod.ext (hkept hfound) hfound, rfl, hsame⟩

omit [DecidableEq τ] in
/-- A key that is not found leaves the node as it is. -/
theorem dissocNode_absent {p : Node τ κ ν} {p' : Option (Node τ κ ν)} (hfrozen : p.Frozen)
    (h : dissocNode p shift hash key = (p', false)) : p' = some p := by
  cases p with
  | leaf l =>
    have hkept := (dissocNode_entry (show (Node.leaf l : Node τ κ ν).isEntry = true from rfl)
      shift hash key).2.2
    rw [h] at hkept
    exact hkept rfl
  | collision h' leaves =>
    have hkept :=
      (dissocNode_entry (show (Node.collision h' leaves : Node τ κ ν).isEntry = true from rfl)
      shift hash key).2.2
    rw [h] at hkept
    exact hkept rfl
  | node b ps =>
    rw [dissocNode] at h
    dsimp only at h
    split at h
    · cases h
      rfl
    · split at h <;> cases h
      rfl
  | tnode t' b ps => exact absurd hfrozen frozen_tnode

omit [DecidableEq τ] in
/-- A leaf or bucket on the path of a longer chunk. -/
theorem wf_of_isEntry {p : Node τ κ ν} {c : Nat} (hp : p.Wf sxhash shift pre)
    (hentry : p.isEntry = true) (hchunks : ∀ e ∈ p.entries, chunk (sxhash e.1) shift = c) :
    p.Wf sxhash (shift + bitShift) (extend shift pre c) := by
  have hbelow : ∀ l : Leaf κ ν, l.Wf sxhash shift pre → l.binding ∈ p.entries →
      l.Wf sxhash (shift + bitShift) (extend shift pre c) := by
    intro l hl hmem
    have hchunk : chunk l.hash shift = c := by
      rw [hl.1]
      exact hchunks l.binding hmem
    exact hchunk ▸ hl.extend
  cases p with
  | leaf l => exact hbelow l hp (by simp)
  | collision h leaves =>
    obtain ⟨hlen, hleaves, hdistinct⟩ := hp
    exact ⟨hlen, fun l hl => hbelow l (hleaves l hl) (List.mem_map_of_mem hl), hdistinct⟩
  | node b' ps => cases hentry
  | tnode t' b' ps => cases hentry

/-- Both removals succeed and the results match. -/
theorem dissoc_matches [EquivBEq κ] (hcongr : ∀ a b : κ, (a == b) = true → sxhash a = sxhash b)
    {p t : Node τ κ ν} (hpre : pre < 2 ^ shift) (hp : p.Wf sxhash shift pre)
    (ht : t.Wf sxhash shift pre)
    (hfrozen : p.Frozen) (hlay : t.Layered (· = token)) (hm : Matches p t)
    (hkey : sxhash key % 2 ^ shift = pre) :
    DissocMatches shift (sxhash key) key token p t := by
  induction t generalizing shift pre p with
  | leaf l =>
    obtain rfl : p = .leaf l := hm
    rw [DissocMatches, dissocNode, dissocNodeBang]
    cases l.key == key with
    | true => exact ⟨_, _, _, rfl, rfl, .none⟩
    | false => exact ⟨_, _, _, rfl, rfl, .some rfl⟩
  | collision hash leaves =>
    obtain rfl : p = .collision hash leaves := hm
    rw [DissocMatches, dissocNode, dissocNodeBang]
    cases leaves.findIdx? fun l => l.key == key with
    | none => exact ⟨_, _, _, rfl, rfl, .some rfl⟩
    | some i =>
      refine ⟨_, _, _, rfl, rfl, .some (Matches.refl ?_)⟩
      unfold shrinkBucket
      split <;> trivial
  | node b ts ih =>
    obtain rfl : p = .node b ts := hm
    obtain ⟨hb, hch⟩ := (wf_node_iff sxhash).mp hp
    have hfz := frozen_node.mp hfrozen
    exact dissoc_routing hch hch (Matches.refl_list hfz) fun x hx y hy hy' hx' hxy =>
      ih x hx (extend_lt hpre (chunk_lt _ _)) hy' hx' (hfz y hy) (hfz x hx).layered hxy
        (by rw [mod_extend, hkey])
  | tnode token' b ts ih =>
    obtain ⟨rfl, hts⟩ := layered_tnode.mp hlay
    obtain ⟨hb, htch⟩ := (wf_tnode_iff sxhash).mp ht
    rcases matches_tnode.mp hm with ⟨ps, rfl, hchildren⟩ | ⟨hentry, t, rfl, hchild⟩
    · obtain ⟨-, hpch⟩ := (wf_node_iff sxhash).mp hp
      have hfz := frozen_node.mp hfrozen
      rw [DissocMatches, dissocNodeBang, ensureEditable, if_pos rfl]
      exact dissoc_routing hpch htch hchildren fun x hx y hy hy' hx' hxy =>
        ih x hx (extend_lt hpre (chunk_lt _ _)) hy' hx' (hfz y hy) (hts x hx) hxy
          (by rw [mod_extend, hkey])
    · obtain ⟨c, hc, rfl, hwf, hchunks⟩ := chain_bitmap hpre hb htch
      rw [← hchild.entries] at hchunks
      refine dissoc_chain hentry hchild (fun hoff => ?_) fun heq => ?_
      · obtain ⟨n', removed, hn', -, hremoves⟩ := dissocNode_spec hcongr hpre hp hfrozen hkey
        rw [hn']
        refine hremoves.removed.trans (bound_eq_false_iff.mpr fun e he => ?_)
        refine Bool.eq_false_iff.mpr fun hsame => hoff ?_
        rw [← hcongr _ _ hsame, hchunks e he]
      · exact ih t List.mem_cons_self (extend_lt hpre hc) (wf_of_isEntry hp hentry hchunks) hwf
          hfrozen
          (hts t List.mem_cons_self) hchild (by rw [mod_extend, hkey, heq])

end

/-! ## §4 Calls -/

section

variable [DecidableEq τ] [BEq κ] [EquivBEq κ] {sxhash : κ → Nat} {thread : τ}
    {th : TransientHamt τ κ ν}
  {h : Hamt τ κ ν}

/-- A transient of `thread` whose trie matches the persistent one. -/
structure InOrder (sxhash : κ → Nat) (thread : τ) (th : TransientHamt τ κ ν) (h : Hamt τ κ ν) :
    Prop where
  token : th.token = some thread
  transient : th.Valid (· = thread) sxhash
  persistent : h.Valid sxhash
  matched : Option.Rel Matches h.root th.root
  count : th.count = h.count

omit [DecidableEq τ] [EquivBEq κ] in
theorem apiTransientHamt_inOrder (hv : h.Valid sxhash) :
    InOrder sxhash thread (apiTransientHamt thread h) h := by
  refine ⟨rfl, apiTransientHamt_valid hv thread, hv, ?_, rfl⟩
  rw [apiTransientHamt]
  cases hroot : h.root with
  | none => exact .none
  | some n => exact .some (Matches.refl (hv.frozen n hroot))

omit [DecidableEq τ] [EquivBEq κ] in
theorem InOrder.roots (hs : InOrder sxhash thread th h) : (h.root = none ∧ th.root = none) ∨
    ∃ p t, h.root = some p ∧ th.root = some t ∧ Matches p t := by
  have hm := hs.matched
  generalize h.root = root at hm ⊢
  generalize th.root = root' at hm ⊢
  cases hm with
  | none => exact .inl ⟨rfl, rfl⟩
  | some hm => exact .inr ⟨_, _, rfl, rfl, hm⟩

omit [DecidableEq τ] [EquivBEq κ] in
theorem InOrder.entries (hs : InOrder sxhash thread th h) :
    rootEntries th.root = rootEntries h.root := by
  rcases hs.roots with ⟨hnone, hnone'⟩ | ⟨p, t, hr, hr', hm⟩
  · rw [hnone, hnone']
  · rw [hr, hr']
    exact hm.entries.symm

/-- An insertion that meets no bucket of the persistent trie. -/
theorem InOrder.assoc (hcongr : ∀ a b : κ, (a == b) = true → sxhash a = sxhash b)
    (hs : InOrder sxhash thread th h) (key : κ) (value : ν)
    (hpath : rootOnPath bucket h.root (sxhash key) = false) :
    ∃ th' h', hamtAssocBang sxhash thread th key value = .ok th' ∧
    hamtAssoc sxhash h key value = some h' ∧
      InOrder sxhash thread th' h' := by
  obtain ⟨h', hh', hv', -⟩ := hamtAssoc_spec hcongr hs.persistent key value
  have hroot : ∃ p' t' added, assocRoot h.root (sxhash key) key value = some (p', added) ∧
      assocRootBang th.root ⟨sxhash key, key, value⟩ thread = .ok (t', added) ∧ Matches p' t' := by
    rcases hs.roots with ⟨hnone, hnone'⟩ | ⟨p, t, hr, hr', hm⟩
    · rw [hnone, hnone']
      exact ⟨_, _, _, rfl, rfl, rfl⟩
    · rw [hr] at hpath ⊢
      rw [hr']
      have hfree : onPath bucket p 0 (sxhash key) = false := hpath
      have hleaf : Leaf.Wf sxhash 0 0 ⟨sxhash key, key, value⟩ := ⟨rfl, Nat.mod_one _⟩
      exact assoc_matches hcongr (by simp) (hs.persistent.wf p hr) (hs.transient.wf t hr')
        (hs.persistent.frozen p hr) (hs.transient.layered t hr') hm hleaf hfree
  obtain ⟨p', t', added, hp', ht', hm⟩ := hroot
  have hbang : hamtAssocBang sxhash thread th key value =
      .ok { th with root := some t', count := if added then th.count + 1 else th.count } := by
    rw [hamtAssocBang, hs.token]
    simp only [if_pos]
    rw [ht']
    rfl
  have hfree : rootOnPath (uneditable thread) th.root (sxhash key) = false := by
    rw [← Bool.not_eq_true]
    intro hblocked
    obtain ⟨e, he⟩ := hamtAssocBang_blocked hs.transient hs.token key value hblocked
    rw [hbang] at he
    cases he
  obtain ⟨th', hok, hvalid, -⟩ := hamtAssocBang_ok hcongr hs.transient hs.token rfl key value hfree
  have hassoc := hh'
  rw [hamtAssoc, hp'] at hassoc
  cases hassoc
  rw [hbang] at hok
  cases hok
  exact ⟨_, _, hbang, hh', hs.token, hvalid, hv', .some hm, by simp [hs.count]⟩

theorem InOrder.dissoc (hcongr : ∀ a b : κ, (a == b) = true → sxhash a = sxhash b)
    (hs : InOrder sxhash thread th h) (key : κ) :
    ∃ th', hamtDissocBang sxhash thread th key = .ok th' ∧
      InOrder sxhash thread th' (hamtDissoc sxhash h key) := by
  obtain ⟨hv', -⟩ := hamtDissoc_spec hcongr hs.persistent key
  obtain ⟨th', hok, hvalid, htok, -⟩ :=
    hamtDissocBang_ok hcongr hs.transient hs.token rfl thread key
    (rootOnPath_foreign_own hs.transient.layered _)
  suffices hboth : Option.Rel Matches (hamtDissoc sxhash h key).root th'.root ∧
      th'.count = (hamtDissoc sxhash h key).count from
    ⟨th', hok, htok.trans hs.token, hvalid, hv', hboth.1, hboth.2⟩
  rw [hamtDissocBang, hs.token] at hok
  rcases hs.roots with ⟨hnone, hnone'⟩ | ⟨p, t, hr, hr', hm⟩
  · rw [hnone'] at hok
    cases hok
    rw [hamtDissoc, hnone]
    exact ⟨hs.matched, hs.count⟩
  · obtain ⟨p', t', removed, hp', ht', hm'⟩ :=
      dissoc_matches hcongr (by simp) (hs.persistent.wf p hr)
      (hs.transient.wf t hr') (hs.persistent.frozen p hr) (hs.transient.layered t hr') hm
      (Nat.mod_one (sxhash key))
    rw [hr'] at hok
    simp only [ht'] at hok
    cases hok
    rw [hamtDissoc, hr]
    simp only [hp']
    cases removed with
    | true => exact ⟨hm', by simp [hs.count]⟩
    | false =>
      obtain rfl := dissocNode_absent (hs.persistent.frozen p hr) hp'
      exact ⟨hr ▸ hm', hs.count⟩

end

end Fol.HashTrie
