/-
Fol.HashTrie.Session — a transient session of the owning thread against the
same calls on the persistent trie.

Within a session of one owner every transient node carries the owner's token, so
`dissoc!` and reads always succeed and only a collision bucket on the path stops
`assoc!`. A session therefore agrees with the persistent run exactly when none
of its insertions meets a bucket, and the same goes for `hamt-bulk-load`.
-/
import Fol.HashTrie.TransientTheorems
import Fol.Lib.Results

namespace Fol.HashTrie

open Lib

variable {τ κ ν : Type} [DecidableEq τ] [BEq κ]

/-! ## §1 Calls -/

/-- A call of the owning thread in a session. -/
inductive Call (κ ν : Type) where
  | assoc (key : κ) (value : ν)
  | dissoc (key : κ)
  | get (key : κ)
deriving DecidableEq

/-- One call on the transient; the list holds what a read returned. -/
def call (sxhash : κ → Nat) (thread : τ) (th : TransientHamt τ κ ν) :
    Call κ ν → Except Error (TransientHamt τ κ ν × List (Option ν))
  | .assoc key value => (hamtAssocBang sxhash thread th key value).map (·, [])
  | .dissoc key => (hamtDissocBang sxhash thread th key).map (·, [])
  | .get key => .ok (th, [hamtGetTransient sxhash th key])

/-- A whole session; it stops at the first call that signals an error. -/
def session (sxhash : κ → Nat) (thread : τ) (th : TransientHamt τ κ ν) :
    List (Call κ ν) → Except Error (TransientHamt τ κ ν × List (Option ν))
  | [] => .ok (th, [])
  | c :: cs => do
    let r ← call sxhash thread th c
    let rest ← session sxhash thread r.1 cs
    return (rest.1, r.2 ++ rest.2)

/-- The same call on the persistent trie. -/
def persistentCall (sxhash : κ → Nat) (h : Hamt τ κ ν) :
    Call κ ν → Option (Hamt τ κ ν × List (Option ν))
  | .assoc key value => (hamtAssoc sxhash h key value).map (·, [])
  | .dissoc key => some (hamtDissoc sxhash h key, [])
  | .get key => some (h, [hamtGet sxhash h key])

def persistentRun (sxhash : κ → Nat) (h : Hamt τ κ ν) :
    List (Call κ ν) → Option (Hamt τ κ ν × List (Option ν))
  | [] => some (h, [])
  | c :: cs => do
    let r ← persistentCall sxhash h c
    let rest ← persistentRun sxhash r.1 cs
    return (rest.1, r.2 ++ rest.2)

/-- The same bindings and the same count. -/
structure SameBindings (sxhash : κ → Nat) (h h' : Hamt τ κ ν) : Prop where
  count : h.count = h'.count
  get : ∀ key, hamtGet sxhash h key = hamtGet sxhash h' key
  entries : (rootEntries h.root).Perm (rootEntries h'.root)

/-- No call of the session fails, every read returns what `hamt-get` returns on
the persistent trie, and `hamt-persistent!` delivers the persistent trie's
bindings and count. -/
def SessionAgrees (sxhash : κ → Nat) (thread : τ) (h : Hamt τ κ ν) (cs : List (Call κ ν)) : Prop :=
  ∃ th reads h' th' frozen,
    session sxhash thread (apiTransientHamt thread h) cs = .ok (th, reads) ∧
    persistentRun sxhash h cs = some (h', reads) ∧
    hamtPersistentBang thread th = .ok (th', frozen) ∧ SameBindings sxhash frozen h'

/-- The left fold of `hamt-assoc` over the pairs. -/
def foldAssoc (sxhash : κ → Nat) (h : Hamt τ κ ν) (pairs : List (κ × ν)) : Option (Hamt τ κ ν) :=
  pairs.foldlM (fun h p => hamtAssoc sxhash h p.1 p.2) h

/-- `hamt-bulk-load` returns the very trie the fold of `hamt-assoc` builds. -/
def BulkLoadAgrees (sxhash : κ → Nat) (token : τ) (pairs : List (κ × ν)) : Prop :=
  ∃ h, hamtBulkLoad sxhash token pairs = .ok h ∧ foldAssoc sxhash {} pairs = some h

/-! ## §2 Buckets -/

/-- The call is an insertion whose search path ends in a collision bucket. -/
def meetsBucket (sxhash : κ → Nat) (th : TransientHamt τ κ ν) : Call κ ν → Bool
  | .assoc key _ => rootOnPath bucket th.root (sxhash key)
  | _ => false

/-- No insertion of the session meets a bucket in the state it is made in. -/
def avoidsBuckets (sxhash : κ → Nat) (thread : τ) (th : TransientHamt τ κ ν) :
    List (Call κ ν) → Bool
  | [] => true
  | c :: cs => !meetsBucket sxhash th c &&
    match call sxhash thread th c with
    | .ok r => avoidsBuckets sxhash thread r.1 cs
    | .error _ => true

/-! ## §3 Simulation -/

/-- A transient of `thread` that holds the bindings of the persistent trie. -/
structure Simulates (sxhash : κ → Nat) (thread : τ) (th : TransientHamt τ κ ν) (h : Hamt τ κ ν) :
    Prop where
  token : th.token = some thread
  transient : th.Valid (· = thread) sxhash
  persistent : h.Valid sxhash
  entries : (rootEntries th.root).Perm (rootEntries h.root)

variable {sxhash : κ → Nat}

omit [BEq κ] in
theorem rootOnPath_uneditable_own {thread : τ} {root : Option (Node τ κ ν)}
    (h : ∀ n ∈ root, n.Layered (· = thread)) (hash : Nat) :
    rootOnPath (uneditable thread) root hash = rootOnPath bucket root hash := by
  cases root with
  | none => rfl
  | some n => exact onPath_uneditable_own (h n rfl) 0 hash

omit [BEq κ] in
theorem rootOnPath_foreign_own {thread : τ} {root : Option (Node τ κ ν)}
    (h : ∀ n ∈ root, n.Layered (· = thread)) (hash : Nat) :
    rootOnPath (foreign thread) root hash = false := by
  cases root with
  | none => rfl
  | some n => exact onPath_foreign_own (h n rfl) 0 hash

theorem call_blocked {thread : τ} {th : TransientHamt τ κ ν} {h : Hamt τ κ ν}
    (hs : Simulates sxhash thread th h) {c : Call κ ν} (hc : meetsBucket sxhash th c = true) :
    ∃ e, call sxhash thread th c = .error e := by
  cases c with
  | assoc key value =>
    obtain ⟨e, he⟩ := hamtAssocBang_blocked hs.transient hs.token key value
      ((rootOnPath_uneditable_own hs.transient.layered _).trans hc)
    exact ⟨e, by rw [call, he]; rfl⟩
  | dissoc key => exact absurd hc (by simp [meetsBucket])
  | get key => exact absurd hc (by simp [meetsBucket])

variable [EquivBEq κ] (hcongr : ∀ a b : κ, (a == b) = true → sxhash a = sxhash b)
include hcongr

/-- Step lemma: a call that meets no bucket succeeds on both sides, with the same
read, and keeps the two tries related. -/
theorem call_simulates {thread : τ} {th : TransientHamt τ κ ν} {h : Hamt τ κ ν}
    (hs : Simulates sxhash thread th h) {c : Call κ ν} (hc : meetsBucket sxhash th c = false) :
    ∃ th' h' reads, call sxhash thread th c = .ok (th', reads) ∧
      persistentCall sxhash h c = some (h', reads) ∧ Simulates sxhash thread th' h' := by
  cases c with
  | assoc key value =>
    obtain ⟨th', hok, hv, htok, hp⟩ := hamtAssocBang_ok hcongr hs.transient hs.token rfl key value
      ((rootOnPath_uneditable_own hs.transient.layered _).trans hc)
    obtain ⟨h', hok', hv', hp'⟩ := hamtAssoc_spec hcongr hs.persistent key value
    exact ⟨th', h', [], by rw [call, hok]; rfl, by rw [persistentCall, hok']; rfl,
      htok.trans hs.token, hv, hv', hp.trans ((perm_put hs.entries key value).trans hp'.symm)⟩
  | dissoc key =>
    obtain ⟨th', hok, hv, htok, hp⟩ := hamtDissocBang_ok hcongr hs.transient hs.token rfl thread key
      (rootOnPath_foreign_own hs.transient.layered _)
    obtain ⟨hv', hp'⟩ := hamtDissoc_spec hcongr hs.persistent key
    exact ⟨th', _, [], by rw [call, hok]; rfl, rfl,
      htok.trans hs.token, hv, hv', hp.trans ((perm_without hs.entries key).trans hp'.symm)⟩
  | get key =>
    refine ⟨th, h, _, rfl, ?_, hs⟩
    rw [persistentCall, hamtGet_eq_lookup hcongr hs.persistent,
      hamtGetTransient_eq_lookup hcongr hs.transient,
      lookup_perm (hs.transient.distinct hcongr) hs.entries]

/-- Run lemma: a session that avoids the buckets runs in step with the persistent
trie. -/
theorem session_simulates {thread : τ} {th : TransientHamt τ κ ν} {h : Hamt τ κ ν}
    (hs : Simulates sxhash thread th h) {cs : List (Call κ ν)}
    (hc : avoidsBuckets sxhash thread th cs = true) :
    ∃ th' h' reads, session sxhash thread th cs = .ok (th', reads) ∧
      persistentRun sxhash h cs = some (h', reads) ∧ Simulates sxhash thread th' h' := by
  induction cs generalizing th h with
  | nil => exact ⟨th, h, [], rfl, rfl, hs⟩
  | cons c cs ih =>
    rw [avoidsBuckets, Bool.and_eq_true, Bool.not_eq_true'] at hc
    obtain ⟨th₁, h₁, reads₁, hcall, hpcall, hs₁⟩ := call_simulates hcongr hs hc.1
    rw [hcall] at hc
    obtain ⟨th', h', reads, hsess, hrun, hs'⟩ := ih hs₁ hc.2
    exact ⟨th', h',
      reads₁ ++ reads, by rw [session, hcall]; simp only [bind, Except.bind, hsess]; rfl,
      by rw [persistentRun, hpcall]; simp only [bind, Option.bind, hrun]; rfl, hs'⟩

/-- A session that meets a bucket fails. -/
theorem session_blocked {thread : τ} {th : TransientHamt τ κ ν} {h : Hamt τ κ ν}
    (hs : Simulates sxhash thread th h) {cs : List (Call κ ν)}
    (hc : avoidsBuckets sxhash thread th cs = false) :
    ∃ e, session sxhash thread th cs = .error e := by
  induction cs generalizing th h with
  | nil => exact absurd hc (by simp [avoidsBuckets])
  | cons c cs ih =>
    cases hm : meetsBucket sxhash th c with
    | true =>
      obtain ⟨e, he⟩ := call_blocked hs hm
      exact ⟨e, by rw [session, he]; rfl⟩
    | false =>
      obtain ⟨th₁, h₁, reads₁, hcall, -, hs₁⟩ := call_simulates hcongr hs hm
      rw [avoidsBuckets, hm, hcall] at hc
      obtain ⟨e, he⟩ := ih hs₁ (by simpa using hc)
      exact ⟨e, by rw [session, hcall]; simp only [bind, Except.bind, he]⟩

omit [DecidableEq τ] in
theorem sameBindings_of_perm {h h' : Hamt τ κ ν} (hv : h.Valid sxhash) (hv' : h'.Valid sxhash)
    (hp : (rootEntries h.root).Perm (rootEntries h'.root)) : SameBindings sxhash h h' :=
  ⟨by rw [hv.count, hv'.count, hp.length_eq],
    fun key => by
      rw [hamtGet_eq_lookup hcongr hv, hamtGet_eq_lookup hcongr hv',
        lookup_perm (hv.distinct hcongr) hp],
    hp⟩

omit hcongr [EquivBEq κ] [DecidableEq τ] in
theorem simulates_apiTransientHamt {h : Hamt τ κ ν} (hv : h.Valid sxhash) (thread : τ) :
    Simulates sxhash thread (apiTransientHamt thread h) h :=
  ⟨rfl, apiTransientHamt_valid hv thread, hv, .refl _⟩

theorem sessionAgrees_iff {h : Hamt τ κ ν} (hv : h.Valid sxhash) (thread : τ)
    (cs : List (Call κ ν)) :
    SessionAgrees sxhash thread h cs ↔
      avoidsBuckets sxhash thread (apiTransientHamt thread h) cs = true := by
  have hs := simulates_apiTransientHamt hv thread
  constructor
  · rintro ⟨th, reads, h', th', frozen, hsess, -⟩
    rw [← Bool.not_eq_false]
    intro hc
    obtain ⟨e, he⟩ := session_blocked hcongr hs hc
    rw [he] at hsess
    exact absurd hsess (by simp)
  · intro hc
    obtain ⟨th, h', reads, hsess, hrun, hs'⟩ := session_simulates hcongr hs hc
    obtain ⟨frozen, hok, hv', hroot⟩ := hamtPersistentBang_ok hs'.transient hs'.token
    exact ⟨th, reads, h', _, frozen, hsess, hrun, hok,
      sameBindings_of_perm hcongr hv' hs'.persistent (by rw [hroot]; exact hs'.entries)⟩

/-! ## §4 Bulk load -/

section Freeze

omit [DecidableEq τ] [BEq κ] [EquivBEq κ] hcongr

theorem freezeNode_eq_self {n : Node τ κ ν} (h : n.Frozen) : freezeNode n = n := by
  cases n with
  | tnode t bitmap children => exact absurd h frozen_tnode
  | _ => rfl

theorem freezeList_eq_self {ns : List (Node τ κ ν)} (h : ∀ n ∈ ns, n.Frozen) :
    ns.map freezeNode = ns :=
  (List.map_congr_left fun n hn => freezeNode_eq_self (h n hn)).trans (List.map_id _)

theorem mergeLeaves_frozen {fuel shift : Nat} {leaf1 leaf2 : Leaf κ ν} {n : Node τ κ ν}
    (h : mergeLeaves fuel shift leaf1 leaf2 = some n) : n.Frozen := by
  induction fuel generalizing shift n with
  | zero => exact absurd h (by simp [mergeLeaves])
  | succ fuel ih =>
    rw [mergeLeaves] at h
    split at h
    · cases h
      trivial
    · dsimp only at h
      split at h
      · obtain ⟨child, hchild, rfl⟩ := Option.map_eq_some_iff.mp h
        simpa using ih hchild
      · cases h
        split <;> simp

end Freeze

section FreezeAssoc

omit [EquivBEq κ] hcongr

theorem assocChildBang_freeze {children children' : List (Node τ κ ν)} {idx shift : Nat}
    {leaf : Leaf κ ν} {token : τ} {added : Bool}
    (ih : ∀ c ∈ children, ∀ {shift : Nat} {c' : Node τ κ ν} {added : Bool},
      assocNodeBang c shift leaf token = .ok (c', added) →
      assocNode (freezeNode c) shift leaf.hash leaf.key leaf.value = some (freezeNode c', added))
    (h : assocChildBang children idx shift leaf token = .ok (children', added)) :
    assocChild (children.map freezeNode) idx shift leaf.hash leaf.key leaf.value =
      some (children'.map freezeNode, added) := by
  induction children generalizing idx children' added with
  | nil => exact absurd h (by simp [assocChildBang])
  | cons c cs ihc =>
    cases idx with
    | zero =>
      rw [assocChildBang] at h
      obtain ⟨r, hc, hr⟩ := bind_pure_eq_ok.mp h
      cases hr
      rw [List.map_cons, assocChild, ih c List.mem_cons_self hc]
      rfl
    | succ i =>
      rw [assocChildBang] at h
      obtain ⟨r, hc, hr⟩ := bind_pure_eq_ok.mp h
      cases hr
      rw [List.map_cons, assocChild, ihc (fun d hd => ih d (List.mem_cons_of_mem _ hd)) hc]
      rfl

theorem assocEditable_freeze {bitmap shift : Nat} {children : List (Node τ κ ν)}
    {n' : Node τ κ ν} {leaf : Leaf κ ν} {token : τ} {added : Bool}
    (ih : ∀ c ∈ children, ∀ {shift : Nat} {c' : Node τ κ ν} {added : Bool},
      assocNodeBang c shift leaf token = .ok (c', added) →
      assocNode (freezeNode c) shift leaf.hash leaf.key leaf.value = some (freezeNode c', added))
    (h : assocEditable token shift leaf (bitmap, children)
      (assocChildBang children (hamtIndex bitmap (1 <<< chunk leaf.hash shift)) (shift + bitShift)
        leaf token) = .ok (n', added)) :
    assocNode (.node bitmap (children.map freezeNode)) shift leaf.hash leaf.key leaf.value =
      some (freezeNode n', added) := by
  rw [assocNode]
  simp only [assocEditable] at h
  split at h
  · next hbit =>
    cases h
    simp only [if_pos hbit, freezeNode, freezeList_eq, cloneAndInsert, List.map_append,
      List.map_cons, List.map_take, List.map_drop]
  · next hbit =>
    obtain ⟨r, hc, hr⟩ := bind_pure_eq_ok.mp h
    cases hr
    simp only [if_neg hbit, assocChildBang_freeze ih hc, Option.map_some, freezeNode,
      freezeList_eq]

/-- Freezing commutes with insertion: `assoc-node!` builds, once frozen, the node
`assoc-node` builds. -/
theorem assocNodeBang_freeze {n n' : Node τ κ ν} {tags : τ → Prop} {shift : Nat} {leaf : Leaf κ ν}
    {token : τ} {added : Bool} (hlay : n.Layered tags)
    (h : assocNodeBang n shift leaf token = .ok (n', added)) :
    assocNode (freezeNode n) shift leaf.hash leaf.key leaf.value = some (freezeNode n', added) := by
  induction n generalizing shift n' added with
  | leaf l =>
    rw [assocNodeBang] at h
    rw [freezeNode, assocNode]
    split at h
    · next hk =>
      cases h
      rw [if_pos hk]
      rfl
    · next hk =>
      rw [if_neg hk]
      rw [mergeInto] at h
      cases hm : mergeLeaves (τ := τ) (mergeFuel l leaf) shift l leaf with
      | none => rw [hm] at h; exact absurd h (by simp [bind, Except.bind])
      | some m =>
        rw [hm] at h
        cases h
        rw [freezeNode_eq_self (mergeLeaves_frozen hm)]
        rfl
  | collision hash leaves =>
    exact absurd h (by simp [assocNodeBang, ensureEditable, bind, Except.bind])
  | node bitmap children ih =>
    have hfz := layered_node.mp hlay
    rw [freezeNode]
    conv_lhs => rw [← freezeList_eq_self hfz]
    exact assocEditable_freeze (fun c hc => ih c hc (hfz c hc).layered) h
  | tnode t bitmap children ih =>
    rw [freezeNode, freezeList_eq]
    rw [assocNodeBang, ensureEditable] at h
    split at h
    · exact assocEditable_freeze (fun c hc => ih c hc ((layered_tnode.mp hlay).2 c hc)) h
    · exact absurd h (by simp [bind, Except.bind])

theorem assocRootBang_freeze {root : Option (Node τ κ ν)} {n' : Node τ κ ν} {tags : τ → Prop}
    {leaf : Leaf κ ν} {token : τ} {added : Bool} (hlay : ∀ n ∈ root, n.Layered tags)
    (h : assocRootBang root leaf token = .ok (n', added)) :
    assocRoot (root.map freezeNode) leaf.hash leaf.key leaf.value =
      some (freezeNode n', added) := by
  cases root with
  | none => cases h; rfl
  | some n => exact assocNodeBang_freeze (hlay n rfl) h

end FreezeAssoc

/-- The insertions of a bulk load, as calls of a session. -/
def bulkCalls (pairs : List (κ × ν)) : List (Call κ ν) := pairs.map fun p => .assoc p.1 p.2

omit [EquivBEq κ] hcongr in
/-- What a successful `hamt-assoc!` did to the handle. -/
theorem hamtAssocBang_inv {th th' : TransientHamt τ κ ν} {thread : τ} {key : κ} {value : ν}
    (htok : th.token = some thread) (h : hamtAssocBang sxhash thread th key value = .ok th') :
    ∃ n added, assocRootBang th.root ⟨sxhash key, key, value⟩ thread = .ok (n, added) ∧
      th' = { th with root := some n, count := if added then th.count + 1 else th.count } := by
  rw [hamtAssocBang, htok] at h
  simp only [if_pos] at h
  obtain ⟨r, hr, hth⟩ := bind_pure_eq_ok.mp h
  cases hth
  exact ⟨r.1, r.2, hr, by rw [htok]⟩

/-- The loop avoids the buckets: it ends in the trie the fold builds, unfrozen. -/
theorem bulkLoadLoop_ok {th : TransientHamt τ κ ν} {token : τ} (hv : th.Valid (· = token) sxhash)
    (htok : th.token = some token) {pairs : List (κ × ν)}
    (hc : avoidsBuckets sxhash token th (bulkCalls pairs) = true) :
    ∃ root count, bulkLoadLoop sxhash token th.root th.count pairs = .ok (root, count) ∧
      foldAssoc sxhash { count := th.count, root := th.root.map freezeNode } pairs =
        some { count := count, root := root.map freezeNode } := by
  induction pairs generalizing th with
  | nil => exact ⟨_, _, rfl, rfl⟩
  | cons p pairs ih =>
    obtain ⟨key, value⟩ := p
    rw [bulkCalls, List.map_cons, avoidsBuckets, Bool.and_eq_true, Bool.not_eq_true'] at hc
    have hpath := (rootOnPath_uneditable_own hv.layered _).trans hc.1
    obtain ⟨th₁, hok, hv₁, htok₁, -⟩ := hamtAssocBang_ok hcongr hv htok rfl key value hpath
    obtain ⟨n, added, hn, hth₁⟩ := hamtAssocBang_inv htok hok
    rw [call, hok] at hc
    obtain ⟨root, count, hloop, hfold⟩ := ih hv₁ (htok₁.trans htok) hc.2
    rw [hth₁] at hloop hfold
    refine ⟨root, count, ?_, ?_⟩
    · rw [bulkLoadLoop, hn]
      exact hloop
    · rw [foldAssoc, List.foldlM_cons, hamtAssoc, assocRootBang_freeze hv.layered hn]
      exact hfold

/-- The loop meets a bucket and fails. -/
theorem bulkLoadLoop_blocked {th : TransientHamt τ κ ν} {token : τ}
    (hv : th.Valid (· = token) sxhash) (htok : th.token = some token) {pairs : List (κ × ν)}
    (hc : avoidsBuckets sxhash token th (bulkCalls pairs) = false) :
    ∃ e, bulkLoadLoop sxhash token th.root th.count pairs = .error e := by
  induction pairs generalizing th with
  | nil => exact absurd hc (by simp [bulkCalls, avoidsBuckets])
  | cons p pairs ih =>
    obtain ⟨key, value⟩ := p
    rw [bulkCalls, List.map_cons, avoidsBuckets] at hc
    cases hm : meetsBucket sxhash th (.assoc key value) with
    | true =>
      obtain ⟨e, he⟩ := assocRootBang_blocked value hv.wf
        ((rootOnPath_uneditable_own hv.layered _).trans hm)
      exact ⟨e, by rw [bulkLoadLoop, he]; rfl⟩
    | false =>
      have hpath := (rootOnPath_uneditable_own hv.layered _).trans hm
      obtain ⟨th₁, hok, hv₁, htok₁, -⟩ := hamtAssocBang_ok hcongr hv htok rfl key value hpath
      obtain ⟨n, added, hn, hth₁⟩ := hamtAssocBang_inv htok hok
      rw [hm, call, hok] at hc
      obtain ⟨e, he⟩ := ih hv₁ (htok₁.trans htok) hc
      rw [hth₁] at he
      exact ⟨e, by rw [bulkLoadLoop, hn]; exact he⟩

theorem bulkLoadAgrees_iff (token : τ) (pairs : List (κ × ν)) :
    BulkLoadAgrees sxhash token pairs ↔
      avoidsBuckets sxhash token { token := some token } (bulkCalls pairs) = true := by
  have hv : ({ token := some token } : TransientHamt τ κ ν).Valid (· = token) sxhash :=
    ⟨by simp, by simp, rfl⟩
  constructor
  · rintro ⟨h, hok, -⟩
    rw [← Bool.not_eq_false]
    intro hc
    obtain ⟨e, he⟩ := bulkLoadLoop_blocked hcongr hv rfl hc
    rw [hamtBulkLoad, he] at hok
    exact absurd hok (by simp [bind, Except.bind])
  · intro hc
    obtain ⟨root, count, hloop, hfold⟩ := bulkLoadLoop_ok hcongr hv rfl hc
    exact ⟨{ count := count, root := root.map freezeNode }, by rw [hamtBulkLoad, hloop]; rfl, hfold⟩

omit [DecidableEq τ] in
theorem foldAssoc_spec {h h' : Hamt τ κ ν} {m : FMap κ ν} {pairs : List (κ × ν)}
    (hv : h.Valid sxhash) (he : Enumerates (rootEntries h.root) m)
    (hfold : foldAssoc sxhash h pairs = some h') :
    h'.Valid sxhash ∧
      Enumerates (rootEntries h'.root) fun k => (lookup k pairs.reverse).or (m k) := by
  induction pairs generalizing h m with
  | nil =>
    cases hfold
    exact ⟨hv, he⟩
  | cons p pairs ih =>
    obtain ⟨h₁, hassoc, hv₁, hperm⟩ := hamtAssoc_spec hcongr hv p.1 p.2
    rw [foldAssoc, List.foldlM_cons, hassoc] at hfold
    obtain ⟨hv', he'⟩ := ih hv₁ ((he.put p.1 p.2).perm hperm) hfold
    have hmap : (fun k => (lookup k (p :: pairs).reverse).or (m k)) =
        fun k => (lookup k pairs.reverse).or (m.insert p.1 p.2 k) := by
      funext k
      rw [List.reverse_cons, lookup_append, Option.or_assoc, FMap.insert]
      cases hp : p.1 == k with
      | true => rw [lookup_cons_pos _ hp]; rfl
      | false => rw [lookup_cons_neg _ hp]; rfl
    rw [hmap]
    exact ⟨hv', he'⟩

/-- A bulk load that returns binds every key to its last value. -/
theorem hamtBulkLoad_spec {token : τ} {pairs : List (κ × ν)} {h : Hamt τ κ ν}
    (hl : hamtBulkLoad sxhash token pairs = .ok h) :
    h.Valid sxhash ∧ Enumerates (rootEntries h.root) fun k => lookup k pairs.reverse := by
  have hv : ({ token := some token } : TransientHamt τ κ ν).Valid (· = token) sxhash :=
    ⟨by simp, by simp, rfl⟩
  have hfold : foldAssoc sxhash {} pairs = some h := by
    cases hc : avoidsBuckets sxhash token { token := some token } (bulkCalls pairs) with
    | true =>
      obtain ⟨h', hl', hfold⟩ := (bulkLoadAgrees_iff hcongr token pairs).mpr hc
      rw [hl] at hl'
      cases hl'
      exact hfold
    | false =>
      obtain ⟨e, he⟩ := bulkLoadLoop_blocked hcongr hv rfl hc
      rw [hamtBulkLoad, he] at hl
      cases hl
  obtain ⟨hv', he'⟩ := foldAssoc_spec hcongr (Hamt.Valid.empty sxhash) Enumerates.nil hfold
  have hmap : (fun k => (lookup k pairs.reverse).or ((FMap.empty : FMap κ ν) k)) =
      fun k => lookup k pairs.reverse := funext fun k => Option.or_none
  rw [hmap] at he'
  exact ⟨hv', he'⟩

/-! ## §5 Main result -/

/-- A session of the owning thread agrees with the persistent operations exactly
when none of its insertions meets a collision bucket, and `hamt-bulk-load`
builds what folding `hamt-assoc` builds exactly when its loop meets none. -/
theorem session_agrees_iff_avoids_buckets :
    (∀ (h : Hamt τ κ ν) (thread : τ) (cs : List (Call κ ν)), h.Valid sxhash →
      (SessionAgrees sxhash thread h cs ↔
        avoidsBuckets sxhash thread (apiTransientHamt thread h) cs = true)) ∧
    ∀ (token : τ) (pairs : List (κ × ν)),
      BulkLoadAgrees sxhash token pairs ↔
        avoidsBuckets sxhash token { token := some token } (bulkCalls pairs) = true :=
  ⟨fun _ thread cs hv => sessionAgrees_iff hcongr hv thread cs, bulkLoadAgrees_iff hcongr⟩

omit [BEq κ] [EquivBEq κ] [DecidableEq τ] hcongr

/-- Two keys of one hash make a bucket, which reads and removals pass. -/
theorem session_agrees_two_colliding :
    SessionAgrees (fun _ => 7) 0 ({} : Hamt Nat Nat Nat)
      [.assoc 1 10, .assoc 2 20, .get 1, .dissoc 2, .assoc 2 21] :=
  (session_agrees_iff_avoids_buckets fun _ _ _ => rfl).1 {} 0 _ (Hamt.Valid.empty _) |>.mpr
    (by decide)

/-- A third key of that hash meets the bucket: `hamt-assoc!` and `hamt-bulk-load`
signal a type error where `hamt-assoc` grows the bucket. -/
theorem session_disagrees_three_colliding :
    ¬ SessionAgrees (fun _ => 7) 0 ({} : Hamt Nat Nat Nat)
      [.assoc 1 10, .assoc 2 20, .assoc 3 30] ∧
    ¬ BulkLoadAgrees (fun _ => 7) (0 : Nat) [(1, 10), (2, 20), (3, 30)] := by
  constructor
  · rintro ⟨th, reads, h', th', frozen, hsess, -⟩
    have herr : session (fun _ => 7) 0 (apiTransientHamt 0 ({} : Hamt Nat Nat Nat))
        [.assoc 1 10, .assoc 2 20, .assoc 3 30] = .error (.typeError "HAMT-NODE-BITMAP") := rfl
    rw [herr] at hsess
    cases hsess
  · rintro ⟨h, hok, -⟩
    have herr : hamtBulkLoad (fun _ => 7) (0 : Nat) [(1, 10), (2, 20), (3, 30)] =
        .error (.typeError "HAMT-NODE-BITMAP") := rfl
    rw [herr] at hok
    cases hok

end Fol.HashTrie
