/-
Fol.HashTrie.Ownership — the ownership protocol of one transient.

Any threads call `assoc!`, `dissoc!`, `transfer-ownership!` and `persistent!` on
one handle, in any order. The protocol is a map with an owner: a call of another
thread, or after `persistent!`, is refused and changes nothing; a call of the
owner has its map meaning. A call that signals an error has written nothing, so
the handle it leaves is the handle it found.

The code follows the protocol at a step exactly when `followsProtocol` holds of
the state before the step. It can fail in two ways. Nodes keep the tag of the
thread that claimed them, so after a transfer the new owner cannot pass them;
and `hamt-dissoc!` does not compare the token with the calling thread.
-/
import Fol.HashTrie.TransientTheorems

namespace Fol.HashTrie

open Lib

variable {τ κ ν : Type} [DecidableEq τ] [BEq κ]

/-! ## §1 Events -/

inductive Action (τ κ ν : Type) where
  | assoc (key : κ) (value : ν)
  | dissoc (key : κ)
  | transfer (newThread : τ)
  | persistent
deriving DecidableEq

/-- A call and the thread that makes it. -/
structure Event (τ κ ν : Type) where
  thread : τ
  action : Action τ κ ν
deriving DecidableEq

/-- One call on the handle; `hamt-persistent!` also delivers the frozen trie. -/
def perform (sxhash : κ → Nat) (th : TransientHamt τ κ ν) :
    Event τ κ ν → Except Error (TransientHamt τ κ ν × Option (Hamt τ κ ν))
  | ⟨thread, .assoc key value⟩ => (hamtAssocBang sxhash thread th key value).map (·, none)
  | ⟨thread, .dissoc key⟩ => (hamtDissocBang sxhash thread th key).map (·, none)
  | ⟨thread, .transfer newThread⟩ => (hamtTransferOwnership thread newThread th).map (·, none)
  | ⟨thread, .persistent⟩ => (hamtPersistentBang thread th).map fun r => (r.1, some r.2)

/-- The handle after the call, which an error leaves as it was. -/
def handleAfter (sxhash : κ → Nat) (th : TransientHamt τ κ ν) (e : Event τ κ ν) :
    TransientHamt τ κ ν :=
  match perform sxhash th e with
  | .ok r => r.1
  | .error _ => th

/-! ## §2 The protocol -/

/-- A map with an owner; no owner once it is frozen. -/
structure Owned (τ κ ν : Type) where
  owner : Option τ
  map : FMap κ ν

/-- What the owner's call makes of the map and its owner. -/
def Owned.apply (s : Owned τ κ ν) : Action τ κ ν → Owned τ κ ν
  | .assoc key value => { s with map := s.map.insert key value }
  | .dissoc key => { s with map := s.map.erase key }
  | .transfer newThread => { s with owner := some newThread }
  | .persistent => { s with owner := none }

/-- Only the owner may call. -/
def Owned.permits (s : Owned τ κ ν) (e : Event τ κ ν) : Bool := s.owner = some e.thread

def Owned.after (s : Owned τ κ ν) (e : Event τ κ ν) : Owned τ κ ν :=
  if s.permits e then s.apply e.action else s

/-- The transient holds the bindings of the map, and as many. -/
structure Holds (sxhash : κ → Nat) (th : TransientHamt τ κ ν) (m : FMap κ ν) : Prop where
  get : ∀ key, hamtGetTransient sxhash th key = m key
  count : HasCount m th.count

/-- A frozen trie holds the bindings of the map, and as many. -/
structure Freezes (sxhash : κ → Nat) (h : Hamt τ κ ν) (m : FMap κ ν) : Prop where
  get : ∀ key, hamtGet sxhash h key = m key
  count : HasCount m h.count

/-- The call does what the protocol says: it succeeds exactly when it is
permitted, `hamt-persistent!` then delivers the map, and in either case the
transient holds the map the protocol prescribes. -/
structure StepFollows (sxhash : κ → Nat) (th : TransientHamt τ κ ν) (s : Owned τ κ ν)
    (e : Event τ κ ν) : Prop where
  succeeds : (perform sxhash th e).isOk = s.permits e
  holds : Holds sxhash (handleAfter sxhash th e) (s.after e).map
  delivers : s.permits e = true → e.action = .persistent →
    ∃ th' h, perform sxhash th e = .ok (th', some h) ∧ Freezes sxhash h s.map

/-- Every call of the run does what the protocol says. -/
def RunFollows (sxhash : κ → Nat) (th : TransientHamt τ κ ν) (s : Owned τ κ ν) :
    List (Event τ κ ν) → Prop
  | [] => True
  | e :: es => StepFollows sxhash th s e ∧
    RunFollows sxhash (handleAfter sxhash th e) (s.after e) es

/-- The states in which the code follows the protocol at this call. The owner's
`assoc!` meets neither a bucket nor a node claimed by another thread, the owner's
`dissoc!` meets no such node; another thread's `dissoc!` on a live transient is
refused only where it runs into one. -/
def followsProtocol (sxhash : κ → Nat) (th : TransientHamt τ κ ν) (e : Event τ κ ν) : Bool :=
  match th.token, e.action with
  | some token, .assoc key _ =>
    token ≠ e.thread || !rootOnPath (uneditable token) th.root (sxhash key)
  | some token, .dissoc key =>
    rootOnPath (foreign token) th.root (sxhash key) == decide (token ≠ e.thread)
  | _, _ => true

def runFollowsProtocol (sxhash : κ → Nat) (th : TransientHamt τ κ ν) : List (Event τ κ ν) → Bool
  | [] => true
  | e :: es => followsProtocol sxhash th e &&
    runFollowsProtocol sxhash (handleAfter sxhash th e) es

/-! ## §3 One step -/

/-- The transient is well formed and represents the map under its owner. -/
structure Represents (sxhash : κ → Nat) (th : TransientHamt τ κ ν) (s : Owned τ κ ν) : Prop where
  valid : th.Valid (fun _ => True) sxhash
  owner : th.token = s.owner
  bindings : Enumerates (rootEntries th.root) s.map

section Steps

variable [EquivBEq κ] {sxhash : κ → Nat}
  (hcongr : ∀ a b : κ, (a == b) = true → sxhash a = sxhash b)
include hcongr

omit [DecidableEq τ] [EquivBEq κ] in
theorem Represents.holds {th : TransientHamt τ κ ν} {s : Owned τ κ ν}
    (hr : Represents sxhash th s) : Holds sxhash th s.map :=
  ⟨fun key => by rw [hamtGetTransient_eq_lookup hcongr hr.valid, hr.bindings.agrees],
    _, hr.bindings, hr.valid.count.symm⟩

omit hcongr [EquivBEq κ] in
/-- A call that signals an error, where the protocol refuses it. -/
theorem follows_of_refused {th : TransientHamt τ κ ν} {s : Owned τ κ ν} {e : Event τ κ ν}
    (hp : s.permits e = false) (hr : Represents sxhash th s) (hh : Holds sxhash th s.map)
    (herr : ∃ err, perform sxhash th e = .error err) :
    StepFollows sxhash th s e ∧ Represents sxhash (handleAfter sxhash th e) (s.after e) := by
  obtain ⟨err, herr⟩ := herr
  have ha : handleAfter sxhash th e = th := by rw [handleAfter, herr]
  have hs : s.after e = s := if_neg (by rw [hp]; decide)
  rw [ha, hs]
  exact ⟨⟨by rw [herr, hp]; rfl, by rw [ha, hs]; exact hh,
    fun h => absurd h (by rw [hp]; decide)⟩, hr⟩

omit [EquivBEq κ] in
/-- A call that succeeds with its map meaning, where the protocol permits it. -/
theorem follows_of_permitted {th th' : TransientHamt τ κ ν} {s : Owned τ κ ν} {e : Event τ κ ν}
    {out : Option (Hamt τ κ ν)} (hp : s.permits e = true)
    (hok : perform sxhash th e = .ok (th', out)) (hr : Represents sxhash th' (s.apply e.action))
    (hout : e.action = .persistent → ∃ h, out = some h ∧ Freezes sxhash h s.map) :
    StepFollows sxhash th s e ∧ Represents sxhash (handleAfter sxhash th e) (s.after e) := by
  have ha : handleAfter sxhash th e = th' := by rw [handleAfter, hok]
  have hs : s.after e = s.apply e.action := if_pos hp
  rw [ha, hs]
  refine ⟨⟨by rw [hok, hp]; rfl, by rw [ha, hs]; exact hr.holds hcongr, fun _ hact => ?_⟩, hr⟩
  obtain ⟨h, rfl, hf⟩ := hout hact
  exact ⟨th', h, hok, hf⟩

omit hcongr [EquivBEq κ] in
/-- A call that succeeds though the protocol refuses it, or fails though the
protocol permits it. -/
theorem not_follows {th : TransientHamt τ κ ν} {s : Owned τ κ ν} {e : Event τ κ ν} (b : Bool)
    (hb : (perform sxhash th e).isOk = b) (hp : s.permits e = !b) :
    ¬ StepFollows sxhash th s e := by
  intro h
  have hsucc := h.succeeds
  rw [hb, hp] at hsucc
  cases b <;> cases hsucc

/-- The call follows the protocol exactly when the condition holds, and then
leaves a state that represents the prescribed map. -/
def StepDecided (sxhash : κ → Nat) (th : TransientHamt τ κ ν) (s : Owned τ κ ν) (e : Event τ κ ν) :
    Prop :=
  (StepFollows sxhash th s e ↔ followsProtocol sxhash th e = true) ∧
    (followsProtocol sxhash th e = true →
      Represents sxhash (handleAfter sxhash th e) (s.after e))

omit hcongr [EquivBEq κ] in
theorem StepDecided.good {th : TransientHamt τ κ ν} {s : Owned τ κ ν} {e : Event τ κ ν}
    (hc : followsProtocol sxhash th e = true)
    (h : StepFollows sxhash th s e ∧ Represents sxhash (handleAfter sxhash th e) (s.after e)) :
    StepDecided sxhash th s e :=
  ⟨⟨fun _ => hc, fun _ => h.1⟩, fun _ => h.2⟩

omit hcongr [EquivBEq κ] in
theorem StepDecided.bad {th : TransientHamt τ κ ν} {s : Owned τ κ ν} {e : Event τ κ ν}
    (hc : followsProtocol sxhash th e = false) (h : ¬ StepFollows sxhash th s e) :
    StepDecided sxhash th s e :=
  ⟨⟨fun hf => absurd hf h, fun ht => absurd ht (by rw [hc]; decide)⟩,
    fun ht => absurd ht (by rw [hc]; decide)⟩

/-- A call of a thread that does not own the transient. -/
theorem step_of_refused {th : TransientHamt τ κ ν} {s : Owned τ κ ν}
    (hr : Represents sxhash th s) (e : Event τ κ ν) (hp : s.permits e = false) :
    StepDecided sxhash th s e := by
  have hh := hr.holds hcongr
  have hne : th.token ≠ some e.thread := by
    rw [hr.owner]
    simpa [Owned.permits] using hp
  obtain ⟨thread, action⟩ := e
  cases htok : th.token with
  | none =>
    -- frozen: every operation looks at the token first
    refine .good (by rw [followsProtocol, htok]) (follows_of_refused hp hr hh ?_)
    cases action with
    | assoc key value => exact ⟨_, by rw [perform, hamtAssocBang, htok]; rfl⟩
    | dissoc key => exact ⟨_, by rw [perform, hamtDissocBang, htok]; rfl⟩
    | transfer newThread => exact ⟨_, by rw [perform, hamtTransferOwnership, htok]; rfl⟩
    | persistent => exact ⟨_, by rw [perform, hamtPersistentBang, htok]; rfl⟩
  | some token =>
    have ht : token ≠ thread := fun h => hne (by rw [htok, h])
    cases action with
    | assoc key value =>
      refine .good (by simp [followsProtocol, htok, ht]) (follows_of_refused hp hr hh ?_)
      exact ⟨_, by rw [perform, hamtAssocBang, htok]; simp only [if_neg ht]; rfl⟩
    | dissoc key =>
      cases hpath : rootOnPath (foreign token) th.root (sxhash key) with
      | true =>
        obtain ⟨err, herr⟩ := hamtDissocBang_blocked hr.valid htok thread key hpath
        exact .good (by simp [followsProtocol, htok, ht, hpath])
          (follows_of_refused hp hr hh ⟨err, by rw [perform, herr]; rfl⟩)
      | false =>
        -- the token is live, and nothing compares it with the thread
        obtain ⟨th', hok, -⟩ := hamtDissocBang_ok hcongr hr.valid htok trivial thread key hpath
        exact .bad (by simp [followsProtocol, htok, ht, hpath])
          (not_follows true (by rw [perform, hok]; rfl) hp)
    | transfer newThread =>
      refine .good (by rw [followsProtocol, htok]) (follows_of_refused hp hr hh ?_)
      exact ⟨_, by rw [perform, hamtTransferOwnership, htok]; simp only [if_neg ht]; rfl⟩
    | persistent =>
      refine .good (by rw [followsProtocol, htok]) (follows_of_refused hp hr hh ?_)
      exact ⟨_, by rw [perform, hamtPersistentBang, htok]; simp only [if_neg ht]; rfl⟩

/-- A call of the owner. -/
theorem step_of_permitted {th : TransientHamt τ κ ν} {s : Owned τ κ ν}
    (hr : Represents sxhash th s) (e : Event τ κ ν) (hp : s.permits e = true) :
    StepDecided sxhash th s e := by
  have hown : s.owner = some e.thread := by simpa [Owned.permits] using hp
  have htok : th.token = some e.thread := hr.owner.trans hown
  obtain ⟨thread, action⟩ := e
  simp only at htok hown
  cases action with
  | assoc key value =>
    cases hpath : rootOnPath (uneditable thread) th.root (sxhash key) with
    | true =>
      obtain ⟨err, herr⟩ := hamtAssocBang_blocked hr.valid htok key value hpath
      exact .bad (by simp [followsProtocol, htok, hpath])
        (not_follows false (by rw [perform, herr]; rfl) hp)
    | false =>
      obtain ⟨th', hok, hv, htok', hperm⟩ :=
        hamtAssocBang_ok hcongr hr.valid htok trivial key value hpath
      exact .good (by simp [followsProtocol, htok, hpath])
        (follows_of_permitted hcongr hp (by rw [perform, hok]; rfl)
          ⟨hv, htok'.trans hr.owner, (hr.bindings.put key value).perm hperm⟩ (by simp))
  | dissoc key =>
    cases hpath : rootOnPath (foreign thread) th.root (sxhash key) with
    | true =>
      obtain ⟨err, herr⟩ := hamtDissocBang_blocked hr.valid htok thread key hpath
      exact .bad (by simp [followsProtocol, htok, hpath])
        (not_follows false (by rw [perform, herr]; rfl) hp)
    | false =>
      obtain ⟨th', hok, hv, htok', hperm⟩ :=
        hamtDissocBang_ok hcongr hr.valid htok trivial thread key hpath
      exact .good (by simp [followsProtocol, htok, hpath])
        (follows_of_permitted hcongr hp (by rw [perform, hok]; rfl)
          ⟨hv, htok'.trans hr.owner, (hr.bindings.without key).perm hperm⟩ (by simp))
  | transfer newThread =>
    refine .good (by rw [followsProtocol, htok]) (follows_of_permitted hcongr hp
      (show perform sxhash th _ = .ok ({ th with token := some newThread }, none) from ?_)
      ⟨⟨hr.valid.wf, hr.valid.layered, hr.valid.count⟩, rfl, hr.bindings⟩ (by simp))
    rw [perform, hamtTransferOwnership, htok]
    simp only [if_pos]
    rfl
  | persistent =>
    obtain ⟨h, hok, hv, hroot⟩ := hamtPersistentBang_ok hr.valid htok
    refine .good (by rw [followsProtocol, htok]) (follows_of_permitted hcongr hp
      (show perform sxhash th _ = .ok ({ th with token := none }, some h) by
        rw [perform, hok]; rfl)
      ⟨⟨hr.valid.wf, hr.valid.layered, hr.valid.count⟩, rfl, hr.bindings⟩ fun _ => ⟨h, rfl, ?_⟩)
    have he : Enumerates (rootEntries h.root) s.map := by rw [hroot]; exact hr.bindings
    exact ⟨fun key => by rw [hamtGet_eq_lookup hcongr hv, he.agrees], _, he, hv.count.symm⟩

/-- Step lemma: whoever calls. -/
theorem step_decided {th : TransientHamt τ κ ν} {s : Owned τ κ ν} (hr : Represents sxhash th s)
    (e : Event τ κ ν) : StepDecided sxhash th s e := by
  cases hp : s.permits e with
  | true => exact step_of_permitted hcongr hr e hp
  | false => exact step_of_refused hcongr hr e hp

/-! ## §4 Runs -/

theorem runFollows_iff {th : TransientHamt τ κ ν} {s : Owned τ κ ν} (hr : Represents sxhash th s)
    (es : List (Event τ κ ν)) :
    RunFollows sxhash th s es ↔ runFollowsProtocol sxhash th es = true := by
  induction es generalizing th s with
  | nil => simp [RunFollows, runFollowsProtocol]
  | cons e es ih =>
    obtain ⟨hiff, hnext⟩ := step_decided hcongr hr e
    rw [RunFollows, runFollowsProtocol, Bool.and_eq_true, hiff]
    exact and_congr_right fun hc => ih (hnext hc)

omit [DecidableEq τ] in
theorem represents_apiTransientHamt {h : Hamt τ κ ν} (hv : h.Valid sxhash) (owner : τ) :
    Represents sxhash (apiTransientHamt owner h)
      { owner := some owner, map := hamtGet sxhash h } :=
  ⟨apiTransientHamt_valid hv owner, rfl, hv.distinct hcongr, hamtGet_eq_lookup hcongr hv⟩

/-- Whatever the interleaving of the threads' calls on a transient of any trie,
the code follows the ownership protocol along it exactly when every call is made
in a state where the condition holds. -/
theorem run_follows_iff {h : Hamt τ κ ν} (hv : h.Valid sxhash) (owner : τ)
    (es : List (Event τ κ ν)) :
    RunFollows sxhash (apiTransientHamt owner h)
    { owner := some owner, map := hamtGet sxhash h } es ↔
      runFollowsProtocol sxhash (apiTransientHamt owner h) es = true :=
  runFollows_iff hcongr (represents_apiTransientHamt hcongr hv owner) es

end Steps

/-- Thread 1 is refused, takes over untouched nodes, freezes; then all are refused. -/
theorem run_follows_transfer :
    RunFollows id (apiTransientHamt 0 ({} : Hamt Nat Nat Nat))
      { owner := some 0, map := hamtGet id ({} : Hamt Nat Nat Nat) }
      [⟨0, .assoc 1 10⟩, ⟨1, .assoc 2 20⟩, ⟨0, .transfer 1⟩, ⟨1, .assoc 2 20⟩, ⟨0, .persistent⟩,
        ⟨1, .dissoc 1⟩, ⟨1, .persistent⟩, ⟨1, .dissoc 2⟩] :=
  (run_follows_iff (by simp) (Hamt.Valid.empty _) 0 _).mpr (by decide)

/-- Thread 1 removes a key from a transient that thread 0 owns; and, once thread 0
has claimed the root and handed the transient over, thread 1 cannot insert. -/
theorem run_not_follows :
    ¬ RunFollows id (apiTransientHamt 0 ({} : Hamt Nat Nat Nat))
      { owner := some 0, map := hamtGet id ({} : Hamt Nat Nat Nat) }
      [⟨0, .assoc 1 10⟩, ⟨1, .dissoc 1⟩] ∧
    ¬ RunFollows id (apiTransientHamt 0 ({} : Hamt Nat Nat Nat))
      { owner := some 0, map := hamtGet id ({} : Hamt Nat Nat Nat) }
      [⟨0, .assoc 1 10⟩, ⟨0, .assoc 2 20⟩, ⟨0, .assoc 3 30⟩, ⟨0, .transfer 1⟩,
        ⟨1, .assoc 4 40⟩] := by
  constructor
  · rintro ⟨-, h, -⟩
    exact absurd h.succeeds (by decide)
  · rintro ⟨-, -, -, -, h, -⟩
    exact absurd h.succeeds (by decide)

end Fol.HashTrie
