/-
Fol.Collections.TransientSessions — transient sessions keep the kind of collection.

In an instance of a base class, a session stays in step with the persistent operations as long as no
insertion meets a collision bucket and no entry is put into a dict by `conj!`. In an instance of a
subclass `persistent!` gives another class.
-/
import Fol.Collections.Transients
import Fol.Lib.Runs

namespace Fol.Collections.Transients

open Lib HashTrie VecTrie

variable {τ κ ν α ρ : Type} [DecidableEq τ] [BEq κ] [EquivBEq κ] [DecidableEq α]

/-! ## §1 Listings -/

section

variable {sxhash : κ → Nat} {h : Hamt τ κ ν} {eof : α}

omit [DecidableEq τ] [EquivBEq κ] in
theorem hamtSeq_eq (hv : h.Valid sxhash) : hamtSeq h = rootEntries h.root := by
  have hfrozen : ∀ m ∈ hamtIterator h, m.Frozen := fun m hm => hv.frozen m (Option.mem_toList.mp hm)
  have hiter : entriesList (hamtIterator h) = rootEntries h.root := by
    rw [hamtIterator]
    cases h.root <;> simp
  rw [hamtSeq, iteratorCalls_eq _ _ hfrozen, hiter, hv.count]
  generalize rootEntries h.root = es
  rw [List.take_of_length_le (Nat.le_succ _), Nat.add_sub_cancel_left]
  have hsome : ∀ x ∈ es.map some, x.isSome = true := by
    intro x hx
    obtain ⟨e, -, rfl⟩ := List.mem_map.mp hx
    rfl
  rw [List.takeWhile_append_of_pos hsome]
  simp

theorem vecSeq_of_represents {v : VecT α} {xs : List α} (hv : v.Represents xs) :
    vecSeq eof v = xs.takeWhile (· ≠ eof) := by
  have hcount : v.count = xs.length := hv.choose_spec.len
  rw [vecSeq, hcount, vecTIterator_take hv (Nat.le_refl _), List.take_length]

end

/-! ## §2 Conditions -/

def Collection.root : Collection τ κ ν α ρ → Option (Node τ κ ν)
  | .dict _ h _ => h.root
  | .set _ h _ => h.root
  | .vector _ _ _ => none

def Transient.root : Transient τ κ ν α → Option (Node τ κ ν)
  | .dict th => th.root
  | .set th => th.root
  | .vector _ => none

/-- The key that the operation puts into a trie. -/
def Bang.inserted : Bang κ ν α → Option κ
  | .assoc key _ => some key
  | .conj (.entry key _) => some key
  | .conj (.key element) => some element
  | _ => none

/-- The operation puts a key at a place where a collision bucket stands. -/
def Bang.meetsBucket (sxhash : κ → Nat) (op : Bang κ ν α) (root : Option (Node τ κ ν)) : Bool :=
  op.inserted.any fun key => HashTrie.rootOnPath bucket root (sxhash key)

def Bang.isConjEntry : Bang κ ν α → Bool
  | .conj (.entry _ _) => true
  | _ => false

/-- The operation is not `conj` of an entry, and meets no bucket of the persistent trie. -/
def Plain (sxhash : κ → Nat) (s : Session τ κ ν α ρ) (op : Bang κ ν α) : Prop :=
  op.isConjEntry = false ∧ op.meetsBucket sxhash s.persistent.root = false

/-- A bucket met in the persistent trie is met in the transient one. -/
def MeetsBoth (sxhash : κ → Nat) (s : Session τ κ ν α ρ) (op : Bang κ ν α) : Prop :=
  op.meetsBucket sxhash s.persistent.root = true →
    ∀ tr, s.transient = .ok tr → op.meetsBucket sxhash tr.root = true

/-! ## §3 Steps -/

/-- A collection of a base class, and a transient with the same bindings or elements. -/
inductive InStep (sxhash : κ → Nat) (thread : τ) :
    Collection τ κ ν α ρ → Transient τ κ ν α → Prop where
  | dict {th : TransientHamt τ κ ν} {h : Hamt τ κ ν} {slots : Option ρ}
      (hs : InOrder sxhash thread th h) : InStep sxhash thread (.dict .dict h slots) (.dict th)
  | set {th : TransientHamt τ κ ν} {h : Hamt τ κ ν} {slots : Option ρ}
      (hs : InOrder sxhash thread th h) : InStep sxhash thread (.set .set h slots) (.set th)
  | vector {tv : TransientVecT τ α} {v : VecT α} {slots : Option ρ} {xs : List α}
      (hv : v.Represents xs) (htv : tv.Represents xs) (htok : tv.token = some thread) :
      InStep sxhash thread (.vector .vector v slots) (.vector tv)

section

variable {sxhash : κ → Nat} {t : ν} {eof fill : α} {thread : τ} {methods : Methods τ κ ν α ρ}
  {c c' : Collection τ κ ν α ρ} {tr : Transient τ κ ν α} {op : Bang κ ν α}

omit [EquivBEq κ] in
/-- `persistent!` gives what the persistent operations give. -/
theorem InStep.persistentBang (methods : Methods τ κ ν α ρ) (eof : α)
    (h : InStep sxhash thread c tr) :
    ∃ result, Transients.persistentBang thread tr = .ok result ∧ result.cls = c.cls ∧
      result.seq methods eof = c.seq methods eof := by
  cases h with
  | dict hs =>
    obtain ⟨frozen, hok, hv, hentries⟩ := hamtPersistentBang_ok hs.transient hs.token
    refine ⟨.dict .dict frozen none, by rw [Transients.persistentBang, hok]; rfl, rfl, ?_⟩
    rw [Collection.seq, Collection.seq, hamtSeq_eq hv, hamtSeq_eq hs.persistent, hentries,
      hs.entries]
  | set hs =>
    obtain ⟨frozen, hok, hv, hentries⟩ := hamtPersistentBang_ok hs.transient hs.token
    refine ⟨.set .set frozen none, by rw [Transients.persistentBang, hok]; rfl, rfl, ?_⟩
    rw [Collection.seq, Collection.seq, hamtSeq_eq hv, hamtSeq_eq hs.persistent, hentries,
      hs.entries]
  | vector hv htv htok =>
    obtain ⟨v', hok, hv'⟩ := transientVecTPersistent_represents htv htok
    refine ⟨.vector .vector v' none, by rw [Transients.persistentBang, hok]; rfl, rfl, ?_⟩
    rw [Collection.seq, Collection.seq, vecSeq_of_represents hv', vecSeq_of_represents hv]

/-- An insertion into a trie: both succeed past the buckets, and `hamt-assoc!` fails at one. -/
theorem InOrder.insert (hcongr : ∀ a b : κ, (a == b) = true → sxhash a = sxhash b)
    {th : TransientHamt τ κ ν} {h h' : Hamt τ κ ν} (hs : InOrder sxhash thread th h) {key : κ}
    {val : ν}
    (hassoc : hamtAssoc sxhash h key val = some h') :
    (rootOnPath bucket h.root (sxhash key) = false →
      ∃ th', hamtAssocBang sxhash thread th key val = .ok th' ∧ InOrder sxhash thread th' h') ∧
    (rootOnPath bucket th.root (sxhash key) = true → ∃ e,
      hamtAssocBang sxhash thread th key val = .error e) := by
  constructor
  · intro hfree
    obtain ⟨th', h'', hok, hassoc', hs'⟩ := hs.assoc hcongr key val hfree
    obtain rfl := Option.some.inj (hassoc.symm.trans hassoc')
    exact ⟨th', hok, hs'⟩
  · intro hmet
    exact hamtAssocBang_blocked hs.transient hs.token key val
      ((rootOnPath_uneditable_own hs.transient.layered _).trans hmet)

/-- What one operation does on the two sides. -/
theorem InStep.step (fill : α) (hcongr : ∀ a b : κ, (a == b) = true → sxhash a = sxhash b)
    (h : InStep sxhash thread c tr)
    (hop : persistentOp sxhash t methods c op = some c') :
    c'.cls = c.cls ∧
    (op.isConjEntry = false → op.meetsBucket sxhash c.root = false →
      ∃ tr', bang sxhash t fill thread tr op = .ok tr' ∧ InStep sxhash thread c' tr') ∧
    (op.isConjEntry = true ∨ op.meetsBucket sxhash tr.root = true →
      ∃ e, bang sxhash t fill thread tr op = .error e) := by
  cases h with
  | dict hs =>
    cases op with
    | assoc key val =>
      obtain ⟨h', hassoc, rfl⟩ := Option.map_eq_some_iff.mp hop
      obtain ⟨hfree, hmet⟩ := InOrder.insert hcongr hs hassoc
      refine ⟨rfl, fun _ hbucket => ?_, fun hblocked => ?_⟩
      · obtain ⟨th', hok, hs'⟩ := hfree hbucket
        exact ⟨.dict th', by rw [bang, hok]; rfl, .dict hs'⟩
      · obtain ⟨e, he⟩ := hmet (hblocked.resolve_left (by simp [Bang.isConjEntry]))
        exact ⟨.trie e, by rw [bang, he]; rfl⟩
    | dissoc key =>
      cases hop
      obtain ⟨th', hok, hs'⟩ := hs.dissoc hcongr key
      refine ⟨rfl, fun _ _ => ⟨.dict th', by rw [bang, hok]; rfl, .dict hs'⟩, fun hblocked => ?_⟩
      rcases hblocked with hblocked | hblocked <;> cases hblocked
    | conj x =>
      cases x with
      | entry key val =>
        obtain ⟨h', hassoc, rfl⟩ := Option.map_eq_some_iff.mp hop
        exact ⟨rfl, fun hentry => (by cases hentry), fun _ => ⟨_, rfl⟩⟩
      | _ => cases hop
    | _ => cases hop
  | set hs =>
    cases op with
    | conj x =>
      cases x with
      | key element =>
        obtain ⟨h', hassoc, rfl⟩ := Option.map_eq_some_iff.mp hop
        obtain ⟨hfree, hmet⟩ := InOrder.insert hcongr hs hassoc
        refine ⟨rfl, fun _ hbucket => ?_, fun hblocked => ?_⟩
        · obtain ⟨th', hok, hs'⟩ := hfree hbucket
          exact ⟨.set th', by rw [bang, hok]; rfl, .set hs'⟩
        · obtain ⟨e, he⟩ := hmet (hblocked.resolve_left (by simp [Bang.isConjEntry]))
          exact ⟨.trie e, by rw [bang, he]; rfl⟩
      | _ => cases hop
    | disj element =>
      cases hop
      obtain ⟨th', hok, hs'⟩ := hs.dissoc hcongr element
      refine ⟨rfl, fun _ _ => ⟨.set th', by rw [bang, hok]; rfl, .set hs'⟩, fun hblocked => ?_⟩
      rcases hblocked with hblocked | hblocked <;> cases hblocked
    | _ => cases hop
  | @vector tv v slots xs hv htv htok =>
    cases op with
    | conj x =>
      cases x with
      | elem x =>
        cases hop
        obtain ⟨tv', hok, htok', htv'⟩ := transientVecTConj_represents htv fill htok x
        refine ⟨rfl, fun _ _ => ⟨.vector tv', by rw [bang, hok]; rfl, ?_⟩, fun hblocked => ?_⟩
        · exact .vector (vecTConj_represents hv x) htv' htok'
        · rcases hblocked with hblocked | hblocked <;> cases hblocked
      | _ => cases hop
    | assocAt index x =>
      rw [persistentOp] at hop
      split at hop
      · next hin =>
        cases hop
        obtain ⟨i, rfl⟩ := Int.eq_ofNat_of_zero_le hin.1
        have hcount : v.count = xs.length := hv.choose_spec.len
        have hi : i < xs.length := by
          rw [← hcount]
          exact_mod_cast hin.2
        obtain ⟨tv', hok, htok', htv'⟩ := transientVecTAssoc_represents htv htok hi x
        refine ⟨rfl, fun _ _ => ⟨.vector tv', by rw [bang, hok]; rfl, ?_⟩, fun hblocked => ?_⟩
        · exact .vector (vecTAssoc_represents hv hi x) htv' htok'
        · rcases hblocked with hblocked | hblocked <;> cases hblocked
      · cases hop
    | _ => cases hop

/-! ## §4 Sessions -/

/-- The slot of the base class is one that the operations build. -/
def Collection.Valid (sxhash : κ → Nat) : Collection τ κ ν α ρ → Prop
  | .dict _ h _ => h.Valid sxhash
  | .set _ h _ => h.Valid sxhash
  | .vector _ v _ => ∃ xs, v.Represents xs

/-- The session stays in step with the persistent operations. -/
def Follows (sxhash : κ → Nat) (thread : τ) (s : Session τ κ ν α ρ) : Prop :=
  s.original.cls = s.persistent.cls ∧ ∃ tr, s.transient = .ok tr ∧
  InStep sxhash thread s.persistent tr

omit [EquivBEq κ] [DecidableEq τ] [DecidableEq α] in
theorem inStep_start (hv : c.Valid sxhash) (hbase : c.cls.isBase = true) :
    InStep sxhash thread c (transient fill thread c) := by
  cases c with
  | dict cls h slots =>
    cases cls with
    | dict => exact .dict (apiTransientHamt_inOrder hv)
    | _ => cases hbase
  | set cls h slots =>
    cases cls with
    | set => exact .set (apiTransientHamt_inOrder hv)
    | _ => cases hbase
  | vector cls v slots =>
    cases cls with
    | vector =>
      obtain ⟨xs, hxs⟩ := hv
      exact .vector hxs (transientVecT_represents hxs fill thread) rfl
    | array => cases hbase

omit [EquivBEq κ] in
theorem Follows.keepsKind {s : Session τ κ ν α ρ} (h : Follows sxhash thread s) :
    KeepsKind eof thread methods s := by
  obtain ⟨hcls, tr, htr, hstep⟩ := h
  obtain ⟨result, hok, hresult, hseq⟩ := hstep.persistentBang methods eof
  exact ⟨tr, result, htr, hok, hresult.trans hcls.symm, hseq⟩

/-- A step of a session that is in step. -/
theorem Follows.step (eof : α) (hcongr : ∀ a b : κ, (a == b) = true → sxhash a = sxhash b)
    {s s' : Session τ κ ν α ρ} (h : Follows sxhash thread s) (hboth : MeetsBoth sxhash s op)
    (hs : s.step sxhash t fill thread methods op = some s') :
    (KeepsKind eof thread methods s' ↔ Plain sxhash s op) ∧
      (Plain sxhash s op → Follows sxhash thread s') := by
  obtain ⟨hcls, tr, htr, hstep⟩ := h
  obtain ⟨p, hp, rfl⟩ := Option.map_eq_some_iff.mp hs
  obtain ⟨hcls', hok, herror⟩ := hstep.step fill hcongr hp
  have hfollows : Plain sxhash s op → Follows sxhash thread
      { s with
        persistent := p
        transient := s.transient.bind fun tr => bang sxhash t fill thread tr op } := by
    intro hplain
    obtain ⟨tr', htr', hstep'⟩ := hok hplain.1 hplain.2
    exact ⟨hcls.trans hcls'.symm, tr', by rw [htr]; exact htr', hstep'⟩
  refine ⟨⟨fun hkeeps => ?_, fun hplain => (hfollows hplain).keepsKind⟩, hfollows⟩
  obtain ⟨tr', -, htr', -⟩ := hkeeps
  rw [htr] at htr'
  have hnone : ¬ (op.isConjEntry = true ∨ op.meetsBucket sxhash tr.root = true) := by
    intro hblocked
    obtain ⟨e, he⟩ := herror hblocked
    have hbang : bang sxhash t fill thread tr op = .ok tr' := htr'
    rw [he] at hbang
    cases hbang
  rw [not_or, Bool.not_eq_true, Bool.not_eq_true] at hnone
  refine ⟨hnone.1, Bool.eq_false_iff.mpr fun hmet => ?_⟩
  rw [hboth hmet tr htr] at hnone
  cases hnone.2

omit [BEq κ] [EquivBEq κ] [DecidableEq α] in
/-- `persistent!` makes instances of the base classes. -/
theorem persistentBang_isBase {result : Collection τ κ ν α ρ}
    (h : persistentBang thread tr = .ok result) :
    result.cls.isBase = true := by
  cases tr with
  | dict th =>
    rw [persistentBang] at h
    cases hok : hamtPersistentBang thread th <;> rw [hok] at h <;> cases h
    rfl
  | set th =>
    rw [persistentBang] at h
    cases hok : hamtPersistentBang thread th <;> rw [hok] at h <;> cases h
    rfl
  | vector tv =>
    rw [persistentBang] at h
    cases hok : transientVecTPersistent thread tv <;> rw [hok] at h <;> cases h
    rfl

/-- A session keeps the kind of the collection exactly when this is an instance of a base class, no
entry is put in by `conj!` and no insertion meets a bucket. -/
theorem keepsKind_iff (hcongr : ∀ a b : κ, (a == b) = true → sxhash a = sxhash b)
    (hv : c.Valid sxhash) {run : List (Bang κ ν α × Session τ κ ν α ρ)}
    (hrun : IsRun (fun s op s' => Session.step sxhash t fill thread methods s op = some s')
      (.start fill thread c) run)
    (hboth : EachStep (MeetsBoth sxhash) (.start fill thread c) run) :
    Always (KeepsKind eof thread methods) (.start fill thread c) run ↔
      c.cls.isBase = true ∧ EachStep (Plain sxhash) (.start fill thread c) run := by
  by_cases hbase : c.cls.isBase = true
  · have hstart : Follows sxhash thread (.start fill thread c) :=
      ⟨rfl, _, rfl, inStep_start hv hbase⟩
    rw [and_iff_right hbase]
    exact always_iff_eachStep (fun _ _ _ hI _ hD hC hs => (hI.step eof hcongr hD hs).2 hC)
      (fun _ _ _ hI _ hD hs => (hI.step eof hcongr hD hs).1) hstart hstart.keepsKind hrun hboth
  · refine iff_of_false (fun halways => ?_) fun h => hbase h.1
    obtain ⟨tr, result, -, hok, hcls, -⟩ := halways.head
    have horiginal : result.cls = c.cls := hcls
    exact hbase (horiginal ▸ persistentBang_isBase hok)

end

/-- Subclasses without operations of their own. -/
def noMethods : Methods Unit Nat Nat Nat Unit := ⟨fun _ _ => none, fun _ => []⟩

/-- Keys 1 and 33 have the same first chunk; 1 is removed and 65 put in. -/
def dictRun : List (Bang Nat Nat Nat) := [.assoc 1 10, .assoc 33 20, .dissoc 1, .assoc 65 30]

def dictSession : Session Unit Nat Nat Nat Unit := .start 0 () (.dict .dict {} none)

theorem dictRun_keepsKind :
    Always (KeepsKind 0 () noMethods) dictSession
    (trace (Session.step id 1 0 () noMethods) dictSession dictRun) := by
  have hvalid : Collection.Valid id (.dict .dict {} none : Collection Unit Nat Nat Nat Unit) :=
    Hamt.Valid.empty id
  have hboth : EachStep (MeetsBoth id) dictSession
      (trace (Session.step id 1 0 () noMethods) dictSession dictRun) :=
    ⟨fun h => absurd h (by decide), fun h => absurd h (by decide), fun h => absurd h (by decide),
      fun h => absurd h (by decide), trivial⟩
  have hplain : EachStep (Plain id) dictSession
      (trace (Session.step id 1 0 () noMethods) dictSession dictRun) :=
    ⟨⟨rfl, by decide⟩, ⟨rfl, by decide⟩, ⟨rfl, by decide⟩, ⟨rfl, by decide⟩, trivial⟩
  exact (keepsKind_iff (fun _ _ h => eq_of_beq h) hvalid (trace_isRun _ _ _) hboth).mpr ⟨rfl,
    hplain⟩

/-- An ordered dict comes back as a dict. -/
theorem orderedDict_not_kept : ¬ ∀ (c : Collection Unit Nat Nat Nat Unit)
    (run : List (Bang Nat Nat Nat × Session Unit Nat Nat Nat Unit)), c.Valid id →
    IsRun (fun s op s' => Session.step id 1 0 () noMethods s op = some s') (.start 0 () c) run →
    Always (KeepsKind 0 () noMethods) (.start 0 () c) run := by
  intro h
  obtain ⟨tr, result, -, hok, hcls, -⟩ :=
    h (.dict .orderedDict {} (some ())) [] (Hamt.Valid.empty id) trivial
  have hbase := persistentBang_isBase hok
  rw [hcls] at hbase
  cases hbase

end Fol.Collections.Transients
