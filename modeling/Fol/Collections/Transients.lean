/-
Fol.Collections.Transients — `transient`, the bang operations and `persistent!`.

There are three transient classes. `transient` is a method on `<dict>`, `<set>` and `<vector>`,
which their subclasses inherit: it takes the one slot that the base class has, and `persistent!`
makes an instance of the base class. What the methods of the subclasses do, and their other slots,
is left open (`Methods`). `*wrapper-transients*` is off.
-/
import Fol.HashTrie.Order
import Fol.VecTrie.Refinement

namespace Fol.Collections.Transients

open Lib HashTrie VecTrie

/-! ## §1 Collections -/

/-- `<dict>` and its subclasses. -/
inductive DictClass where
  | dict
  | orderedDict
  | arrayDict
  | orderedSet
deriving DecidableEq

/-- `<set>` and its subclasses. -/
inductive SetClass where
  | set
  | sortedSet
  | intSet
  | denseIntSet
deriving DecidableEq

/-- `<vector>` and its subclass. -/
inductive VectorClass where
  | vector
  | array
deriving DecidableEq

/-- An instance: its class, the slot of the base class, and what else a subclass has (`none` in the
base classes). -/
inductive Collection (τ κ ν α ρ : Type) where
  | dict (cls : DictClass) (dictStorage : Hamt τ κ ν) (slots : Option ρ)
  | set (cls : SetClass) (dictStorage : Hamt τ κ ν) (slots : Option ρ)
  | vector (cls : VectorClass) (storage : VecT α) (slots : Option ρ)

/-- What `collection-seq` lists. -/
inductive Item (κ ν α : Type) where
  | entry (key : κ) (val : ν)
  | key (element : κ)
  | elem (element : α)
deriving DecidableEq

/-- The operations of which there is a bang form; `assocAt` is `assoc` on a vector. -/
inductive Bang (κ ν α : Type) where
  | assoc (key : κ) (val : ν)
  | assocAt (index : Int) (val : α)
  | dissoc (key : κ)
  | conj (x : Item κ ν α)
  | disj (element : κ)
deriving DecidableEq

/-- The methods of the subclasses. -/
structure Methods (τ κ ν α ρ : Type) where
  apply : Collection τ κ ν α ρ → Bang κ ν α → Option (Collection τ κ ν α ρ)
  seq : Collection τ κ ν α ρ → List (Item κ ν α)

section

variable {τ κ ν α ρ : Type}

/-- The class, as the pair of the base class and the subclass. -/
inductive Class where
  | dict (cls : DictClass)
  | set (cls : SetClass)
  | vector (cls : VectorClass)
deriving DecidableEq

def Collection.cls : Collection τ κ ν α ρ → Class
  | .dict cls _ _ => .dict cls
  | .set cls _ _ => .set cls
  | .vector cls _ _ => .vector cls

/-- `<dict>`, `<set>` and `<vector>` themselves. -/
def Class.isBase : Class → Bool
  | .dict .dict => true
  | .set .set => true
  | .vector .vector => true
  | _ => false

/-- The pairs of the iterator, up to the first `:eof`. -/
def hamtSeq (h : Hamt τ κ ν) : List (κ × ν) :=
  ((iteratorCalls (h.count + 1) (hamtIterator h)).takeWhile Option.isSome).filterMap id

/-- The elements of the iterator, up to the first `:eof`. -/
def vecSeq [DecidableEq α] (eof : α) (v : VecT α) : List α :=
  (iteratorTake v v.count (vecTIterator v)).takeWhile (· ≠ eof)

/-- `collection-seq`. -/
def Collection.seq [DecidableEq α] (methods : Methods τ κ ν α ρ) (eof : α) :
    Collection τ κ ν α ρ → List (Item κ ν α)
  | .dict .dict h _ => (hamtSeq h).map fun p => .entry p.1 p.2
  | .set .set h _ => (hamtSeq h).map fun p => .key p.1
  | .vector .vector v _ => (vecSeq eof v).map .elem
  | c => methods.seq c

/-! ## §2 Operations -/

variable [BEq κ] [DecidableEq α]

/-- `assoc`, `dissoc`, `conj`, `disj`. None where the class has no such operation, or the index is
out of bounds. `t` is the value that a set stores. -/
def persistentOp (sxhash : κ → Nat) (t : ν) (methods : Methods τ κ ν α ρ) :
    Collection τ κ ν α ρ → Bang κ ν α → Option (Collection τ κ ν α ρ)
  | .dict .dict h slots, .assoc key val => (hamtAssoc sxhash h key val).map (.dict .dict · slots)
  | .dict .dict h slots, .conj (.entry key val) =>
      (hamtAssoc sxhash h key val).map (.dict .dict · slots)
  | .dict .dict h slots, .dissoc key => some (.dict .dict (hamtDissoc sxhash h key) slots)
  | .set .set h slots, .conj (.key element) =>
      (hamtAssoc sxhash h element t).map (.set .set · slots)
  | .set .set h slots, .disj element => some (.set .set (hamtDissoc sxhash h element) slots)
  | .vector .vector v slots, .conj (.elem x) => some (.vector .vector (vecTConj v x) slots)
  | .vector .vector v slots, .assocAt index x =>
    if 0 ≤ index ∧ index < v.count then some (.vector .vector (vecTAssoc v index.toNat x) slots)
      else none
  | c, op => if c.cls.isBase then none else methods.apply c op

end

/-! ## §3 Transients -/

/-- `<transient-dict>`, `<transient-set>`, `<transient-vector>`. -/
inductive Transient (τ κ ν α : Type) where
  | dict (th : TransientHamt τ κ ν)
  | set (th : TransientHamt τ κ ν)
  | vector (tv : TransientVecT τ α)

inductive BangError where
  | trie (e : HashTrie.Error)
  | vector (message : String)
  | notSupported (message : String)
deriving DecidableEq

section

variable {τ κ ν α ρ : Type}

def Transient.typeOf : Transient τ κ ν α → String
  | .dict _ => "<TRANSIENT-DICT>"
  | .set _ => "<TRANSIENT-SET>"
  | .vector _ => "<TRANSIENT-VECTOR>"

def Bang.name : Bang κ ν α → String
  | .assoc _ _ => "assoc!"
  | .assocAt _ _ => "assoc!"
  | .dissoc _ => "dissoc!"
  | .conj _ => "conj!"
  | .disj _ => "disj!"

/-- The default methods of the bang operations. -/
def notSupported (op : Bang κ ν α) (tr : Transient τ κ ν α) : BangError :=
  .notSupported (op.name ++ " not supported for type " ++ tr.typeOf)

/-- `transient`. `fill` is what a fresh array holds. -/
def transient (fill : α) (thread : τ) : Collection τ κ ν α ρ → Transient τ κ ν α
  | .dict _ h _ => .dict (apiTransientHamt thread h)
  | .set _ h _ => .set (apiTransientHamt thread h)
  | .vector _ v _ => .vector (transientVecT fill thread v)

variable [DecidableEq τ] [BEq κ] [DecidableEq α]

/-- `assoc!`, `dissoc!`, `conj!`, `disj!`. -/
def bang (sxhash : κ → Nat) (t : ν) (fill : α) (thread : τ) :
    Transient τ κ ν α → Bang κ ν α → Except BangError (Transient τ κ ν α)
  | .dict th, .assoc key val => ((hamtAssocBang sxhash thread th key val).mapError .trie).map .dict
  | .dict th, .dissoc key => ((hamtDissocBang sxhash thread th key).mapError .trie).map .dict
  | .set th, .conj (.key element) =>
      ((hamtAssocBang sxhash thread th element t).mapError .trie).map .set
  | .set th, .disj element => ((hamtDissocBang sxhash thread th element).mapError .trie).map .set
  | .vector tv, .conj (.elem x) =>
      ((transientVecTConj fill thread tv x).mapError .vector).map .vector
  | .vector tv, .assocAt index x =>
      ((transientVecTAssoc thread tv index x).mapError .vector).map .vector
  | tr, op => .error (notSupported op tr)

/-- `persistent!`. -/
def persistentBang (thread : τ) : Transient τ κ ν α → Except BangError (Collection τ κ ν α ρ)
  | .dict th => ((hamtPersistentBang thread th).mapError .trie).map fun r => .dict .dict r.2 none
  | .set th => ((hamtPersistentBang thread th).mapError .trie).map fun r => .set .set r.2 none
  | .vector tv => ((transientVecTPersistent thread tv).mapError .vector).map fun r =>
      .vector .vector r.2 none

end

/-! ## §4 Sessions -/

/-- The collection the session started from, what the persistent operations make of it, and the
transient. -/
structure Session (τ κ ν α ρ : Type) where
  original : Collection τ κ ν α ρ
  persistent : Collection τ κ ν α ρ
  transient : Except BangError (Transient τ κ ν α)

section

variable {τ κ ν α ρ : Type} [DecidableEq τ] [BEq κ] [DecidableEq α]

def Session.start (fill : α) (thread : τ) (c : Collection τ κ ν α ρ) : Session τ κ ν α ρ :=
  ⟨c, c, .ok (Transients.transient fill thread c)⟩

/-- An operation that the collection supports, and its bang form on the transient. -/
def Session.step (sxhash : κ → Nat) (t : ν) (fill : α) (thread : τ) (methods : Methods τ κ ν α ρ)
    (s : Session τ κ ν α ρ) (op : Bang κ ν α) : Option (Session τ κ ν α ρ) :=
  (persistentOp sxhash t methods s.persistent op).map fun p =>
    { s with
      persistent := p
      transient := s.transient.bind fun tr => bang sxhash t fill thread tr op }

/-- `persistent!` gives a collection of the class of the original that lists what the persistent
operations give. -/
def KeepsKind (eof : α) (thread : τ) (methods : Methods τ κ ν α ρ) (s : Session τ κ ν α ρ) : Prop :=
  ∃ tr result, s.transient = .ok tr ∧ persistentBang thread tr = .ok result ∧
    result.cls = s.original.cls ∧ result.seq methods eof = s.persistent.seq methods eof

end

end Fol.Collections.Transients
