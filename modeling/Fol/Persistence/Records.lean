/-
Fol.Persistence.Records — persistent objects as records: `update-slots`, `dissoc-slots`,
`transient`, `assoc!` and `persistent!` over a heap of objects, beside what they are for.

An object is an instance with the flag of `%transient-owner`, for the one thread that runs. The
overflow vector is the list of its elements; `%transient-buffer` is always `nil` and `%metadata` is
no slot of the record.
-/
import Fol.Persistence.Construction

namespace Fol.Persistence.Records

open Construction

variable {σ κ α : Type} [DecidableEq σ] [DecidableEq κ] [DecidableEq α]

/-! ## §1 Writes -/

/-- An object. `owned` says that `%transient-owner` is the current thread; else it is `nil`. -/
structure Record (σ α : Type) extends Instance σ α where
  owned : Bool := false

/-- `slot-value`; none when the slot is unbound. -/
def readSlot (c : DefinedClass σ κ α) (x : Record σ α) (name : σ) : Option (Value α) :=
  slotValue c.cls x.toInstance name

/-- `(setf slot-value)`, by `slot-value-using-class` or `slot-missing`; none when it signals an
error. `initializing` is `*initializing-persistent-object*`. -/
def setfSlotValue (c : DefinedClass σ κ α) (initializing : Bool) (x : Record σ α) (name : σ)
    (value : Value α) : Option (Record σ α) :=
  if name ∈ c.cls.layout.nativeNames then
    if initializing || x.owned then some { x with toInstance := setNative x.toInstance name value }
    else none
  else
    match c.cls.overflowIndex name with
    | some idx =>
      if initializing || x.owned then
        x.persistentVector.map fun vec => { x with persistentVector := some (vec.set idx value) }
      else none
    | none => some x

/-- `slot-makunbound`. -/
def slotMakunbound (c : DefinedClass σ κ α) (x : Record σ α) (name : σ) : Option (Record σ α) :=
  if name ∈ c.cls.layout.nativeNames then
    if x.owned then some { x with native := fun n => if n = name then none else x.native n }
    else none
  else
    match c.cls.overflowIndex name with
    | some idx =>
      if x.owned then
        x.persistentVector.map fun vec => { x with persistentVector := some (vec.set idx .unbound) }
      else none
    | none => some x

/-- A slot's name or its keyword. -/
inductive Key (σ κ : Type) where
  | keyword (k : κ)
  | symbol (name : σ)
deriving DecidableEq

/-- `(if (keywordp key) (slot-name-from-keyword class key) key)`. -/
def resolveKey (K : Symbols σ κ α) (c : DefinedClass σ κ α) : Key σ κ → Option σ
  | .keyword k => slotNameFromKeyword K c k
  | .symbol name => some name

/-- Write one pair of the arguments. -/
def writePair (K : Symbols σ κ α) (c : DefinedClass σ κ α) (initializing : Bool) (x : Record σ α)
    (p : Key σ κ × Value α) : Option (Record σ α) :=
  (resolveKey K c p.1).bind fun name => setfSlotValue c initializing x name p.2

/-! ## §2 Copies -/

/-- The loop over `class-slots`: a bound slot is copied, an unbound one is given the value of its
alias. -/
def copySlots (c : DefinedClass σ κ α) (skip : EffectiveSlot σ κ α → Bool) (x : Record σ α) :
    Record σ α :=
  let new : Instance σ α := { (allocate : Instance σ α) with schemaVersion := c.cls.versionCounter }
  { toInstance := c.classSlots.foldl (fun new s =>
      if skip s then new
      else
        match (readSlot c x s.name).or (s.aliasName.bind (readSlot c x)) with
        | some value => setNative new s.name value
        | none => new) new }

/-- The overflow index of a key. -/
def overflowKey (K : Symbols σ κ α) (c : DefinedClass σ κ α) (key : Key σ κ) : Option Nat :=
  (resolveKey K c key).bind c.cls.overflowIndex

/-- One pair in a wide object, the vector as a transient. -/
def writeWide (K : Symbols σ κ α) (c : DefinedClass σ κ α) (st : List (Value α) × Record σ α)
    (p : Key σ κ × Value α) : Option (List (Value α) × Record σ α) :=
  match overflowKey K c p.1 with
  | some idx => some (st.1.set idx p.2, st.2)
  | none => (writePair K c true st.2 p).map (st.1, ·)

/-- `update-slots`: an owned object is written in place, another is copied. -/
def updateSlots (K : Symbols σ κ α) (c : DefinedClass σ κ α) (x : Record σ α)
    (pairs : List (Key σ κ × Value α)) : Option (Record σ α) :=
  if x.owned then pairs.foldlM (writePair K c false) x
  else
    let new := copySlots c (fun _ => false) x
    if c.Wide then
      if pairs.any fun p => (overflowKey K c p.1).isSome then
        let size := (c.cls.overflowIndices.getD []).length
        (pairs.foldlM (writeWide K c) (x.persistentVector.getD (List.replicate size .unbound),
          new)).map
          fun st => { st.2 with persistentVector := some st.1 }
      else pairs.foldlM (writePair K c true) { new with persistentVector := x.persistentVector }
    else pairs.foldlM (writePair K c true) new

/-- The slot is removed: its name or its alias is. -/
def isRemoved (removed : List σ) (name : σ) (aliasName : Option σ) : Bool :=
  removed.contains name || aliasName.any removed.contains

/-- `dissoc-slots`. -/
def dissocSlots (K : Symbols σ κ α) (c : DefinedClass σ κ α) (x : Record σ α)
    (keys : List (Key σ κ)) :
    Record σ α :=
  let removed := keys.filterMap (resolveKey K c)
  let new := copySlots c (fun s => isRemoved removed s.name s.aliasName) x
  match x.persistentVector with
  | some vec =>
    if c.Wide then
      if removed.any fun name => (c.cls.overflowIndex name).isSome then
        { new with persistentVector := some ((c.cls.overflowIndices.getD []).foldl (fun vec entry =>
            if isRemoved removed entry.1 (c.cls.slotAliases.lookup entry.1)
              then vec.set entry.2 .unbound
            else vec) vec) }
      else { new with persistentVector := some vec }
    else new
  | none => new

/-! ## §3 The heap -/

inductive Op (σ κ α : Type) where
  | makeInstance (initargs : Initargs κ α)
  | updateSlot (x : Nat) (key : Key σ κ) (value : Value α)
  | updateSlots (x : Nat) (pairs : List (Key σ κ × Value α))
  | dissocSlots (x : Nat) (keys : List (Key σ κ))
  | transient (x : Nat)
  | assocBang (x : Nat) (key : Key σ κ) (value : Value α)
  | persistentBang (x : Nat)

/-- The objects obtained so far, by address. -/
abbrev Heap (σ α : Type) := List (Record σ α)

/-- `update-slots` on an object of the heap; with the result's address. -/
def updateAt (K : Symbols σ κ α) (c : DefinedClass σ κ α) (heap : Heap σ α) (i : Nat)
    (pairs : List (Key σ κ × Value α)) : Option (Heap σ α × Nat) :=
  heap[i]?.bind fun x =>
    (Records.updateSlots K c x pairs).map fun new =>
      if x.owned then (heap.set i new, i) else (heap ++ [new], heap.length)

/-- One operation; none when it signals an error. -/
def step (K : Symbols σ κ α) (c : DefinedClass σ κ α) (heap : Heap σ α) :
    Op σ κ α → Option (Heap σ α × Nat)
  | .makeInstance initargs =>
    some (heap ++ [{ toInstance := Construction.makeInstance K c initargs }], heap.length)
  | .updateSlot i key value => updateAt K c heap i [(key, value)]
  | .updateSlots i pairs => updateAt K c heap i pairs
  | .dissocSlots i keys => heap[i]?.map fun x =>
      (heap ++ [Records.dissocSlots K c x keys], heap.length)
  | .transient i => (updateAt K c heap i []).bind fun r =>
    r.1[r.2]?.map fun copy => (r.1.set r.2 { copy with owned := true }, r.2)
  | .assocBang i key value => updateAt K c heap i [(key, value)]
  | .persistentBang i => heap[i]?.map fun x => (heap.set i { x with owned := false }, i)

def run (K : Symbols σ κ α) (c : DefinedClass σ κ α) (heap : Heap σ α) :
    List (Op σ κ α) → Option (Heap σ α)
  | [] => some heap
  | op :: ops => (step K c heap op).bind fun r => run K c r.1 ops

/-! ## §4 Records -/

/-- A record, and whether it is a transient. -/
structure AbsRecord (σ α : Type) where
  fields : σ → Option (Value α)
  transient : Bool := false

/-- The argument for a slot: the first of its initargs, else that of its alias. -/
def argument (K : Symbols σ κ α) (initargs : Initargs κ α) (s : EffectiveSlot σ κ α) :
    Option (Value α) :=
  ((initargs.find? fun p => p.1 ∈ s.initargs).map Prod.snd).or
    (s.aliasName.bind fun a => initargs.lookup (K.keyword a))

/-- The record that initargs describe. -/
def described (K : Symbols σ κ α) (c : DefinedClass σ κ α) (initargs : Initargs κ α) (name : σ) :
    Option (Value α) :=
  (c.slots.find? (·.name = name)).bind fun s => (argument K initargs s).or s.initform

/-- The fields after the updates. -/
def putAll (K : Symbols σ κ α) (c : DefinedClass σ κ α) (fields : σ → Option (Value α))
    (pairs : List (Key σ κ × Value α)) : σ → Option (Value α) :=
  pairs.foldl (fun fields p =>
    match resolveKey K c p.1 with
    | some name => Function.update fields name (some p.2)
    | none => fields) fields

/-- The fields without those of the keys. -/
def removeAll (K : Symbols σ κ α) (c : DefinedClass σ κ α) (fields : σ → Option (Value α))
    (keys : List (Key σ κ)) (name : σ) : Option (Value α) :=
  if name ∈ keys.filterMap (resolveKey K c) then none else fields name

/-- An update edits a transient and makes a new record of another. -/
def absUpdate (K : Symbols σ κ α) (c : DefinedClass σ κ α) (records : List (AbsRecord σ α))
    (i : Nat) (pairs : List (Key σ κ × Value α)) : List (AbsRecord σ α) :=
  match records[i]? with
  | some r =>
    if r.transient then records.set i { r with fields := putAll K c r.fields pairs }
    else records ++ [{ fields := putAll K c r.fields pairs }]
  | none => records

/-- What the operations are for. -/
def absStep (K : Symbols σ κ α) (c : DefinedClass σ κ α) (records : List (AbsRecord σ α)) :
    Op σ κ α → List (AbsRecord σ α)
  | .makeInstance initargs => records ++ [{ fields := described K c initargs }]
  | .updateSlot i key value => absUpdate K c records i [(key, value)]
  | .updateSlots i pairs => absUpdate K c records i pairs
  | .dissocSlots i keys =>
    match records[i]? with
    | some r => records ++ [{ fields := removeAll K c r.fields keys }]
    | none => records
  | .transient i =>
    match records[i]? with
    | some r => records ++ [{ r with transient := true }]
    | none => records
  | .assocBang i key value => absUpdate K c records i [(key, value)]
  | .persistentBang i =>
    match records[i]? with
    | some r => records.set i { r with transient := false }
    | none => records

def absRun (K : Symbols σ κ α) (c : DefinedClass σ κ α) (records : List (AbsRecord σ α))
    (ops : List (Op σ κ α)) : List (AbsRecord σ α) := ops.foldl (absStep K c) records

/-- The object reads, slot by slot, as the record. -/
structure Reads (c : DefinedClass σ κ α) (x : Record σ α) (r : AbsRecord σ α) : Prop where
  fields : ∀ s ∈ c.slots, readSlot c x s.name = r.fields s.name
  transient : x.owned = r.transient

/-- No write in place is possible. -/
def FrozenIn (c : DefinedClass σ κ α) (x : Record σ α) : Prop :=
  ∀ s ∈ c.slots, (∀ value, setfSlotValue c false x s.name value = none) ∧
  slotMakunbound c x s.name = none

/-- The whole run succeeds and so does every part of it; the objects then read as the records, and
the persistent ones are frozen and still the same objects at the end. -/
def FunctionalValues (K : Symbols σ κ α) (c : DefinedClass σ κ α) (ops : List (Op σ κ α)) : Prop :=
  ∀ before after, ops = before ++ after →
    ∃ heap final, run K c [] before = some heap ∧ run K c heap after = some final ∧
      List.Forall₂ (Reads c) heap (absRun K c [] before) ∧
      ∀ (i : Nat) (x : Record σ α), heap[i]? = some x → x.owned = false → FrozenIn c x ∧
      final[i]? = some x

end Fol.Persistence.Records
