/-
Fol.Persistence.Schema — persistent classes, their versions and the migration of an
instance, from `persistence.lisp`.

Up to eight user slots are native CLOS slots; the rest live in a persistent vector,
addressed by the class's overflow indices. A redefinition snapshots the class and
computes the layout anew; CLOS then keeps the slots native in both layouts and passes
the bound values of the dropped ones to the method that `updateInstance` models.

The persistent vector is the list of its elements (`Fol.VecTrie.vec_refines_list`).
Slot names are compared with EQ: any type with decidable equality.
-/
import Mathlib.Data.List.Nodup

namespace Fol.Persistence

/-! ## §1 Values -/

/-- A slot's value: `:unbound`, `:not-found`, or anything else. -/
inductive Value (α : Type) where
  | unbound
  | notFound
  | other (a : α)
deriving DecidableEq

/-! ## §2 Classes -/

/-- `+native-slot-limit+`. -/
def nativeSlotLimit : Nat := 8

/-- An effective slot definition: the slot's name and its `:alias`. -/
structure SlotDef (σ : Type) where
  name : σ
  aliasName : Option σ := none
deriving DecidableEq

/-- The user slots of a class, in order. CLOS merges the definitions of one name. -/
structure Layout (σ : Type) where
  slots : List (SlotDef σ)
  nodup : (slots.map SlotDef.name).Nodup

namespace Layout

variable {σ : Type}

def names (l : Layout σ) : List σ := l.slots.map SlotDef.name

/-- The alias map `compute-slots` builds. -/
def aliases (l : Layout σ) : List (σ × σ) :=
  l.slots.filterMap fun slot => slot.aliasName.map (slot.name, ·)

/-- The slots stored natively. -/
def nativeNames (l : Layout σ) : List σ :=
  if l.slots.length ≤ nativeSlotLimit then l.names else l.names.take nativeSlotLimit

def overflowNames (l : Layout σ) : List σ := l.names.drop nativeSlotLimit

/-- The overflow slots with their 0-based vector indices. -/
def overflowIndices (l : Layout σ) : List (σ × Nat) := l.overflowNames.zipIdx

end Layout

/-- `class-version`; its `prev` is the rest of the chain. -/
structure ClassVersion (σ : Type) where
  versionId : Nat
  aliasMap : List (σ × σ)
  overflowIndices : Option (List (σ × Nat))

/-- `persistent-class`, finalized. -/
structure PersistentClass (σ : Type) where
  layout : Layout σ
  slotCount : Nat
  overflowIndices : Option (List (σ × Nat))
  slotAliases : List (σ × σ)
  versionCounter : Nat
  versionChain : List (ClassVersion σ)

namespace PersistentClass

variable {σ : Type}

/-- `compute-slots`. A layout without overflow leaves the class's index map as it was. -/
def computeSlots (cls : PersistentClass σ) (l : Layout σ) : PersistentClass σ :=
  { cls with
    layout := l
    slotCount := l.slots.length
    slotAliases := l.aliases
    overflowIndices :=
      if l.slots.length ≤ nativeSlotLimit then cls.overflowIndices else some l.overflowIndices }

/-- The `:before` method of `reinitialize-instance`. -/
def snapshot (cls : PersistentClass σ) : PersistentClass σ :=
  { cls with
    versionChain :=
      ⟨cls.versionCounter, cls.slotAliases, cls.overflowIndices⟩ :: cls.versionChain
    versionCounter := cls.versionCounter + 1 }

/-- The first definition of a class. -/
def define (l : Layout σ) : PersistentClass σ :=
  computeSlots
    { layout := l, slotCount := 0, overflowIndices := none, slotAliases := [],
      versionCounter := 0, versionChain := [] } l

def redefine (cls : PersistentClass σ) (l : Layout σ) : PersistentClass σ :=
  cls.snapshot.computeSlots l

def redefineAll (cls : PersistentClass σ) (ls : List (Layout σ)) : PersistentClass σ :=
  ls.foldl redefine cls

/-- Is the slot one of the overflow slots the class knows? -/
def overflowIndex [DecidableEq σ] (cls : PersistentClass σ) (name : σ) : Option Nat :=
  cls.overflowIndices.bind (·.lookup name)

end PersistentClass

/-! ## §3 Instances -/

/-- An instance: its bound native slots, `%persistent-vector` and `%schema-version`. -/
structure Instance (σ α : Type) where
  native : σ → Option (Value α)
  persistentVector : Option (List (Value α)) := none
  schemaVersion : Nat

section Reads

variable {σ α : Type} [DecidableEq σ]

/-- `ref` on the persistent vector. -/
def ref (vec : List (Value α)) (idx : Nat) (default : Value α) : Value α := vec[idx]?.getD default

/-- The `slot-value` operation of `slot-missing`; `none` is its unbound-slot error. -/
def slotMissing (cls : PersistentClass σ) (x : Instance σ α) (name : σ) : Option (Value α) :=
  match cls.overflowIndex name, x.persistentVector with
  | some idx, some vec =>
    match ref vec idx .unbound with
    | .unbound => none
    | val => some val
  | _, _ => none

/-- `slot-value`; `none` when the slot is unbound. -/
def slotValue (cls : PersistentClass σ) (x : Instance σ α) (name : σ) : Option (Value α) :=
  if name ∈ cls.layout.nativeNames then x.native name else slotMissing cls x name

end Reads

/-! ## §4 Migration -/

section Migration

variable {σ α : Type} [DecidableEq σ]

/-- One snapshot of the loop that composes the alias maps. -/
def chase (snapAliases composed : List (σ × σ)) : List (σ × σ) :=
  composed.map fun entry =>
    match snapAliases.lookup entry.2 with
    | some deeper => (entry.1, deeper)
    | none => entry

/-- The composed alias map: current slot name → birth-version slot name. -/
def composedAliases (cls : PersistentClass σ) (birthVersion : Nat) : List (σ × σ) :=
  (cls.versionChain.takeWhile fun snap => snap.versionId > birthVersion).foldl
    (fun composed snap => chase snap.aliasMap composed) cls.slotAliases

/-- A value that is the default of the `getf` counts as missing. -/
def unlessNotFound : Option (Value α) → Option (Value α)
  | some .notFound => none
  | found => found

/-- The values the composed map finds in the property list, with their new slots. -/
def recoveries (composed : List (σ × σ)) (propertyList : List (σ × Value α)) :
    List (σ × Value α) :=
  composed.filterMap fun entry =>
    (unlessNotFound (propertyList.lookup entry.2)).map (entry.1, ·)

/-- The old elements at the current indices, which run from 0 to `size - 1`. -/
def preserved (size : Nat) (old : Option (List (Value α))) : List (Value α) :=
  match old with
  | none => List.replicate size .unbound
  | some vec => (List.range size).map fun idx =>
    (unlessNotFound (some (ref vec idx .notFound))).getD .unbound

/-- One recovered value, written at its slot's index. -/
def overlay (indices : List (σ × Nat)) (arr : List (Value α)) (pair : σ × Value α) :
    List (Value α) :=
  match indices.lookup pair.1 with
  | some idx => arr.set idx pair.2
  | none => arr

/-- The new vector: the old elements with the recovered values over them. -/
def rebuildVector (indices : List (σ × Nat)) (old : Option (List (Value α)))
    (assignments : List (σ × Value α)) : List (Value α) :=
  assignments.foldl (overlay indices) (preserved indices.length old)

/-- The `:after` method of `update-instance-for-redefined-class`. -/
def updateInstance (cls : PersistentClass σ) (x : Instance σ α)
    (propertyList : List (σ × Value α)) : Instance σ α :=
  let composed := composedAliases cls x.schemaVersion
  let recovered := recoveries composed propertyList
  let overflowAssignments := recovered.filter fun pair => (cls.overflowIndex pair.1).isSome
  let nativeAssignments := recovered.filter fun pair =>
    (cls.overflowIndex pair.1).isNone && (slotValue cls x pair.1).isNone
  let x := { x with
    native := fun name => (nativeAssignments.lookup name).or (x.native name)
    persistentVector :=
      if overflowAssignments.isEmpty then x.persistentVector
      else some (rebuildVector (cls.overflowIndices.getD []) x.persistentVector
        overflowAssignments) }
  { x with schemaVersion := cls.versionCounter }

/-- What CLOS keeps of an instance: the slots native in both layouts. -/
def keepNative (old new : List σ) (x : Instance σ α) : Instance σ α :=
  { x with native := fun name => if name ∈ old ∧ name ∈ new then x.native name else none }

/-- The property list CLOS passes: the bound values of slots no longer native. -/
def propertyList (old new : List σ) (x : Instance σ α) : List (σ × Value α) :=
  old.filterMap fun name => if name ∈ new then none else (x.native name).map (name, ·)

/-- The migration of an instance from the class `old` to its redefinition `cls`. -/
def migrate (old cls : PersistentClass σ) (x : Instance σ α) : Instance σ α :=
  updateInstance cls (keepNative old.layout.nativeNames cls.layout.nativeNames x)
    (propertyList old.layout.nativeNames cls.layout.nativeNames x)

/-- The instance migrated after each redefinition in turn. -/
def migrateEach (cls : PersistentClass σ) (x : Instance σ α) : List (Layout σ) → Instance σ α
  | [] => x
  | l :: ls => migrateEach (cls.redefine l) (migrate cls (cls.redefine l) x) ls

/-- The instance migrated once, to the last redefinition. -/
def migrateOnce (cls : PersistentClass σ) (x : Instance σ α) (ls : List (Layout σ)) :
    Instance σ α :=
  migrate cls (cls.redefineAll ls) x

end Migration

end Fol.Persistence
