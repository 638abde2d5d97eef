/-
Fol.Lib.Table — hash tables: lists of bindings that carry the proof that no key is bound twice.

Keys are compared by identity; entries stand in the order their keys were first set.
-/
import Fol.Lib.OrderedBindings

namespace Fol.Lib

/-! ## §1 Tables -/

structure Table (κ ν : Type*) [DecidableEq κ] where
  entries : List (κ × ν) := []
  distinct : Distinct entries := by exact distinct_nil

namespace Table

variable {κ ν : Type*} [DecidableEq κ]

def get (t : Table κ ν) (k : κ) : Option ν := lookup k t.entries

def set (t : Table κ ν) (k : κ) (v : ν) : Table κ ν where
  entries := upsert k v t.entries
  distinct := t.distinct.upsert k v

@[simp] theorem get_empty (k : κ) : ({} : Table κ ν).get k = none := rfl

theorem get_set (t : Table κ ν) (k k' : κ) (v : ν) :
    (t.set k v).get k' = if k = k' then some v else t.get k' := by
  rw [get, set, lookup_upsert]
  simp [get]

@[simp] theorem get_set_self (t : Table κ ν) (k : κ) (v : ν) : (t.set k v).get k = some v := by
  simp [get_set]

theorem get_set_ne (t : Table κ ν) {k k' : κ} (v : ν) (h : k ≠ k') :
    (t.set k v).get k' = t.get k' := by
  simp [get_set, h]

theorem get_eq_some_iff (t : Table κ ν) {k : κ} {v : ν} :
    t.get k = some v ↔ (k, v) ∈ t.entries := by
  rw [get, lookup_eq_some_iff t.distinct]
  simp

end Table

end Fol.Lib
