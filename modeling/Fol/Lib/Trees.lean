/-
Fol.Lib.Trees — trees given by three functions, and their subtrees by position.

A type of nodes is a type of trees by saying which nodes are branches, what the children of a
branch are, and how to make a branch from a node and other children. A position is the list of
the indices from the node up to the root, the innermost first.
-/
import Mathlib.Data.List.Basic

namespace Fol.Lib

/-! ## §1 Trees -/

structure Trees (T : Type) where
  branch : T → Bool
  children : T → List T
  make : T → List T → T

/-- A branch is determined by its children and by what is not its children, and each can be changed
without the other. -/
structure Trees.Lawful {T : Type} (z : Trees T) : Prop where
  branch_make : ∀ n cs, z.branch n = true → z.branch (z.make n cs) = true
  children_make : ∀ n cs, z.branch n = true → z.children (z.make n cs) = cs
  make_children : ∀ n, z.branch n = true → z.make n (z.children n) = n
  make_make : ∀ n cs cs', z.branch n = true → z.make (z.make n cs) cs' = z.make n cs'

namespace Trees

variable {T : Type} (z : Trees T)

/-! ## §2 Positions -/

def child (n : T) (i : Nat) : Option T := if z.branch n then (z.children n)[i]? else none

def subtree (t : T) : List Nat → Option T
  | [] => some t
  | i :: q => (subtree t q).bind fun n => z.child n i

/-- The children of a branch changed. -/
def onChildren (f : List T → Option (List T)) (n : T) : Option T :=
  if z.branch n then (f (z.children n)).map (z.make n) else none

/-- One element of a list changed. -/
def onElement (i : Nat) (f : T → Option T) (cs : List T) : Option (List T) :=
  (cs[i]?.bind f).map fun c => cs.set i c

/-- The tree with the subtree at this position changed. -/
def modify (t : T) : List Nat → (T → Option T) → Option T
  | [], f => f t
  | i :: q, f => modify t q (z.onChildren (onElement i f))

variable {z}

section

variable {n : T} {l r : List T}

@[simp] theorem getElem?_zipped : (l.reverse ++ n :: r)[l.length]? = some n := by
  rw [← List.length_reverse, List.getElem?_append_right (Nat.le_refl _)]
  simp

@[simp] theorem onElement_zipped (f : T → Option T) :
    onElement l.length f (l.reverse ++ n :: r) = (f n).map fun c => l.reverse ++ c :: r := by
  simp [onElement]

end

theorem Lawful.child_make (h : z.Lawful) {n : T} (hn : z.branch n = true) (cs : List T) (i : Nat) :
    z.child (z.make n cs) i = cs[i]? := by
  rw [child, h.branch_make n cs hn, if_pos rfl, h.children_make n cs hn]

theorem Lawful.onChildren_make (h : z.Lawful) {n : T} (hn : z.branch n = true) (cs : List T)
    (f : List T → Option (List T)) : z.onChildren f (z.make n cs) = (f cs).map (z.make n) := by
  rw [onChildren, h.branch_make n cs hn, if_pos rfl, h.children_make n cs hn]
  cases f cs with
  | none => rfl
  | some cs' => rw [Option.map_some, Option.map_some, h.make_make n cs cs' hn]

end Trees

end Fol.Lib
