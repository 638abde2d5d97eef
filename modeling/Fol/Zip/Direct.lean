/-
Fol.Zip.Direct — the operations of a zipper done to the tree itself, at a position.

This says what the operations are for: the state is a tree and a position in it, moves change the
position, edits change the tree there. Each is defined on the tree as it is now, with no path and
no flags.
-/
import Fol.Zip.Zip

namespace Fol.Zip

open Fol.Lib

/-! ## §1 Cursors -/

/-- A position in a tree, or none after the last node of a walk. -/
structure Cursor (T : Type) where
  tree : T
  pos : Option (List Nat)
deriving DecidableEq

section

variable {T : Type} (z : Trees T)

/-- The children of the node at this position. -/
def childrenAt (t : T) (q : List Nat) : List T :=
  match z.subtree t q with
  | some n => if z.branch n then z.children n else []
  | none => []

/-- The last node below this position, following the last children. -/
def lastBelow (t : T) : Nat → List Nat → Option (List Nat)
  | 0, _ => none
  | fuel + 1, q =>
    match (childrenAt z t q).length with
    | 0 => some q
    | k + 1 => lastBelow t fuel (k :: q)

/-- The next sibling of this position, or of the nearest one above it that has one. -/
def after (t : T) : List Nat → Option (List Nat)
  | [] => none
  | i :: q => if i + 1 < (childrenAt z t q).length then some ((i + 1) :: q) else after t q

/-! ## §2 Operations -/

/-- The tree with other children of the parent, and the position. -/
def onSiblings (t : T) (f : Nat → List T → Option (List T)) (move : Nat → Nat) :
    List Nat → Option (Cursor T)
  | [] => none
  | i :: q => (z.modify t q (z.onChildren (f i))).map fun t' => ⟨t', some (move i :: q)⟩

def removeAt (t : T) (fuel : Nat) : List Nat → Option (Cursor T)
  | [] => none
  | 0 :: q => (z.modify t q (z.onChildren fun cs => some (cs.eraseIdx 0))).map fun t' =>
      ⟨t', some q⟩
  | (i + 1) :: q =>
    (z.modify t q (z.onChildren fun cs => some (cs.eraseIdx (i + 1)))).bind fun t' =>
      (lastBelow z t' fuel (i :: q)).map fun pos => ⟨t', some pos⟩

/-- The operation at this position. -/
def Op.directAt (t : T) (q : List Nat) : Op T → Option (Cursor T)
  | .down => if childrenAt z t q = [] then none else some ⟨t, some (0 :: q)⟩
  | .up =>
    match q with
    | [] => none
    | _ :: q => some ⟨t, some q⟩
  | .left =>
    match q with
    | (i + 1) :: q => some ⟨t, some (i :: q)⟩
    | _ => none
  | .right =>
    match q with
    | i :: q => if i + 1 < (childrenAt z t q).length then some ⟨t, some ((i + 1) :: q)⟩ else none
    | [] => none
  | .leftmost =>
    match q with
    | [] => some ⟨t, some []⟩
    | _ :: q => some ⟨t, some (0 :: q)⟩
  | .rightmost =>
    match q with
    | [] => some ⟨t, some []⟩
    | _ :: q => some ⟨t, some (((childrenAt z t q).length - 1) :: q)⟩
  | .next => some ⟨t, if childrenAt z t q = [] then after z t q else some (0 :: q)⟩
  | .prev fuel =>
    match q with
    | [] => none
    | 0 :: q => some ⟨t, some q⟩
    | (i + 1) :: q => (lastBelow z t fuel (i :: q)).map fun pos => ⟨t, some pos⟩
  | .replace node => (z.modify t q fun _ => some node).map fun t' => ⟨t', some q⟩
  | .edit f => (z.modify t q fun n => some (f n)).map fun t' => ⟨t', some q⟩
  | .insertLeft item => onSiblings z t (fun i cs => some (cs.insertIdx i item)) (· + 1) q
  | .insertRight item => onSiblings z t (fun i cs => some (cs.insertIdx (i + 1) item)) id q
  | .insertChild item =>
    (z.modify t q (z.onChildren fun cs => some (item :: cs))).map fun t' => ⟨t', some q⟩
  | .appendChild item =>
    (z.modify t q (z.onChildren fun cs => some (cs ++ [item]))).map fun t' => ⟨t', some q⟩
  | .remove fuel => removeAt z t fuel q

/-- After the end of a walk only `next` is possible, and does nothing. -/
def Op.direct (op : Op T) (c : Cursor T) : Option (Cursor T) :=
  match c.pos, op with
  | some q, op => op.directAt z c.tree q
  | none, .next => some c
  | none, _ => none

end

end Fol.Zip
