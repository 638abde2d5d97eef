/-
Fol.Zip.Zip — zippers: a location is a node and the path up to the root.

A level of the path has the siblings on both sides, the nodes above as they were when the walk went
down, and a flag: something on this level or below it has changed. Going up makes a new parent only
if the flag is set. `z` has the three functions of the zipper.
-/
import Fol.Lib.Trees

namespace Fol.Zip

open Fol.Lib

/-! ## §1 Locations -/

/-- `zipper-path`, nil at the root. -/
inductive Path (T : Type) where
  | nil
  | level (l : List T) (pnodes : List T) (ppath : Path T) (r : List T) (changed : Bool)
deriving DecidableEq

/-- `zipper-loc`. After the last node of a walk the path is `:end`. -/
inductive Loc (T : Type) where
  | at (node : T) (path : Path T)
  | theEnd (node : T)
deriving DecidableEq

variable {T : Type}

namespace Path

def depth : Path T → Nat
  | nil => 0
  | level _ _ ppath _ _ => ppath.depth + 1

def rights : Path T → List T
  | nil => []
  | level _ _ _ r _ => r

def lefts : Path T → List T
  | nil => []
  | level l _ _ _ _ => l

/-- The path with its flag set. -/
def flag : Path T → Path T
  | nil => nil
  | level l pnodes ppath r _ => level l pnodes ppath r true

/-- The nodes above a child of this node. -/
def pnodesBelow (node : T) : Path T → List T
  | nil => [node]
  | level _ pnodes _ _ _ => pnodes ++ [node]

end Path

/-- `zipper`. -/
def zipper (root : T) : Loc T := .at root .nil

/-! ## §2 Navigation -/

section

variable (z : Trees T)

/-- A location, or none: nil, or an error is signalled. -/
def down : Loc T → Option (Loc T)
  | .at n p =>
    if z.branch n then
      match z.children n with
      | [] => none
      | c :: cs => some (.at c (.level [] (p.pnodesBelow n) p cs false))
    else none
  | .theEnd _ => none

def up : Loc T → Option (Loc T)
  | .at n (.level l pnodes ppath r changed) =>
    pnodes.getLast?.map fun pnode =>
      if changed then .at (z.make pnode (l.reverse ++ n :: r)) ppath.flag else .at pnode ppath
  | _ => none

/-- The loop of `root`, for the levels of the path. -/
def rootLoop : Nat → Loc T → Option T
  | _, .theEnd _ => none
  | 0, .at n _ => some n
  | k + 1, .at n p =>
    match up z (.at n p) with
    | some parent => rootLoop k parent
    | none => some n

def root : Loc T → Option T
  | .at n p => rootLoop z p.depth (.at n p)
  | .theEnd _ => none

def right : Loc T → Option (Loc T)
  | .at n (.level l pnodes ppath (x :: r) changed) =>
      some (.at x (.level (n :: l) pnodes ppath r changed))
  | _ => none

def left : Loc T → Option (Loc T)
  | .at n (.level (x :: l) pnodes ppath r changed) =>
      some (.at x (.level l pnodes ppath (n :: r) changed))
  | _ => none

def rightLoop : Nat → Loc T → Loc T
  | 0, loc => loc
  | k + 1, loc =>
    match right loc with
    | some next => rightLoop k next
    | none => loc

def leftLoop : Nat → Loc T → Loc T
  | 0, loc => loc
  | k + 1, loc =>
    match left loc with
    | some next => leftLoop k next
    | none => loc

def rightmost : Loc T → Option (Loc T)
  | .at n p => some (rightLoop p.rights.length (.at n p))
  | .theEnd _ => none

def leftmost : Loc T → Option (Loc T)
  | .at n p => some (leftLoop p.lefts.length (.at n p))
  | .theEnd _ => none

/-! ## §3 Modification -/

def replace (node : T) : Loc T → Option (Loc T)
  | .at _ p => some (.at node p.flag)
  | .theEnd _ => none

def edit (f : T → T) : Loc T → Option (Loc T)
  | .at n p => replace (f n) (.at n p)
  | .theEnd _ => none

def insertLeft (item : T) : Loc T → Option (Loc T)
  | .at n (.level l pnodes ppath r _) => some (.at n (.level (item :: l) pnodes ppath r true))
  | _ => none

def insertRight (item : T) : Loc T → Option (Loc T)
  | .at n (.level l pnodes ppath r _) => some (.at n (.level l pnodes ppath (item :: r) true))
  | _ => none

/-- `insert-child`, `append-child`: the node with other children. -/
def withChildren (f : List T → List T) : Loc T → Option (Loc T)
  | .at n p => if z.branch n then replace (z.make n (f (z.children n))) (.at n p) else none
  | .theEnd _ => none

def insertChild (item : T) : Loc T → Option (Loc T) := withChildren z fun cs => item :: cs

def appendChild (item : T) : Loc T → Option (Loc T) := withChildren z fun cs => cs ++ [item]

/-- The loop of `remove` and of `prev`: to the last child, as long as there are children. None when
the fuel is too small. -/
def descend : Nat → Loc T → Option (Loc T)
  | 0, _ => none
  | k + 1, loc =>
    match down z loc with
    | some child => (rightmost child).bind (descend k)
    | none => some loc

/-- The first of its siblings is removed by going up, without a flag. -/
def remove (fuel : Nat) : Loc T → Option (Loc T)
  | .at _ (.level (x :: l) pnodes ppath r _) =>
      descend z fuel (.at x (.level l pnodes ppath r true))
  | .at _ (.level [] pnodes ppath r _) => pnodes.getLast?.map fun pnode =>
      .at (z.make pnode r) ppath
  | _ => none

/-! ## §4 Traversal -/

/-- The loop of `next`: up to a node that has a right sibling, or to the end. -/
def nextLoop : Nat → Loc T → Loc T
  | _, .theEnd n => .theEnd n
  | 0, .at n _ => .theEnd n
  | k + 1, .at n p =>
    match up z (.at n p) with
    | none => .theEnd n
    | some parent =>
      match right (.at n p) with
      | some next => next
      | none => nextLoop k parent

def next : Loc T → Option (Loc T)
  | .at n p =>
    match down z (.at n p) with
    | some child => some child
    | none =>
      match right (.at n p) with
      | some sibling => some sibling
      | none => some (nextLoop z p.depth (.at n p))
  | .theEnd n => some (.theEnd n)

def prev (fuel : Nat) (loc : Loc T) : Option (Loc T) :=
  match left loc with
  | some sibling => descend z fuel sibling
  | none => up z loc

end

/-! ## §5 Operations -/

/-- `fuel` bounds how far `prev` and `remove` go down. -/
inductive Op (T : Type) where
  | down
  | up
  | left
  | right
  | leftmost
  | rightmost
  | next
  | prev (fuel : Nat)
  | replace (node : T)
  | edit (f : T → T)
  | insertLeft (item : T)
  | insertRight (item : T)
  | insertChild (item : T)
  | appendChild (item : T)
  | remove (fuel : Nat)

def Op.apply (z : Trees T) : Op T → Loc T → Option (Loc T)
  | .down => Zip.down z
  | .up => Zip.up z
  | .left => Zip.left
  | .right => Zip.right
  | .leftmost => Zip.leftmost
  | .rightmost => Zip.rightmost
  | .next => Zip.next z
  | .prev fuel => Zip.prev z fuel
  | .replace node => Zip.replace node
  | .edit f => Zip.edit f
  | .insertLeft item => Zip.insertLeft item
  | .insertRight item => Zip.insertRight item
  | .insertChild item => Zip.insertChild z item
  | .appendChild item => Zip.appendChild z item
  | .remove fuel => Zip.remove z fuel

end Fol.Zip
