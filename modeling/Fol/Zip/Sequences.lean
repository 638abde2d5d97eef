/-
Fol.Zip.Sequences — `seq-zip` and `vector-zip` on trees of lists, vectors and leaves.

Zip.lean takes the children of a node to be a list. `seq-zip` hands out the node itself: below a
vector or a string the right siblings are a vector, which `car` does not take, and an empty one is
not NIL. So here the siblings are a list that ends in NIL or in a vector, and NIL is told apart from
an error. Where the children are lists the operations are those of Zip.lean (§5).
-/
import Fol.Zip.Direct

namespace Fol.Zip.Sequences

open Fol.Lib

/-! ## §1 Objects -/

/-- Leaves that are not sequences. -/
inductive Atom (A : Type) where
  | character (c : Char)
  | integer (i : Int)
  | other (a : A)
deriving DecidableEq

/-- What the elements of a vector may be. -/
inductive VecType where
  | general
  | string
  | bits
deriving DecidableEq

/-- NIL is the empty list; a string is a vector. -/
inductive Obj (A : Type) where
  | atom (a : Atom A)
  | list (elements : List (Obj A))
  | vector (type : VecType) (elements : List (Obj A))

/-- A list that ends in NIL or in a vector. -/
structure Kids (T : Type) where
  front : List T
  vec : Option (List T) := none
deriving DecidableEq

inductive Kind where
  | seqZip
  | vectorZip
deriving DecidableEq

variable {A : Type}

def VecType.fits : VecType → Obj A → Bool
  | .general, _ => true
  | .string, .atom (.character _) => true
  | .bits, .atom (.integer i) => i = 0 || i = 1
  | _, _ => false

def Obj.listp : Obj A → Bool
  | .list _ => true
  | _ => false

def Obj.vectorp : Obj A → Bool
  | .vector _ _ => true
  | _ => false

/-- The elements of a sequence. -/
def Obj.elements : Obj A → List (Obj A)
  | .atom _ => []
  | .list elements => elements
  | .vector _ elements => elements

def Kind.branch : Kind → Obj A → Bool
  | .seqZip, n => n.listp || n.vectorp
  | .vectorZip, n => n.vectorp

def Kind.children : Kind → Obj A → Kids (Obj A)
  | .seqZip, .vector _ elements => ⟨[], some elements⟩
  | _, n => ⟨n.elements, none⟩

/-- `(coerce children (type-of n))`: the type has the length. -/
def coerceTypeOf (n : Obj A) (children : List (Obj A)) : Option (Obj A) :=
  match n with
  | .vector type elements =>
    if children.length = elements.length ∧ children.all type.fits then some (.vector type children)
    else none
  | _ => none

/-- `none` is an error: `coerce` takes no list that ends in a vector, and `coerceTypeOf` not every
list. -/
def Kind.makeNode (k : Kind) (n : Obj A) (children : Kids (Obj A)) : Option (Obj A) :=
  match children.vec, k with
  | some _, _ => none
  | none, .vectorZip => some (.vector .general children.front)
  | none, .seqZip => if n.listp then some (.list children.front) else coerceTypeOf n children.front

/-! ## §2 Locations -/

/-- `zipper-path`, nil at the root. -/
inductive Path (T : Type) where
  | nil
  | level (l : List T) (pnodes : List T) (ppath : Path T) (r : Kids T) (changed : Bool)

/-- `zipper-loc`. After the last node of a walk the path is `:end`. -/
inductive Loc (T : Type) where
  | at (node : T) (path : Path T)
  | theEnd (node : T)

/-- A value, NIL, or an error. -/
inductive Answer (R : Type) where
  | value (r : R)
  | nil
  | error

namespace Answer

variable {R R' : Type}

/-- Goes on with a value, and with NIL. -/
def onValue : Answer R → (R → Answer R') → Answer R' → Answer R'
  | value r, f, _ => f r
  | nil, _, g => g
  | error, _, _ => error

/-- `or` of two calls. -/
def orElse (a b : Answer R) : Answer R := a.onValue value b

@[simp] theorem onValue_value (r : R) (f : R → Answer R') (g : Answer R') :
    (value r).onValue f g = f r := rfl

@[simp] theorem onValue_nil (f : R → Answer R') (g : Answer R') :
    (nil : Answer R).onValue f g = g := rfl

@[simp] theorem onValue_error (f : R → Answer R') (g : Answer R') :
    (error : Answer R).onValue f g = error := rfl

@[simp] theorem orElse_value (r : R) (b : Answer R) : (value r).orElse b = value r := rfl

@[simp] theorem orElse_nil (b : Answer R) : (nil : Answer R).orElse b = b := rfl

@[simp] theorem orElse_error (b : Answer R) : (error : Answer R).orElse b = error := rfl

end Answer

namespace Path

variable {T : Type}

def depth : Path T → Nat
  | nil => 0
  | level _ _ ppath _ _ => ppath.depth + 1

def rights : Path T → Kids T
  | nil => ⟨[], none⟩
  | level _ _ _ r _ => r

/-- The path with its flag set. -/
def flag : Path T → Path T
  | nil => nil
  | level l pnodes ppath r _ => level l pnodes ppath r true

/-- The nodes above a child of this node. -/
def pnodesBelow (node : T) : Path T → List T
  | nil => [node]
  | level _ pnodes _ _ _ => pnodes ++ [node]

end Path

/-- `seq-zip`, `vector-zip`. -/
def zipper {T : Type} (root : T) : Loc T := .at root .nil

/-! ## §3 Operations -/

section

variable (k : Kind)

/-- An empty vector is not NIL, and has no element 0. -/
def down : Loc (Obj A) → Answer (Loc (Obj A))
  | .at n p =>
    if k.branch n then
      match k.children n with
      | ⟨c :: cs, vec⟩ => .value (.at c (.level [] (p.pnodesBelow n) p ⟨cs, vec⟩ false))
      | ⟨[], none⟩ => .nil
      | ⟨[], some (c :: cs)⟩ => .value (.at c (.level [] (p.pnodesBelow n) p ⟨[], some cs⟩ false))
      | ⟨[], some []⟩ => .error
    else .nil
  | .theEnd n =>
    if k.branch n then
      match k.children n with
      | ⟨[], none⟩ => .nil
      | _ => .error
    else .nil

/-- `path-pnodes` of `:end` is an error. -/
def up : Loc (Obj A) → Answer (Loc (Obj A))
  | .at _ .nil => .nil
  | .at n (.level l pnodes ppath r changed) =>
    match pnodes.getLast? with
    | none => .nil
    | some pnode =>
      if changed then
        match k.makeNode pnode ⟨l.reverse ++ n :: r.front, r.vec⟩ with
        | some m => .value (.at m ppath.flag)
        | none => .error
      else .value (.at pnode ppath)
  | .theEnd _ => .error

/-- The loop of `root`, for the levels of the path. -/
def rootLoop : Nat → Loc (Obj A) → Answer (Obj A)
  | _, .theEnd _ => .error
  | 0, .at n _ => .value n
  | d + 1, .at n p => (up k (.at n p)).onValue (rootLoop d) (.value n)

def root : Loc (Obj A) → Answer (Obj A)
  | .at n p => rootLoop k p.depth (.at n p)
  | .theEnd _ => .error

/-- `car` of a vector is an error. -/
def right : Loc (Obj A) → Answer (Loc (Obj A))
  | .at n (.level l pnodes ppath ⟨x :: r, vec⟩ changed) =>
    .value (.at x (.level (n :: l) pnodes ppath ⟨r, vec⟩ changed))
  | .at _ (.level _ _ _ ⟨[], some _⟩ _) => .error
  | .at _ _ => .nil
  | .theEnd _ => .error

def left : Loc (Obj A) → Answer (Loc (Obj A))
  | .at n (.level (x :: l) pnodes ppath r changed) =>
    .value (.at x (.level l pnodes ppath ⟨n :: r.front, r.vec⟩ changed))
  | .at _ _ => .nil
  | .theEnd _ => .error

def rightLoop : Nat → Loc (Obj A) → Answer (Loc (Obj A))
  | 0, loc => .value loc
  | d + 1, loc => (right loc).onValue (rightLoop d) (.value loc)

def rightmost : Loc (Obj A) → Answer (Loc (Obj A))
  | .at n p => rightLoop (p.rights.front.length + 1) (.at n p)
  | .theEnd _ => .error

def replace (node : Obj A) : Loc (Obj A) → Answer (Loc (Obj A))
  | .at _ p => .value (.at node p.flag)
  | .theEnd _ => .error

def edit (f : Obj A → Obj A) : Loc (Obj A) → Answer (Loc (Obj A))
  | .at n p => replace (f n) (.at n p)
  | .theEnd _ => .error

/-- `insert-left` and `insert-right`; at the top they signal an error. -/
def insertLeft (item : Obj A) : Loc (Obj A) → Answer (Loc (Obj A))
  | .at n (.level l pnodes ppath r _) => .value (.at n (.level (item :: l) pnodes ppath r true))
  | _ => .error

def insertRight (item : Obj A) : Loc (Obj A) → Answer (Loc (Obj A))
  | .at n (.level l pnodes ppath r _) =>
    .value (.at n (.level l pnodes ppath ⟨item :: r.front, r.vec⟩ true))
  | _ => .error

/-- `insert-child`, `append-child`: the node with other children, `none` where these are no list. -/
def withChildren (f : Kids (Obj A) → Option (Kids (Obj A))) : Loc (Obj A) → Answer (Loc (Obj A))
  | .at n p =>
    if k.branch n then
      match (f (k.children n)).bind (k.makeNode n) with
      | some m => replace m (.at n p)
      | none => .error
    else .error
  | .theEnd _ => .error

def insertChild (item : Obj A) : Loc (Obj A) → Answer (Loc (Obj A)) :=
  withChildren k fun cs => some ⟨item :: cs.front, cs.vec⟩

/-- `append` takes a vector only in the last place. -/
def appendChild (item : Obj A) : Loc (Obj A) → Answer (Loc (Obj A)) :=
  withChildren k fun cs =>
    match cs.vec with
    | none => some ⟨cs.front ++ [item], none⟩
    | some _ => none

/-- The loop of `remove` and of `prev`: to the last child, as long as there are children. An error
also when the fuel is too small. -/
def descend : Nat → Loc (Obj A) → Answer (Loc (Obj A))
  | 0, _ => .error
  | d + 1, loc =>
    (down k loc).onValue (fun child => (rightmost child).onValue (descend d) .error) (.value loc)

def remove (fuel : Nat) : Loc (Obj A) → Answer (Loc (Obj A))
  | .at _ (.level (x :: l) pnodes ppath r _) =>
      descend k fuel (.at x (.level l pnodes ppath r true))
  | .at _ (.level [] pnodes ppath r _) =>
    match pnodes.getLast?.bind fun pnode => k.makeNode pnode r with
    | some m => .value (.at m ppath)
    | none => .error
  | _ => .error

/-! ## §4 Traversal -/

/-- The loop of `next`: up to a node that has a right sibling, or to the end. -/
def nextLoop : Nat → Loc (Obj A) → Answer (Loc (Obj A))
  | _, .theEnd _ => .error
  | 0, .at n _ => .value (.theEnd n)
  | d + 1, .at n p =>
    (up k (.at n p)).onValue (fun parent => (right (.at n p)).orElse (nextLoop d parent))
      (.value (.theEnd n))

def next : Loc (Obj A) → Answer (Loc (Obj A))
  | .at n p =>
    (down k (.at n p)).orElse ((right (.at n p)).orElse (nextLoop k p.depth (.at n p)))
  | .theEnd n => .value (.theEnd n)

def prev (fuel : Nat) (loc : Loc (Obj A)) : Answer (Loc (Obj A)) :=
  (left loc).onValue (descend k fuel) (up k loc)

/-- The edits and `next`; the other moves are not made on a walk. -/
def applyOp : Op (Obj A) → Loc (Obj A) → Answer (Loc (Obj A))
  | .next => next k
  | .replace node => replace node
  | .edit f => edit f
  | .insertLeft item => insertLeft item
  | .insertRight item => insertRight item
  | .insertChild item => insertChild k item
  | .appendChild item => appendChild k item
  | .remove fuel => remove k fuel
  | _ => fun _ => .nil

end

/-! ## §5 Lists -/

/-- The trees that a kind of zipper is for. -/
def Kind.trees (k : Kind) : Trees (Obj A) where
  branch := k.branch
  children := Obj.elements
  make n children :=
    match k, n with
    | .seqZip, .vector type _ => .vector type children
    | .seqZip, _ => .list children
    | .vectorZip, _ => .vector .general children

end Fol.Zip.Sequences
