/-
Fol.Transducers.Transducers — the transducer forms of merged-functions.lisp and
transducers.lisp, with `completing`, `transduce` and `into` of seq-functions.lisp.

A reducing function closes over its own variables: it is a record of a state, of what it does
with an input and of what it does on completion. A transducer makes one reducing function
from another; `comp` composes them. `none` is an error: `conj` has no method for a reduced
wrapper.

A vector is the list of its elements. Its iterator answers `:eof` at its end, so that
`collection-seq` of a vector stops at an element `:eof`. What `collection-seq` lists for any
other value is a parameter, and so is `equal`.
-/
import Mathlib.Tactic.TypeStar

namespace Fol.Transducers

/-! ## §1 Values -/

/-- What the functions below use of the values: the two booleans, `truthy?`, `%make-vec`,
`collection-seq`, `equal`, and the keywords they take for sentinels. `filled` is the vector of as
many elements as its argument says; where that is no size, `make` signals an error, and any value
stands for it. -/
structure Values (V : Type) where
  nil : V
  t : V
  truthy : V → Bool
  makeVec : List V → V
  filled : V → V
  collectionSeq : V → List V
  equal : V → V → Bool
  noneYet : V
  eof : V
  initialElement : V
  truthy_nil : truthy nil = false
  truthy_t : truthy t = true
  equal_refl : ∀ x, equal x x = true
  equal_comm : ∀ x y, equal x y = equal y x
  equal_trans : ∀ {x y z}, equal x y = true → equal y z = true → equal x z = true

variable {V : Type}

namespace Values

variable (E : Values V)

/-- `collection-seq` of the vector of these elements: it goes on until the iterator answers
`:eof`. -/
def vectorSeq (elements : List V) : List V := elements.takeWhile fun x => !E.equal x E.eof

/-- `vec` of a buffer, which goes through `(make '<vector> …)`: two arguments of which the first is
`:initial-element` ask for a filled vector. -/
def vec : List V → V
  | [k, y] => if E.equal k E.initialElement then E.filled y else E.makeVec [k, y]
  | xs => E.makeVec xs

/-- The elements are no arguments that ask for a filled vector. -/
def Plain (xs : List V) : Prop := ∀ k y, xs = [k, y] → E.equal k E.initialElement = false

theorem vec_of_plain {xs : List V} (h : E.Plain xs) : E.vec xs = E.makeVec xs := by
  unfold vec
  split
  next k y => rw [h k y rfl, if_neg Bool.false_ne_true]
  next => rfl

/-- `contains?` of a set, and `gethash` in a table, that hold these elements. -/
def contains (seen : List V) (x : V) : Bool := seen.any fun y => E.equal y x

def complement (pred : V → V) (x : V) : V := if E.truthy (pred x) then E.nil else E.t

end Values

/-! ## §2 Reducing -/

/-- An accumulator: the vector of the elements conjoined so far, or a `reduced` wrapper. -/
inductive Acc (V : Type) where
  | val (elements : List V)
  | reduced (elements : List V)
deriving DecidableEq

namespace Acc

def isReduced : Acc V → Bool
  | val _ => false
  | reduced _ => true

def unreduced : Acc V → Acc V
  | val xs => val xs
  | reduced xs => val xs

def ensureReduced : Acc V → Acc V
  | val xs => reduced xs
  | reduced xs => reduced xs

end Acc

/-- A reducing function: its variables, and its answers to an accumulator and an input and to
an accumulator alone. -/
structure RF (V : Type) where
  State : Type
  init : State
  step : State → Acc V → V → Option (State × Acc V)
  complete : State → Acc V → Option (Acc V)

def completing (f : Acc V → V → Option (Acc V)) : RF V where
  State := Unit
  init := ()
  step _ acc input := (f acc input).map fun res => ((), res)
  complete _ acc := some acc

/-- The loop of `transduce`. -/
def transduceLoop (rf : RF V) : rf.State → Acc V → List V → Option (Acc V)
  | s, acc, [] => rf.complete s acc
  | s, acc, x :: xs =>
    match rf.step s acc x with
    | none => none
    | some (s', res) => if res.isReduced then some res.unreduced else transduceLoop rf s' res xs

def transduce (E : Values V) (xform : RF V → RF V) (f : Acc V → V → Option (Acc V)) (init : Acc V)
    (coll : List V) : Option (Acc V) :=
  let rf := xform (completing f)
  transduceLoop rf rf.init init (E.vectorSeq coll)

def conj : Acc V → V → Option (Acc V)
  | .val xs, x => some (.val (xs ++ [x]))
  | .reduced _, _ => none

def into (E : Values V) («to» : List V) (xform : RF V → RF V) (coll : List V) : Option (Acc V) :=
  transduce E xform conj (.val «to») coll

def comp {α : Type 1} : List (α → α) → α → α
  | [] => id
  | [f] => f
  | f :: g :: fs => f ∘ comp (g :: fs)

/-- The loop of `mapcat` and of `cat`: `rf` gets the items until it answers with a reduced
accumulator. -/
def feed (rf : RF V) : rf.State → Acc V → List V → Option (rf.State × Acc V)
  | s, acc, [] => some (s, acc)
  | s, acc, item :: items =>
    match rf.step s acc item with
    | none => none
    | some (s', res) => if res.isReduced then some (s', res) else feed rf s' res items

/-! ## §3 Passing on -/

section

variable (E : Values V)

def map (fn : V → V) (rf : RF V) : RF V where
  State := rf.State
  init := rf.init
  step s acc input := rf.step s acc (fn input)
  complete s acc := rf.complete s acc

def mapcat (fn : V → V) (rf : RF V) : RF V where
  State := rf.State
  init := rf.init
  step s acc input := feed rf s acc (E.collectionSeq (fn input))
  complete s acc := rf.complete s acc

def cat (rf : RF V) : RF V where
  State := rf.State
  init := rf.init
  step s acc input := feed rf s acc (E.collectionSeq input)
  complete s acc := rf.complete s acc

def filter (pred : V → V) (rf : RF V) : RF V where
  State := rf.State
  init := rf.init
  step s acc input := if E.truthy (pred input) then rf.step s acc input else some (s, acc)
  complete s acc := rf.complete s acc

def remove (pred : V → V) : RF V → RF V := filter E (E.complement pred)

def keep (fn : V → V) (rf : RF V) : RF V where
  State := rf.State
  init := rf.init
  step s acc input :=
    let result := fn input
    if E.truthy result then rf.step s acc result else some (s, acc)
  complete s acc := rf.complete s acc

def takeWhile (pred : V → V) (rf : RF V) : RF V where
  State := rf.State
  init := rf.init
  step s acc input :=
    if E.truthy (pred input) then rf.step s acc input else some (s, acc.ensureReduced)
  complete s acc := rf.complete s acc

end

/-! ## §4 Counting -/

section

variable (E : Values V)

def take (n : Nat) (rf : RF V) : RF V where
  State := Nat × rf.State
  init := (0, rf.init)
  step p acc input :=
    if p.1 < n then
      (rf.step p.2 acc input).map fun q =>
        let counter := p.1 + 1
        ((counter, q.1), if counter ≥ n then q.2.ensureReduced else q.2)
    else some (p, acc.ensureReduced)
  complete p acc := rf.complete p.2 acc

def drop (n : Nat) (rf : RF V) : RF V where
  State := Nat × rf.State
  init := (0, rf.init)
  step p acc input :=
    if p.1 < n then some ((p.1 + 1, p.2), acc)
    else (rf.step p.2 acc input).map fun q => ((p.1, q.1), q.2)
  complete p acc := rf.complete p.2 acc

def mapIndexed (fn : Int → V → V) (rf : RF V) : RF V where
  State := Int × rf.State
  init := (-1, rf.init)
  step p acc input :=
    let idx := p.1 + 1
    (rf.step p.2 acc (fn idx input)).map fun q => ((idx, q.1), q.2)
  complete p acc := rf.complete p.2 acc

def keepIndexed (fn : Int → V → V) (rf : RF V) : RF V where
  State := Int × rf.State
  init := (-1, rf.init)
  step p acc input :=
    let idx := p.1 + 1
    let result := fn idx input
    if E.truthy result then (rf.step p.2 acc result).map fun q => ((idx, q.1), q.2)
    else some ((idx, p.2), acc)
  complete p acc := rf.complete p.2 acc

def takeNth (n : Nat) (rf : RF V) : RF V where
  State := Int × rf.State
  init := (-1, rf.init)
  step p acc input :=
    let counter := p.1 + 1
    if counter % n = 0 then (rf.step p.2 acc input).map fun q => ((counter, q.1), q.2)
    else some ((counter, p.2), acc)
  complete p acc := rf.complete p.2 acc

end

/-! ## §5 Remembering -/

section

variable (E : Values V)

/-- The first variable is `dropping`. -/
def dropWhile (pred : V → V) (rf : RF V) : RF V where
  State := Bool × rf.State
  init := (true, rf.init)
  step p acc input :=
    if p.1 then
      if E.truthy (pred input) then some (p, acc)
      else (rf.step p.2 acc input).map fun q => ((false, q.1), q.2)
    else (rf.step p.2 acc input).map fun q => ((false, q.1), q.2)
  complete p acc := rf.complete p.2 acc

/-- The first variable is `seen`. -/
def distinct (rf : RF V) : RF V where
  State := List V × rf.State
  init := ([], rf.init)
  step p acc input :=
    if E.contains p.1 input then some (p, acc)
    else (rf.step p.2 acc input).map fun q => ((p.1 ++ [input], q.1), q.2)
  complete p acc := rf.complete p.2 acc

/-- The first variable is `prior`. -/
def dedupe (rf : RF V) : RF V where
  State := V × rf.State
  init := (E.noneYet, rf.init)
  step p acc input :=
    if E.equal p.1 input then some (p, acc)
    else (rf.step p.2 acc input).map fun q => ((input, q.1), q.2)
  complete p acc := rf.complete p.2 acc

/-- The first variable is `started`. -/
def interpose (sep : V) (rf : RF V) : RF V where
  State := Bool × rf.State
  init := (false, rf.init)
  step p acc input :=
    if p.1 then
      match rf.step p.2 acc sep with
      | none => none
      | some (s, result) =>
        if result.isReduced then some ((true, s), result)
        else (rf.step s result input).map fun q => ((true, q.1), q.2)
    else (rf.step p.2 acc input).map fun q => ((true, q.1), q.2)
  complete p acc := rf.complete p.2 acc

end

/-! ## §6 Buffering -/

section

variable (E : Values V)

/-- On completion a buffer that holds something is passed on, and `rf` is completed with its
answer, whatever it is. -/
def completeBuffer (rf : RF V) (buffer : List V) (s : rf.State) (acc : Acc V) : Option (Acc V) :=
  if buffer.length > 0 then
    match rf.step s acc (E.vec buffer) with
    | none => none
    | some (s', result) => rf.complete s' result
  else rf.complete s acc

/-- The first variable is `buffer`. -/
def partitionAll (n : Nat) (rf : RF V) : RF V where
  State := List V × rf.State
  init := ([], rf.init)
  step p acc input :=
    let buffer := p.1 ++ [input]
    if buffer.length = n then (rf.step p.2 acc (E.vec buffer)).map fun q => (([], q.1), q.2)
    else some ((buffer, p.2), acc)
  complete p acc := completeBuffer E rf p.1 p.2 acc

/-- The first variables are `buffer` and `prior`. `prior` is compared with `:none-yet` before
the key is compared with it. -/
def partitionBy (fn : V → V) (rf : RF V) : RF V where
  State := (List V × V) × rf.State
  init := (([], E.noneYet), rf.init)
  step p acc input :=
    let key := fn input
    if E.equal p.1.2 E.noneYet then some (((p.1.1 ++ [input], key), p.2), acc)
    else if E.equal key p.1.2 then some (((p.1.1 ++ [input], p.1.2), p.2), acc)
    else (rf.step p.2 acc (E.vec p.1.1)).map fun q => ((([input], key), q.1), q.2)
  complete p acc := completeBuffer E rf p.1.1 p.2 acc

end

end Fol.Transducers
