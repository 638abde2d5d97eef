/-
Fol.Collections.LazySeq — `<list>` and `<lazy-seq>` of collections.lisp, and the two ways
the collections make a lazy sequence out of an iterator.

A `<list>` node caches a size that whoever makes the node passes to it. The thunk of a
`<lazy-seq>` is called once, when the sequence is realized, and the thunks of one chain call
one iterator in turn: no node can be reached before the nodes in front of it. So a chain is
here the answers of its iterator laid out as nodes. The iterators answer `:eof` at their end,
and an element `:eof` is taken for that.
-/
import Mathlib.Data.List.Basic

namespace Fol.Collections

variable {V β : Type}

/-! ## §1 Sequences -/

/-- NIL, a `<list>` without elements, a node of a `<list>`, or a `<lazy-seq>` with what its
thunk answers. `error` stands in the place of an answer where the thunk signals an error. -/
inductive Seq (V : Type) where
  | null
  | empty
  | node (first : V) (rest : Seq V) (listSize : Nat)
  | lazySeq (thunk : Seq V)
  | error

/-- `(make '<list> …)`. -/
def makeList : List V → Seq V
  | [] => .empty
  | x :: xs => .node x (makeList xs) (xs.length + 1)

/-- `realize-lazy-seq`. -/
def realize : Seq V → Seq V
  | .lazySeq thunk => realize thunk
  | s => s

/-- `collection-size`; `none` is an error. -/
def collectionSize (s : Seq V) : Option Nat :=
  match s with
  | .null => none
  | .empty => some 0
  | .node _ _ n => some n
  | .lazySeq thunk =>
    match realize thunk with
    | .null => some 0
    | .empty => some 0
    | .node _ _ n => some n
    | _ => none
  | .error => none

/-- `collection-seq`; `none` is an error. The walk ends at a node of size zero. -/
def collectionSeq : Seq V → Option (List V)
  | .null => some []
  | .empty => some []
  | .node x rest n => if n = 0 then some [] else (collectionSeq rest).map (x :: ·)
  | .lazySeq thunk => collectionSeq thunk
  | .error => none

/-- `collection-conj`. -/
def collectionConj (s : Seq V) (x : V) : Seq V :=
  match s with
  | .null => .error
  | .empty => .node x .empty 1
  | .node y rest n => .node x (.node y rest n) (n + 1)
  | .lazySeq thunk =>
    match realize thunk with
    | .null => .node x .empty 1
    | .empty => .node x .empty 1
    | .node y rest n => .node x (.node y rest n) (n + 1)
    | _ => .error
  | .error => .error

theorem collectionSeq_realize (s : Seq V) : collectionSeq (realize s) = collectionSeq s := by
  induction s with
  | lazySeq thunk ih => exact ih
  | _ => rfl

theorem realize_ne_lazySeq (s thunk : Seq V) : realize s ≠ .lazySeq thunk := by
  induction s with
  | lazySeq t ih => exact ih
  | _ => simp [realize]

theorem collectionSeq_makeList (xs : List V) : collectionSeq (makeList xs) = some xs := by
  induction xs with
  | nil => rfl
  | cons x xs ih => simp [makeList, collectionSeq, ih]

/-! ## §2 Iterators -/

/-- The answers of an iterator to its calls, up to the call from which on it answers
`:eof`. `none` is an error. -/
abbrev Answers (V : Type) := List (Option V)

section Iterators

variable [DecidableEq V] (eof : V)

/-- `(loop for val = (funcall iter) until (eq val :eof) do …)` with an accumulator. -/
def loopAnswers (step : β → V → β) (acc : β) : Answers V → Option β
  | [] => some acc
  | none :: _ => none
  | some val :: rest => if val = eof then some acc else loopAnswers step (step acc val) rest

/-- A loop over answers without an error folds the elements in front of `:eof`. -/
theorem loopAnswers_map_some (step : β → V → β) (acc : β) (xs : List V) :
    loopAnswers eof step acc (xs.map some) = some ((xs.takeWhile (· ≠ eof)).foldl step acc) := by
  induction xs generalizing acc with
  | nil => rfl
  | cons x xs ih =>
    by_cases hx : x = eof
    · simp [loopAnswers, hx]
    · simp [loopAnswers, hx, ih]

/-! ## §3 Chains -/

/-- `lazy-cons`, when the rest is what the form for it answers. -/
def lazyCons (x : V) (rest : Seq V) : Seq V :=
  .lazySeq (match rest with
    | .error => .error
    | rest => .node x rest 1)

/-- The `build-seq` of `pvec->lazy-seq` and of the lazy sequence of a `<set>`: the iterator is
called before the node is made. -/
def buildSeq : Answers V → Seq V
  | [] => .null
  | none :: _ => .error
  | some val :: rest => if val = eof then .null else lazyCons val (buildSeq rest)

/-- The `build-lazy-chain` of `vec->lazy-seq`, `hamt->lazy-seq` and of a `<deque>`: the
iterator is called when the node is realized. The size of a node is computed from the number
of nodes that remain. -/
def buildLazyChain (listSize : Nat → Nat) : Nat → Answers V → Seq V
  | 0, _ => .null
  | _ + 1, [] => .lazySeq .null
  | _ + 1, none :: _ => .lazySeq .error
  | remaining + 1, some val :: rest =>
    .lazySeq (if val = eof then .null
      else .node val (buildLazyChain listSize remaining rest) (listSize (remaining + 1)))

omit [DecidableEq V] in
theorem collectionSeq_lazyCons (x : V) (rest : Seq V) :
    collectionSeq (lazyCons x rest) = (collectionSeq rest).map (x :: ·) := by
  cases rest <;> simp [lazyCons, collectionSeq]

/-- Forcing a chain that calls ahead gives what the eager loop gives. -/
theorem collectionSeq_buildSeq (answers : Answers V) :
    collectionSeq (buildSeq eof answers) =
      (loopAnswers eof (fun acc x => x :: acc) [] answers).map List.reverse := by
  have hloop : ∀ (answers : Answers V) (acc : List V),
      (loopAnswers eof (fun acc x => x :: acc) acc answers).map List.reverse =
        (collectionSeq (buildSeq eof answers)).map (acc.reverse ++ ·) := by
    intro answers
    induction answers with
    | nil => simp [loopAnswers, buildSeq, collectionSeq]
    | cons answer rest ih =>
      intro acc
      cases answer with
      | none => simp [loopAnswers, buildSeq, collectionSeq]
      | some val =>
        by_cases hval : val = eof
        · simp [loopAnswers, buildSeq, collectionSeq, hval]
        · simp [loopAnswers, buildSeq, hval, collectionSeq_lazyCons, ih, Function.comp_def]
  rw [hloop answers []]
  simp

/-- The elements of a chain of nodes that are realized one by one. -/
theorem collectionSeq_buildLazyChain {listSize : Nat → Nat} (hsize : ∀ n, listSize (n + 1) ≠ 0)
    (xs : List V) :
    collectionSeq (buildLazyChain eof listSize xs.length (xs.map some)) =
      some (xs.takeWhile (· ≠ eof)) := by
  induction xs with
  | nil => rfl
  | cons x xs ih =>
    by_cases hx : x = eof
    · simp [buildLazyChain, collectionSeq, hx]
    · simp [buildLazyChain, collectionSeq, hx, hsize, ih]

end Iterators

end Fol.Collections
