/-
Fol.SortedDict.Iterator — `btree-iterator` of `collection-primitives.lisp`: a stack of
nodes, each with the index it goes on at.

A call pops and pushes until a leaf has a key left. What the calls return, one after the
other, are the entries of the tree from left to right.
-/
import Fol.SortedDict.Invariant

namespace Fol.SortedDict

variable {κ ν : Type}

/-! ## §1 Iterator -/

/-- The conses `(node . idx)` an iterator keeps, the top first. -/
abbrev Stack (κ ν : Type) := List (BTree κ ν × Nat)

/-- The stack of a fresh iterator. -/
def iteratorStart (root : Option (BTree κ ν)) : Stack κ ν := (root.map (·, 0)).toList

mutual

/-- Steps an iterator takes in a node: its keys or children, and the pop. -/
def BTree.steps : BTree κ ν → Nat
  | .leaf keys _ => keys.length + 1
  | .node _ children => stepsList children + 1

def stepsList : List (BTree κ ν) → Nat
  | [] => 0
  | c :: cs => c.steps + 1 + stepsList cs

end

/-- Steps left for an entry of the stack. -/
def frameSteps : BTree κ ν × Nat → Nat
  | (.leaf keys _, idx) => keys.length - idx + 1
  | (.node _ children, idx) => stepsList (children.drop idx) + 1

def stackSteps (stack : Stack κ ν) : Nat := (stack.map frameSteps).foldr (· + ·) 0

@[simp] theorem stackSteps_cons (f : BTree κ ν × Nat) (stack : Stack κ ν) :
    stackSteps (f :: stack) = frameSteps f + stackSteps stack := rfl

@[simp] theorem frameSteps_leaf (keys : List κ) (vals : List ν) (idx : Nat) :
    frameSteps (.leaf keys vals, idx) = keys.length - idx + 1 := rfl

@[simp] theorem frameSteps_node (keys : List κ) (children : List (BTree κ ν)) (idx : Nat) :
    frameSteps (.node keys children, idx) = stepsList (children.drop idx) + 1 := rfl

@[simp] theorem frameSteps_zero (t : BTree κ ν) : frameSteps (t, 0) = t.steps := by
  cases t with
  | leaf keys vals => simp [frameSteps, BTree.steps]
  | node keys children => simp [frameSteps, BTree.steps]

theorem stepsList_drop {children : List (BTree κ ν)} {idx : Nat} {c : BTree κ ν}
    (h : children[idx]? = some c) :
    stepsList (children.drop idx) = c.steps + 1 + stepsList (children.drop (idx + 1)) := by
  obtain ⟨hlt, rfl⟩ := List.getElem?_eq_some_iff.mp h
  rw [List.drop_eq_getElem_cons hlt, stepsList]

/-- One call of the iterator: the next key and value and the stack after it, or `none`
for `:eof`. -/
def iteratorNext (stack : Stack κ ν) : Option ((κ × ν) × Stack κ ν) :=
  match stack with
  | [] => none
  | (.leaf keys vals, idx) :: rest =>
    match keys[idx]?, vals[idx]? with
    | some key, some val => some ((key, val), (.leaf keys vals, idx + 1) :: rest)
    | _, _ => iteratorNext rest
  | (.node keys children, idx) :: rest =>
    match h : children[idx]? with
    | some c => iteratorNext ((c, 0) :: (.node keys children, idx + 1) :: rest)
    | none => iteratorNext rest
termination_by stackSteps stack
decreasing_by
  · simp
  · simp [stepsList_drop h]; omega
  · simp

theorem stackSteps_iteratorNext {stack stack' : Stack κ ν} {e : κ × ν}
    (h : iteratorNext stack = some (e, stack')) : stackSteps stack' < stackSteps stack := by
  fun_induction iteratorNext stack with
  | case1 => cases h
  | case2 keys vals idx rest key val hval hkey =>
    cases h
    obtain ⟨hlt, -⟩ := List.getElem?_eq_some_iff.mp hkey
    simp only [stackSteps_cons, frameSteps_leaf]
    omega
  | case3 keys vals idx rest hnone ih =>
    have := ih h
    simp only [stackSteps_cons, frameSteps_leaf]
    omega
  | case4 keys children idx rest c hc ih =>
    have := ih h
    simp only [stackSteps_cons, frameSteps_zero, frameSteps_node, stepsList_drop hc] at this ⊢
    omega
  | case5 keys children idx rest hnone ih =>
    have := ih h
    simp only [stackSteps_cons, frameSteps_node]
    omega

/-- The loop that calls the iterator until `:eof`. -/
def iteratorItems (stack : Stack κ ν) : List (κ × ν) :=
  match _h : iteratorNext stack with
  | none => []
  | some (e, stack') => e :: iteratorItems stack'
termination_by stackSteps stack
decreasing_by exact stackSteps_iteratorNext _h

/-! ## §2 Items -/

/-- The entries a stack is still to return. -/
def frameEntries : BTree κ ν × Nat → List (κ × ν)
  | (.leaf keys vals, idx) => (keys.zip vals).drop idx
  | (.node _ children, idx) => entriesList (children.drop idx)

def stackEntries (stack : Stack κ ν) : List (κ × ν) := stack.flatMap frameEntries

@[simp] theorem stackEntries_cons (f : BTree κ ν × Nat) (stack : Stack κ ν) :
    stackEntries (f :: stack) = frameEntries f ++ stackEntries stack := rfl

@[simp] theorem frameEntries_zero (t : BTree κ ν) : frameEntries (t, 0) = t.entries := by
  cases t with
  | leaf keys vals => simp [frameEntries]
  | node keys children => simp [frameEntries]

theorem frameEntries_leaf {keys : List κ} {vals : List ν} {idx : Nat} {key : κ} {val : ν}
    (hkey : keys[idx]? = some key) (hval : vals[idx]? = some val) :
    frameEntries (.leaf keys vals, idx) = (key, val) :: frameEntries (.leaf keys vals,
      idx + 1) := by
  have hzip : (keys.zip vals)[idx]? = some (key, val) := by
    rw [List.getElem?_zip_eq_some]
    exact ⟨hkey, hval⟩
  obtain ⟨hlt, hget⟩ := List.getElem?_eq_some_iff.mp hzip
  rw [frameEntries, List.drop_eq_getElem_cons hlt, hget, frameEntries]

theorem frameEntries_node {keys : List κ} {children : List (BTree κ ν)} {idx : Nat} {c : BTree κ ν}
    (h : children[idx]? = some c) :
    frameEntries (.node keys children, idx) =
      c.entries ++ frameEntries (.node keys children, idx + 1) := by
  obtain ⟨hlt, rfl⟩ := List.getElem?_eq_some_iff.mp h
  rw [frameEntries, List.drop_eq_getElem_cons hlt, entriesList_cons, frameEntries]

/-- A call returns the first of the entries left, and leaves the others. -/
theorem iteratorNext_eq (stack : Stack κ ν) :
    (iteratorNext stack).elim (stackEntries stack = []) fun r =>
      stackEntries stack = r.1 :: stackEntries r.2 := by
  fun_induction iteratorNext stack with
  | case1 => rfl
  | case2 keys vals idx rest key val hval hkey =>
    rw [Option.elim_some, stackEntries_cons, frameEntries_leaf hkey hval]
    rfl
  | case3 keys vals idx rest hnone ih =>
    have hdrop : frameEntries (.leaf keys vals, idx) = [] := by
      rw [frameEntries, List.drop_eq_nil_iff, List.length_zip]
      by_contra hlt
      exact hnone keys[idx] vals[idx] (by simp) (by simp)
    rw [stackEntries_cons, hdrop]
    exact ih
  | case4 keys children idx rest c hc ih =>
    rw [stackEntries_cons, frameEntries_node hc, List.append_assoc]
    rw [stackEntries_cons, frameEntries_zero, stackEntries_cons] at ih
    exact ih
  | case5 keys children idx rest hnone ih =>
    have hdrop : frameEntries (.node keys children, idx) = [] := by
      rw [frameEntries, List.drop_eq_nil_iff.mpr (List.getElem?_eq_none_iff.mp hnone)]
      rfl
    rw [stackEntries_cons, hdrop]
    exact ih

theorem iteratorItems_eq_stackEntries (stack : Stack κ ν) :
    iteratorItems stack = stackEntries stack := by
  have hnext := iteratorNext_eq stack
  fun_induction iteratorItems stack with
  | case1 stack h =>
    rw [h] at hnext
    exact hnext.symm
  | case2 stack e stack' h ih =>
    rw [h] at hnext
    rw [ih (iteratorNext_eq stack')]
    exact hnext.symm

theorem stackEntries_iteratorStart (root : Option (BTree κ ν)) :
    stackEntries (iteratorStart root) = rootEntries root := by
  cases root with
  | none => rfl
  | some t => simp [iteratorStart, stackEntries, rootEntries]

/-- An iterator over a tree returns its entries. -/
theorem iteratorItems_eq_entries (root : Option (BTree κ ν)) :
    iteratorItems (iteratorStart root) = rootEntries root := by
  rw [iteratorItems_eq_stackEntries, stackEntries_iteratorStart]

/-- The first call of an iterator over a tree returns its first entry. -/
theorem iteratorNext_iteratorStart (root : Option (BTree κ ν)) :
    (iteratorNext (iteratorStart root)).map (·.1) = (rootEntries root).head? := by
  have hnext := iteratorNext_eq (iteratorStart root)
  rw [stackEntries_iteratorStart] at hnext
  cases h : iteratorNext (iteratorStart root) with
  | none =>
    rw [h] at hnext
    rw [show rootEntries root = [] from hnext]
    rfl
  | some r =>
    rw [h, Option.elim_some] at hnext
    rw [hnext]
    rfl

end Fol.SortedDict
