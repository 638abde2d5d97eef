/-
Fol.Zip.Walks — what `next` visits, what `prev` undoes, and `root` at the end.

A walk through a node visits what is below it and goes on where `next` goes from a leaf in its
place (`leave`). It fails at the first vector or string that `seq-zip` meets: at once where that is
empty, else after its first element.
-/
import Fol.Zip.Sequences
import Mathlib.Data.List.Chain

namespace Fol.Zip.Sequences

open Fol.Lib

variable {A : Type}

/-! ## §1 Statement -/

mutual

/-- The node, and then what is below it, child by child. -/
def preorder (k : Kind) : Obj A → List (Obj A)
  | .atom a => [.atom a]
  | .list elements =>
    .list elements :: match k with
      | .seqZip => preorderAll k elements
      | .vectorZip => []
  | .vector type elements => .vector type elements :: preorderAll k elements

def preorderAll (k : Kind) : List (Obj A) → List (Obj A)
  | [] => []
  | n :: ns => preorder k n ++ preorderAll k ns

end

mutual

def Obj.height : Obj A → Nat
  | .atom _ => 0
  | .list elements => heightAll elements + 1
  | .vector _ elements => heightAll elements + 1

def heightAll : List (Obj A) → Nat
  | [] => 0
  | n :: ns => max n.height (heightAll ns)

end

mutual

/-- No vector and no string, at any depth. -/
def Obj.onlyLists : Obj A → Bool
  | .atom _ => true
  | .list elements => onlyListsAll elements
  | .vector _ _ => false

def onlyListsAll : List (Obj A) → Bool
  | [] => true
  | n :: ns => n.onlyLists && onlyListsAll ns

end

def Loc.node {T : Type} : Loc T → T
  | .at n _ => n
  | .theEnd n => n

/-- `end?`. -/
def Loc.endP {T : Type} : Loc T → Bool
  | .at _ _ => false
  | .theEnd _ => true

section

variable (k : Kind) (t : Obj A)

/-- `next`, again and again from the root, visits every node in order and comes to the end. -/
def Enumerates : Prop :=
  ∃ locs : List (Loc (Obj A)), locs.head? = some (zipper t) ∧ (∀ loc ∈ locs, loc.endP = false) ∧
    locs.IsChain (fun a b => next k a = .value b) ∧ locs.map Loc.node = preorder k t ∧
    ∃ last n, locs.getLast? = some last ∧ next k last = .value (.theEnd n)

/-- The locations that `next` comes to. -/
inductive Visited : Loc (Obj A) → Prop where
  | root : Visited (zipper t)
  | next {a b} : Visited a → next k a = .value b → Visited b

/-- `prev` undoes `next` where that has not come to the end. -/
def PrevUndoes : Prop :=
  ∀ a b, Visited k t a → next k a = .value b → b.endP = false →
    ∀ fuel, t.height < fuel → prev k fuel b = .value a

/-- `next` and the edits. -/
def onTheWay : Op (Obj A) → Bool
  | .next => true
  | .replace _ => true
  | .edit _ => true
  | .insertLeft _ => true
  | .insertRight _ => true
  | .insertChild _ => true
  | .appendChild _ => true
  | .remove _ => true
  | _ => false

/-- A walk with edits on the way, and the tree with the same edits. -/
inductive Edited : Loc (Obj A) → Cursor (Obj A) → Prop where
  | root : Edited (zipper t) ⟨t, some []⟩
  | step {loc loc' c c' op} : Edited loc c → onTheWay op = true → applyOp k op loc = .value loc' →
    op.direct k.trees c = some c' → Edited loc' c'

/-- `root` at the end gives the edited tree. -/
def RootAtEnd : Prop := ∀ n c, Edited k t (.theEnd n) c → root k (.theEnd n) = .value c.tree

structure Traverses : Prop where
  enumerates : Enumerates k t
  prevUndoes : PrevUndoes k t
  rootAtEnd : RootAtEnd k t

end

/-! ## §2 Leaving -/

/-- Nothing on this path has been changed. -/
def Path.Fresh {T : Type} : Path T → Prop
  | .nil => True
  | .level _ pnodes ppath _ changed => changed = false ∧ pnodes ≠ [] ∧ ppath.Fresh

/-- Where `next` goes from a leaf in this place. -/
def leave (k : Kind) (n : Obj A) (p : Path (Obj A)) : Answer (Loc (Obj A)) :=
  (right (.at n p)).orElse (nextLoop k p.depth (.at n p))

section Leaving

variable {k : Kind} {n x : Obj A} {p ppath : Path (Obj A)} {l pnodes : List (Obj A)}
    {r : Kids (Obj A)}

@[simp] theorem right_last (changed : Bool) :
    right (.at x (.level l pnodes ppath ⟨[], none⟩ changed)) = .nil := rfl

theorem right_cons (y : Obj A) (ys : List (Obj A)) (vec : Option (List (Obj A))) (changed : Bool) :
    right (.at x (.level l pnodes ppath ⟨y :: ys, vec⟩ changed)) =
      .value (.at y (.level (x :: l) pnodes ppath ⟨ys, vec⟩ changed)) := rfl

theorem next_eq_leave (hdown : down k (.at n p) = .nil) : next k (.at n p) = leave k n p := by
  rw [next, hdown, Answer.orElse_nil, leave]

theorem up_fresh (hlast : pnodes.getLast? = some n) :
    up k (.at x (.level l pnodes ppath r false)) = .value (.at n ppath) := by
  simp [up, hlast]

/-- On a path without changes the loop of `next` sees its first location twice. -/
theorem nextLoop_fresh (hp : p.Fresh) : nextLoop k p.depth (.at n p) = leave k n p := by
  cases p with
  | nil => rfl
  | level l pnodes ppath r changed =>
    obtain ⟨rfl, hne, -⟩ := hp
    have hlast := List.getLast?_eq_some_getLast hne
    rw [leave, Path.depth, nextLoop, up_fresh hlast, Answer.onValue_value]
    cases right (.at n (.level l pnodes ppath r false)) <;> rfl

/-- From the last sibling the walk goes on where it goes from the parent. -/
theorem leave_last (hp : ppath.Fresh) (hlast : pnodes.getLast? = some n) :
    leave k x (.level l pnodes ppath ⟨[], none⟩ false) = leave k n ppath := by
  rw [leave, right_last, Answer.orElse_nil, Path.depth, nextLoop, up_fresh hlast,
    Answer.onValue_value, right_last, Answer.orElse_nil, nextLoop_fresh hp]

theorem leave_next (y : Obj A) (ys : List (Obj A)) (vec : Option (List (Obj A))) :
    leave k x (.level l pnodes ppath ⟨y :: ys, vec⟩ false) =
      .value (.at y (.level (x :: l) pnodes ppath ⟨ys, vec⟩ false)) := by
  rw [leave, right, Answer.orElse_value]

theorem leave_vec (vec : List (Obj A)) :
    leave k x (.level l pnodes ppath ⟨[], some vec⟩ false) = .error := by
  rw [leave, right, Answer.orElse_error]

@[simp] theorem getLast?_pnodesBelow (n : Obj A) (p : Path (Obj A)) :
    (p.pnodesBelow n).getLast? = some n := by
  cases p <;> simp [Path.pnodesBelow]

theorem fresh_level (hlast : pnodes.getLast? = some n) (hp : ppath.Fresh) :
    (Path.level l pnodes ppath r false).Fresh := by
  refine ⟨rfl, ?_, hp⟩
  rintro rfl
  cases hlast

end Leaving

/-! ## §3 Walks -/

/-- `next` goes from one to the other, and `prev` back. -/
structure Step (k : Kind) (fuel : Nat) (a b : Loc (Obj A)) : Prop where
  next : next k a = .value b
  prev : prev k fuel b = .value a

/-- A walk from one location to another, over locations that are not the end. -/
structure Walk (k : Kind) (fuel : Nat) (locs : List (Loc (Obj A))) (a last : Loc (Obj A)) :
    Prop where
  head : locs.head? = some a
  last : locs.getLast? = some last
  inside : ∀ loc ∈ locs, loc.endP = false
  chain : locs.IsChain (Step k fuel)

section Walks

variable {k : Kind} {fuel : Nat} {a b last last' : Loc (Obj A)} {locs locs' : List (Loc (Obj A))}

theorem Walk.single (n : Obj A) (p : Path (Obj A)) : Walk k fuel [.at n p] (.at n p) (.at n p) where
  head := rfl
  last := rfl
  inside := by simp [Loc.endP]
  chain := .singleton _

theorem Walk.append (h : Walk k fuel locs a last) (h' : Walk k fuel locs' b last')
    (hstep : Step k fuel last b) : Walk k fuel (locs ++ locs') a last' where
  head := by simp [List.head?_append, h.head]
  last := by simp [List.getLast?_append, h'.last]
  inside := by
    intro loc hloc
    exact (List.mem_append.mp hloc).elim (h.inside loc) (h'.inside loc)
  chain := by
    refine List.isChain_append.mpr ⟨h.chain, h'.chain, fun x hx y hy => ?_⟩
    rw [h.last] at hx
    rw [h'.head] at hy
    cases hx
    cases hy
    exact hstep

end Walks

/-- Into the first child and back. -/
theorem step_down {k : Kind} {fuel : Nat} {n c : Obj A} {p : Path (Obj A)} {r : Kids (Obj A)}
    (hdown : down k (.at n p) = .value (.at c (.level [] (p.pnodesBelow n) p r false))) :
    Step k fuel (.at n p) (.at c (.level [] (p.pnodesBelow n) p r false)) where
  next := by rw [next, hdown, Answer.orElse_value]
  prev := by rw [prev, left, Answer.onValue_nil, up_fresh (getLast?_pnodesBelow n p)]; simp

/-- To the next sibling, and back to the last node below the one before it. -/
theorem step_sibling {k : Kind} {fuel : Nat} {x y : Obj A} {l pnodes ys : List (Obj A)}
    {ppath : Path (Obj A)} {vec : Option (List (Obj A))} {last : Loc (Obj A)}
    (hnext : next k last = leave k x (.level l pnodes ppath ⟨y :: ys, vec⟩ false))
    (hdescend : descend k fuel (.at x (.level l pnodes ppath ⟨y :: ys, vec⟩ false)) = .value last) :
    Step k fuel last (.at y (.level (x :: l) pnodes ppath ⟨ys, vec⟩ false)) where
  next := by rw [hnext, leave_next]
  prev := by rw [prev, left, Answer.onValue_value, hdescend]

/-- `seq-zip` walks through lists, `vector-zip` through everything. -/
def Walkable (k : Kind) (n : Obj A) : Prop := k = .vectorZip ∨ n.onlyLists = true

def WalkableAll (k : Kind) (ns : List (Obj A)) : Prop := k = .vectorZip ∨ onlyListsAll ns = true

/-- The walk through a node goes on where it goes from a leaf, and its last location is where the
way down the last children ends. -/
def Through (k : Kind) (fuel : Nat) (n : Obj A) (p : Path (Obj A)) : Prop :=
  ∃ locs last, Walk k fuel locs (.at n p) last ∧ locs.map Loc.node = preorder k n ∧
    next k last = leave k n p ∧ ∀ d, n.height < d → descend k d (.at n p) = .value last

/-- The walk through a node and its right siblings goes on where it goes from the parent. -/
def ThroughAll (k : Kind) (fuel : Nat) (n : Obj A) (pnodes : List (Obj A)) (ppath : Path (Obj A))
    (l : List (Obj A)) : List (Obj A) → Prop
  | [] => True
  | x :: xs => ∃ locs last, Walk k fuel locs (.at x (.level l pnodes ppath ⟨xs, none⟩ false)) last ∧
      locs.map Loc.node = preorderAll k (x :: xs) ∧ next k last = leave k n ppath ∧
      ∀ d, heightAll (x :: xs) < d →
        (rightLoop (xs.length + 1) (.at x (.level l pnodes ppath ⟨xs, none⟩ false))).onValue
          (descend k d) .error = .value last

section Through

variable {k : Kind} {fuel : Nat} {n c : Obj A} {cs : List (Obj A)} {p : Path (Obj A)}

theorem walkable_cons {ns : List (Obj A)} (h : WalkableAll k (n :: ns)) :
    Walkable k n ∧ WalkableAll k ns := by
  rcases h with hkind | honly
  · exact ⟨.inl hkind, .inl hkind⟩
  · simp only [onlyListsAll, Bool.and_eq_true] at honly
    exact ⟨.inr honly.1, .inr honly.2⟩

theorem through_leaf (hdown : ∀ q, down k (.at n q) = .nil) (hpre : preorder k n = [n]) :
    Through k fuel n p := by
  refine ⟨[.at n p], .at n p, .single n p, hpre.symm, next_eq_leave (hdown p), ?_⟩
  intro d hd
  obtain ⟨d, rfl⟩ := Nat.exists_eq_succ_of_ne_zero (Nat.ne_zero_of_lt hd)
  rw [descend, hdown, Answer.onValue_nil]

theorem through_branch
    (hdown : down k (.at n p) = .value (.at c (.level [] (p.pnodesBelow n) p ⟨cs, none⟩ false)))
    (hpre : preorder k n = n :: preorderAll k (c :: cs))
    (hheight : n.height = heightAll (c :: cs) + 1)
    (hall : ThroughAll k fuel n (p.pnodesBelow n) p [] (c :: cs)) : Through k fuel n p := by
  obtain ⟨locs, last, hwalk, hnodes, hnext, hlast⟩ := hall
  refine ⟨.at n p :: locs, last, (Walk.single n p).append hwalk (step_down hdown), ?_, hnext, ?_⟩
  · rw [List.map_cons, hnodes, hpre, Loc.node]
  · intro d hd
    obtain ⟨d, rfl⟩ := Nat.exists_eq_succ_of_ne_zero (Nat.ne_zero_of_lt hd)
    rw [descend, hdown, Answer.onValue_value]
    exact hlast d (by omega)

end Through

mutual

theorem walk_through (k : Kind) (fuel : Nat) : ∀ (n : Obj A) (p : Path (Obj A)), p.Fresh →
    n.height < fuel → Walkable k n → Through k fuel n p
  | .atom a, p, _, _, _ => by
    refine through_leaf (fun q => ?_) rfl
    cases k <;> rfl
  | .list [], p, _, _, _ => by
    refine through_leaf (fun q => ?_) ?_ <;> cases k <;> rfl
  | .list (x :: xs), p, hp, hfuel, hwalkable => by
    cases k with
    | vectorZip => exact through_leaf (fun q => rfl) rfl
    | seqZip =>
      have hall : WalkableAll .seqZip (x :: xs) := hwalkable.imp_right id
      refine through_branch rfl rfl rfl ?_
      exact walk_throughAll .seqZip fuel _ _ _ (getLast?_pnodesBelow _ p) hp [] (x :: xs)
        (Nat.lt_of_succ_lt hfuel) hall
  | .vector type [], p, _, _, hwalkable => by
    cases k with
    | vectorZip => exact through_leaf (fun q => rfl) rfl
    | seqZip => rcases hwalkable with hkind | honly <;> contradiction
  | .vector type (x :: xs), p, hp, hfuel, hwalkable => by
    cases k with
    | vectorZip =>
      refine through_branch rfl rfl rfl ?_
      exact walk_throughAll .vectorZip fuel _ _ _ (getLast?_pnodesBelow _ p) hp [] (x :: xs)
        (Nat.lt_of_succ_lt hfuel) (.inl rfl)
    | seqZip => rcases hwalkable with hkind | honly <;> contradiction

theorem walk_throughAll (k : Kind) (fuel : Nat) (n : Obj A) (pnodes : List (Obj A))
    (ppath : Path (Obj A)) (hlast : pnodes.getLast? = some n) (hp : ppath.Fresh) :
    ∀ l ns : List (Obj A), heightAll ns < fuel → WalkableAll k ns →
      ThroughAll k fuel n pnodes ppath l ns
  | _, [], _, _ => trivial
  | l, [x], hfuel, hwalkable => by
    have hx : x.height < fuel := Nat.lt_of_le_of_lt (Nat.le_max_left _ _) hfuel
    obtain ⟨locs, last, hwalk, hnodes, hnext, hdescend⟩ := walk_through k fuel x
      (.level l pnodes ppath ⟨[], none⟩ false) (fresh_level hlast hp) hx (walkable_cons hwalkable).1
    refine ⟨locs, last, hwalk, by simp [preorderAll, hnodes], by
      rw [hnext, leave_last hp hlast], ?_⟩
    intro d hd
    show (rightLoop 1 _).onValue _ _ = _
    rw [rightLoop, right_last, Answer.onValue_nil, Answer.onValue_value]
    exact hdescend d (Nat.lt_of_le_of_lt (Nat.le_max_left _ _) hd)
  | l, x :: y :: ys, hfuel, hwalkable => by
    have hx : x.height < fuel := Nat.lt_of_le_of_lt (Nat.le_max_left _ _) hfuel
    have hys : heightAll (y :: ys) < fuel := Nat.lt_of_le_of_lt (Nat.le_max_right _ _) hfuel
    obtain ⟨locs, last, hwalk, hnodes, hnext, hdescend⟩ := walk_through k fuel x
      (.level l pnodes ppath ⟨y :: ys, none⟩ false) (fresh_level hlast hp) hx
      (walkable_cons hwalkable).1
    obtain ⟨locs', last', hwalk', hnodes', hnext', hdescend'⟩ :=
      walk_throughAll k fuel n pnodes ppath hlast hp (x :: l) (y :: ys) hys
        (walkable_cons hwalkable).2
    refine ⟨locs ++ locs', last', hwalk.append hwalk' (step_sibling hnext (hdescend fuel hx)), ?_,
      hnext', ?_⟩
    · rw [List.map_append, hnodes, hnodes']
      rfl
    · intro d hd
      rw [List.length_cons, rightLoop, right_cons, Answer.onValue_value]
      exact hdescend' d (Nat.lt_of_le_of_lt (Nat.le_max_right _ _) hd)

end

/-! ## §4 Traps -/

/-- The walk from a location comes to an error. -/
def FailsFrom (k : Kind) (fuel : Nat) (a : Loc (Obj A)) : Prop :=
  ∃ locs last, Walk k fuel locs a last ∧ next k last = .error

section Traps

variable {k : Kind} {fuel : Nat} {a b last : Loc (Obj A)} {locs : List (Loc (Obj A))}

theorem Walk.fails (h : Walk k fuel locs a last) (hstep : Step k fuel last b)
    (hfails : FailsFrom k fuel b) : FailsFrom k fuel a := by
  obtain ⟨locs', last', hwalk, herror⟩ := hfails
  exact ⟨_, _, h.append hwalk hstep, herror⟩

end Traps

mutual

/-- `seq-zip` does not walk through a vector or a string. -/
theorem walk_fails (fuel : Nat) : ∀ (n : Obj A) (p : Path (Obj A)), p.Fresh → n.height < fuel →
    n.onlyLists = false → FailsFrom .seqZip fuel (.at n p)
  | .atom a, _, _, _, hvec => by cases hvec
  | .list xs, p, hp, hfuel, hvec => by
    cases xs with
    | nil => cases hvec
    | cons x xs =>
      have hall :=
        walk_failsAll fuel _ _ _ (getLast?_pnodesBelow (.list (x :: xs)) p) hp [] (x :: xs)
        (Nat.lt_of_succ_lt hfuel) hvec
      exact (Walk.single _ p).fails (step_down rfl) hall
  | .vector type [], p, _, _, _ => ⟨_, _, .single _ p, rfl⟩
  | .vector type (x :: xs), p, hp, hfuel, _ => by
    have hx : x.height < fuel := by
      simp only [Obj.height, heightAll] at hfuel
      omega
    have hfresh :
      (Path.level [] (p.pnodesBelow (.vector type (x :: xs))) p ⟨[], some xs⟩ false).Fresh :=
      fresh_level (getLast?_pnodesBelow _ p) hp
    refine (Walk.single _ p).fails (step_down rfl) ?_
    cases honly : x.onlyLists with
    | false => exact walk_fails fuel x _ hfresh hx honly
    | true =>
      obtain ⟨locs, last, hwalk, -, hnext, -⟩ :=
        walk_through .seqZip fuel x _ hfresh hx (.inr honly)
      exact ⟨locs, last, hwalk, by rw [hnext, leave_vec]⟩

theorem walk_failsAll (fuel : Nat) (n : Obj A) (pnodes : List (Obj A)) (ppath : Path (Obj A))
    (hlast : pnodes.getLast? = some n) (hp : ppath.Fresh) :
    ∀ l ns : List (Obj A), heightAll ns < fuel → onlyListsAll ns = false →
      match ns with
      | [] => True
      | x :: xs => FailsFrom .seqZip fuel (.at x (.level l pnodes ppath ⟨xs, none⟩ false))
  | _, [], _, _ => trivial
  | l, x :: xs, hfuel, hvec => by
    have hx : x.height < fuel := Nat.lt_of_le_of_lt (Nat.le_max_left _ _) hfuel
    have hxs : heightAll xs < fuel := Nat.lt_of_le_of_lt (Nat.le_max_right _ _) hfuel
    cases honly : x.onlyLists with
    | false => exact walk_fails fuel x _ (fresh_level hlast hp) hx honly
    | true =>
      have hrest : onlyListsAll xs = false := by simpa [onlyListsAll, honly] using hvec
      cases xs with
      | nil => cases hrest
      | cons y ys =>
        obtain ⟨locs, last, hwalk, -, hnext, hdescend⟩ := walk_through .seqZip fuel x
          (.level l pnodes ppath ⟨y :: ys, none⟩ false) (fresh_level hlast hp) hx (.inr honly)
        exact hwalk.fails (step_sibling hnext (hdescend fuel hx))
          (walk_failsAll fuel n pnodes ppath hlast hp (x :: l) (y :: ys) hxs hrest)

end

/-! ## §5 Whole -/

section Whole

variable {k : Kind} {fuel : Nat} {t : Obj A} {a b last : Loc (Obj A)} {locs : List (Loc (Obj A))}

/-- The walk from the root comes to the end or to an error, and to the end only where it is
walkable. -/
theorem walk_root (k : Kind) (t : Obj A) (hfuel : t.height < fuel) :
    ∃ locs last, Walk k fuel locs (zipper t) last ∧
      ((Walkable k t ∧ locs.map Loc.node = preorder k t ∧ ∃ n, next k last = .value (.theEnd n)) ∨
        (¬Walkable k t ∧ next k last = .error)) := by
  by_cases hwalkable : Walkable k t
  · obtain ⟨locs, last, hwalk, hnodes, hnext, -⟩ :=
      walk_through k fuel t .nil trivial hfuel hwalkable
    exact ⟨locs, last, hwalk, .inl ⟨hwalkable, hnodes, t, hnext⟩⟩
  · obtain ⟨hkind, honly⟩ := not_or.mp hwalkable
    obtain rfl : k = .seqZip := by
      cases k with
      | seqZip => rfl
      | vectorZip => exact absurd rfl hkind
    obtain ⟨locs, last, hwalk, herror⟩ :=
      walk_fails fuel t .nil trivial hfuel (Bool.eq_false_iff.mpr honly)
    exact ⟨locs, last, hwalk, .inr ⟨hwalkable, herror⟩⟩

/-- Each location of a walk is the last one, or has a next one. -/
theorem Walk.mem (h : Walk k fuel locs a last) (hb : b ∈ locs) :
    b = last ∨ ∃ c ∈ locs, Step k fuel b c := by
  obtain ⟨before, rest, rfl⟩ := List.append_of_mem hb
  cases rest with
  | nil =>
    have hlast := h.last
    rw [List.getLast?_append, List.getLast?_singleton, Option.some_or] at hlast
    exact .inl (Option.some.inj hlast)
  | cons c rest => exact .inr ⟨c, by simp, (List.isChain_append_cons_cons.mp h.chain).2.1⟩

theorem next_endP (ha : a.endP = true) : next k a = .value a := by
  cases a with
  | «at» n p => cases ha
  | theEnd n => rfl

/-- What `next` comes to is on the walk, or is the end. -/
theorem Walk.visited (h : Walk k fuel locs (zipper t) last)
    (hlast : next k last = .error ∨ ∃ n, next k last = .value (.theEnd n)) (hb : Visited k t b) :
    b.endP = true ∨ b ∈ locs := by
  induction hb with
  | root => exact .inr (List.mem_of_head? h.head)
  | @next b c _ hnext ih =>
    rcases ih with hend | hmem
    · rw [next_endP hend] at hnext
      cases hnext
      exact .inl hend
    · rcases h.mem hmem with rfl | ⟨c', hc', hstep⟩
      · rcases hlast with herror | ⟨n, hend⟩
        · rw [herror] at hnext
          cases hnext
        · rw [hend] at hnext
          cases hnext
          exact .inl rfl
      · rw [hstep.next] at hnext
        cases hnext
        exact .inr hc'

/-- On a walk `prev` undoes `next`, unless that leaves it. -/
theorem Walk.prev_next (h : Walk k fuel locs (zipper t) last)
    (hlast : next k last = .error ∨ ∃ n, next k last = .value (.theEnd n)) (ha : Visited k t a)
    (hnext : next k a = .value b) (hb : b.endP = false) : prev k fuel b = .value a := by
  rcases h.visited hlast ha with hend | hmem
  · rw [next_endP hend] at hnext
    cases hnext
    exact absurd (hend.symm.trans hb) (by simp)
  · rcases h.mem hmem with rfl | ⟨c, -, hstep⟩
    · rcases hlast with herror | ⟨n, hend⟩
      · rw [herror] at hnext
        cases hnext
      · rw [hend] at hnext
        cases hnext
        cases hb
    · have hsame := hstep.next
      rw [hnext] at hsame
      cases hsame
      exact hstep.prev

theorem visited_of_chain (hchain : locs.IsChain fun a b => next k a = .value b)
    (hhead : ∀ b, locs.head? = some b → Visited k t b) (ha : a ∈ locs) : Visited k t a := by
  induction locs with
  | nil => cases ha
  | cons b locs ih =>
    rcases List.mem_cons.mp ha with rfl | hmem
    · exact hhead _ rfl
    · refine ih hchain.tail (fun c hc => ?_) hmem
      cases locs with
      | nil => cases hc
      | cons d locs =>
        cases hc
        exact (hhead b rfl).next (List.isChain_cons_cons.mp hchain).1

theorem direct_next (z : Trees (Obj A)) (c : Cursor (Obj A)) :
    ∃ c', Op.next.direct z c = some c' := by
  cases hpos : c.pos with
  | none => exact ⟨c, by simp [Op.direct, hpos]⟩
  | some q => exact ⟨_, by simp [Op.direct, hpos, Op.directAt]; rfl⟩

/-- A walk without edits. -/
theorem edited_of_visited (ha : Visited k t a) : ∃ c, Edited k t a c := by
  induction ha with
  | root => exact ⟨_, .root⟩
  | @next a b _ hnext ih =>
    obtain ⟨c, hedited⟩ := ih
    obtain ⟨c', hdirect⟩ := direct_next k.trees c
    have hstep : applyOp k .next a = .value b := hnext
    exact ⟨c', hedited.step rfl hstep hdirect⟩

theorem Enumerates.visited_end (h : Enumerates k t) :
    ∃ a n, Visited k t a ∧ a.endP = false ∧ next k a = .value (.theEnd n) := by
  obtain ⟨locs, hhead, hinside, hchain, -, last, n, hlast, hnext⟩ := h
  have hmem := List.mem_of_getLast? hlast
  have hstart : ∀ b, locs.head? = some b → Visited k t b := by
    intro b hb
    rw [hhead] at hb
    cases hb
    exact .root
  exact ⟨last, n, visited_of_chain hchain hstart hmem, hinside last hmem, hnext⟩

/-- `root` at the end is an error, whatever has been edited. -/
theorem not_rootAtEnd (h : Enumerates k t) : ¬RootAtEnd k t := by
  obtain ⟨a, n, ha, -, hnext⟩ := h.visited_end
  obtain ⟨c, hedited⟩ := edited_of_visited (ha.next hnext)
  intro hroot
  cases hroot n c hedited

theorem enumerates_iff : Enumerates k t ↔ Walkable k t := by
  obtain ⟨locs, last, hwalk, hresult⟩ := walk_root k t (Nat.lt_succ_self t.height)
  constructor
  · intro h
    rcases hresult with ⟨hwalkable, -⟩ | ⟨-, herror⟩
    · exact hwalkable
    · obtain ⟨a, n, ha, hinside, hnext⟩ := h.visited_end
      rcases hwalk.visited (.inl herror) ha with hend | hmem
      · exact absurd (hend.symm.trans hinside) (by simp)
      · rcases hwalk.mem hmem with rfl | ⟨c, hc, hstep⟩
        · rw [herror] at hnext
          cases hnext
        · rw [hstep.next] at hnext
          cases hnext
          cases hwalk.inside _ hc
  · intro h
    rcases hresult with ⟨-, hnodes, n, hend⟩ | ⟨hnot, -⟩
    · exact ⟨locs, hwalk.head, hwalk.inside, hwalk.chain.imp fun _ _ hstep => hstep.next, hnodes,
        last, n, hwalk.last, hend⟩
    · exact absurd h hnot

theorem prevUndoes (k : Kind) (t : Obj A) : PrevUndoes k t := by
  intro a b ha hnext hb fuel hfuel
  obtain ⟨locs, last, hwalk, hresult⟩ := walk_root k t hfuel
  refine hwalk.prev_next ?_ ha hnext hb
  rcases hresult with ⟨-, -, hend⟩ | ⟨-, herror⟩
  · exact .inr hend
  · exact .inl herror

/-- A zipper never does all that is asked of it, since `root` does not take the end of a walk. The
walk itself is right exactly for `vector-zip` and for trees without vectors and strings, and `prev`
always is. -/
theorem zip_walk (k : Kind) (t : Obj A) :
    ¬Traverses k t ∧ (Enumerates k t ↔ Walkable k t) ∧ PrevUndoes k t :=
  ⟨fun h => not_rootAtEnd h.enumerates h.rootAtEnd, enumerates_iff, prevUndoes k t⟩

/-- `(seq-zip '(1))`: two calls of `next` come to the end, where `root` signals an error. -/
theorem seqZip_not_traverses : ¬Traverses .seqZip (.list [.atom (.integer 1)] : Obj Unit) := by
  intro h
  have hfirst : Edited .seqZip (.list [.atom (.integer 1)] : Obj Unit)
      (.at (.atom (.integer 1)) (.level [] [.list [.atom (.integer 1)]] .nil ⟨[], none⟩ false))
      ⟨.list [.atom (.integer 1)], some [0]⟩ := @Edited.step _ _ _ _ _ _ _ .next .root rfl rfl rfl
  have hend : Edited .seqZip (.list [.atom (.integer 1)] : Obj Unit)
      (.theEnd (.list [.atom (.integer 1)])) ⟨.list [.atom (.integer 1)], none⟩ :=
    @Edited.step _ _ _ _ _ _ _ .next hfirst rfl rfl rfl
  cases h.rootAtEnd _ _ hend

end Whole

end Fol.Zip.Sequences
