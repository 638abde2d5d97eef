/-
Fol.Collections.LazyConsumers — `take`, `doall` and `dorun` on lazy sequences, and `collection-seq`.

A chain is made of `<lazy-seq>` and `<list>` objects. `collection-seq` walks through both. The loops
of the consumers go on as long as the rest of a node is a `<lazy-seq>`, and take something for an
element whenever they have realized one.
-/
import Fol.Collections.Making

namespace Fol.Collections.Consumers

open VecTrie
open Transients (vecSeq)
open Making (Objects MakeError makeVector)

variable {α : Type}

/-! ## §1 Model -/

/-- NIL, a `<list>` without elements, a node of a `<list>`, a `<vector>`, a `<lazy-seq>` with what
its thunk will answer, and one with the answer it has cached. -/
inductive Chain (α : Type) where
  | null
  | empty
  | node (first : α) (rest : Chain α) (listSize : Nat)
  | vector (storage : VecT α)
  | unrealized (answer : Chain α)
  | realized (cached : Chain α)

namespace Chain

/-- `(typep s '<lazy-seq>)`. -/
def isLazy : Chain α → Bool
  | unrealized _ => true
  | realized _ => true
  | _ => false

/-- The loop of `realize-lazy-seq` over the answer of a thunk. -/
def resolve : Chain α → Chain α
  | unrealized answer => resolve answer
  | realized cached => resolve cached
  | s => s

/-- `realize-lazy-seq`, its value. -/
def realize : Chain α → Chain α
  | unrealized answer => resolve answer
  | realized cached => cached
  | s => s

/-- The objects that hang one in another. -/
def depth : Chain α → Nat
  | node _ rest _ => depth rest + 1
  | unrealized answer => depth answer + 1
  | realized cached => depth cached + 1
  | _ => 0

/-- The loop of `collection-seq` on a `<list>`. -/
def listSeq : Chain α → List α
  | node first rest listSize => if listSize = 0 then [] else first :: listSeq rest
  | unrealized answer => listSeq answer
  | realized cached => listSeq cached
  | _ => []

/-- The object after `collection-seq` has walked it. -/
def walk : Chain α → Chain α
  | node first rest listSize => if listSize = 0 then node first rest listSize
      else node first (walk rest) listSize
  | unrealized answer => realized (resolve (walk answer))
  | realized cached => realized (walk cached)
  | s => s

/-- Every `<lazy-seq>` that the walk comes to is realized. -/
def Forced : Chain α → Prop
  | node _ rest listSize => listSize ≠ 0 → Forced rest
  | unrealized _ => False
  | realized cached => Forced cached
  | _ => True

theorem depth_resolve (s : Chain α) : s.resolve.depth ≤ s.depth := by
  induction s with
  | unrealized answer ih => exact ih.trans (Nat.le_succ _)
  | realized cached ih => exact ih.trans (Nat.le_succ _)
  | _ => exact Nat.le_refl _

/-- What is behind a node is not as deep as the `<lazy-seq>` in front of it. -/
theorem depth_rest {s rest : Chain α} {x : α} {n : Nat} (hlazy : s.isLazy)
    (h : s.realize = node x rest n) :
    rest.depth < s.depth := by
  have hnode : s.realize.depth = rest.depth + 1 := by rw [h]; rfl
  cases s with
  | unrealized answer =>
    have hle := depth_resolve answer
    simp only [realize] at hnode
    simp only [depth]
    omega
  | realized cached =>
    simp only [realize] at hnode
    simp only [depth]
    omega
  | _ => cases hlazy

end Chain

open Chain

section Functions

variable [DecidableEq α] (O : Objects α)

/-- `collection-seq`. -/
def collectionSeq : Chain α → List α
  | .unrealized answer => collectionSeq answer
  | .realized cached => collectionSeq cached
  | .vector storage => vecSeq O.eof storage
  | s => s.listSeq

omit [DecidableEq α] in
/-- The loop of `take`, with `count` counted down. -/
def takeLoop : Nat → Chain α → List α
  | 0, _ => []
  | n + 1, current =>
    if current.isLazy then
      match current.realize with
      | .node first rest _ => first :: takeLoop n rest
      -- the first of an empty list is NIL, and so is `head` of what is no list
      | _ => O.nil :: takeLoop n .null
    else []

/-- `(take n coll)`. -/
def take (n : Nat) (coll : Chain α) : VecT α :=
  if coll.isLazy then buildVecTFromList (takeLoop O n coll)
  else buildVecTFromList ((collectionSeq O coll).take (min n (collectionSeq O coll).length))

omit [DecidableEq α] in
/-- The loop of `doall`. -/
def doallLoop (current : Chain α) : List α :=
  if _hlazy : current.isLazy then
    match _h : current.realize with
    | .node first rest _ => first :: doallLoop rest
    | .empty => [O.nil]
    | _ => []
  else []
termination_by current.depth
decreasing_by exact depth_rest _hlazy _h

/-- `doall`. -/
def doall (coll : Chain α) : Except MakeError (Chain α) :=
  if coll.isLazy then (makeVector O (doallLoop O coll)).map .vector else .ok coll

end Functions

/-- The object after the loop of `dorun`. -/
def dorunLoop (current : Chain α) : Chain α :=
  if _hlazy : current.isLazy then
    match _h : current.realize with
    | .node first rest listSize => .realized (.node first (dorunLoop rest) listSize)
    | answer => .realized answer
  else current
termination_by current.depth
decreasing_by exact depth_rest _hlazy _h

/-- The object after `dorun`, which returns NIL. -/
def dorun (coll : Chain α) : Chain α := if coll.isLazy then dorunLoop coll else coll.walk

/-! ## §2 Answers -/

theorem listSeq_resolve (s : Chain α) : s.resolve.listSeq = s.listSeq := by
  induction s with
  | unrealized answer ih => exact ih
  | realized cached ih => exact ih
  | _ => rfl

theorem listSeq_realize (s : Chain α) : s.realize.listSeq = s.listSeq := by
  cases s with
  | unrealized answer => exact listSeq_resolve answer
  | _ => rfl

theorem forced_resolve {s : Chain α} (h : s.Forced) : s.resolve.Forced := by
  induction s with
  | unrealized answer => exact h.elim
  | realized cached ih => exact ih h
  | _ => exact h

/-- The walk of `collection-seq` realizes what it comes to. -/
theorem forced_walk (s : Chain α) : s.walk.Forced := by
  induction s with
  | node first rest n ih =>
    rw [walk]
    split
    case isTrue hzero => exact fun hne => absurd hzero hne
    case isFalse hne => exact fun _ => ih
  | unrealized answer ih => exact forced_resolve ih
  | realized cached ih => exact ih
  | _ => trivial

section Answers

variable [DecidableEq α] {O : Objects α}

theorem collectionSeq_resolve (s : Chain α) : collectionSeq O s.resolve = collectionSeq O s := by
  induction s with
  | unrealized answer ih => exact ih
  | realized cached ih => exact ih
  | _ => rfl

theorem collectionSeq_realize (s : Chain α) : collectionSeq O s.realize = collectionSeq O s := by
  cases s with
  | unrealized answer => exact collectionSeq_resolve answer
  | _ => rfl

/-- A chain in front of a node is listed as a list. -/
theorem collectionSeq_of_node {s rest : Chain α} {x : α} {n : Nat}
    (h : s.realize = .node x rest n) :
    collectionSeq O s = s.listSeq := by
  rw [← collectionSeq_realize, ← listSeq_realize, h]
  rfl

end Answers

/-! ## §3 Linked -/

/-- In front of each node stands a `<lazy-seq>`, and what is behind the last one is no `<lazy-seq>`
and lists nothing. -/
inductive Linked : Chain α → Prop where
  | last {s rest : Chain α} {x : α} {n : Nat} (hlazy : s.isLazy)
      (hnode : s.realize = .node x rest (n + 1))
      (heager : rest.isLazy = false) (hnothing : rest.listSeq = []) : Linked s
  | link {s rest : Chain α} {x : α} {n : Nat} (hlazy : s.isLazy)
      (hnode : s.realize = .node x rest (n + 1))
      (hrest : Linked rest) : Linked s

section Loops

variable {O : Objects α} {s rest : Chain α} {x : α} {n k : Nat}

theorem listSeq_of_node (h : s.realize = .node x rest (n + 1)) : s.listSeq = x :: rest.listSeq := by
  rw [← listSeq_realize, h]
  rfl

theorem takeLoop_of_eager (h : s.isLazy = false) : takeLoop O n s = [] := by
  cases n with
  | zero => rfl
  | succ n => simp [takeLoop, h]

theorem takeLoop_of_node (hlazy : s.isLazy) (h : s.realize = .node x rest k) :
    takeLoop O (n + 1) s = x :: takeLoop O n rest := by
  simp [takeLoop, hlazy, h]

theorem takeLoop_of_other (hlazy : s.isLazy) (h : ∀ x rest k, s.realize ≠ .node x rest k) :
    takeLoop O (n + 1) s = [O.nil] := by
  rw [takeLoop, if_pos hlazy]
  split
  · next first rest k hnode => exact absurd hnode (h first rest k)
  · rw [takeLoop_of_eager rfl]

theorem doallLoop_of_eager (h : s.isLazy = false) : doallLoop O s = [] := by
  rw [doallLoop, dif_neg (by simp [h])]

theorem doallLoop_of_node (hlazy : s.isLazy) (h : s.realize = .node x rest k) :
    doallLoop O s = x :: doallLoop O rest := by
  rw [doallLoop, dif_pos hlazy]
  split
  all_goals simp_all

theorem dorunLoop_of_node (hlazy : s.isLazy) (h : s.realize = .node x rest k) :
    dorunLoop s = .realized (.node x (dorunLoop rest) k) := by
  rw [dorunLoop, dif_pos hlazy]
  split
  all_goals simp_all

theorem dorunLoop_of_eager (h : s.isLazy = false) : dorunLoop s = s := by
  rw [dorunLoop, dif_neg (by simp [h])]

theorem Linked.takeLoop_eq (h : Linked s) (n : Nat) : takeLoop O n s = s.listSeq.take n := by
  induction h generalizing n with
  | last hlazy hnode heager hnothing =>
    cases n with
    | zero => rfl
    | succ n => rw [takeLoop_of_node hlazy hnode, takeLoop_of_eager heager, listSeq_of_node hnode,
        hnothing]; simp
  | link hlazy hnode _ ih =>
    cases n with
    | zero => rfl
    | succ n => rw [takeLoop_of_node hlazy hnode, listSeq_of_node hnode, List.take_succ_cons, ih]

theorem Linked.doallLoop_eq (h : Linked s) : doallLoop O s = s.listSeq := by
  induction h with
  | last hlazy hnode heager hnothing =>
    rw [doallLoop_of_node hlazy hnode, doallLoop_of_eager heager, listSeq_of_node hnode, hnothing]
  | link hlazy hnode _ ih => rw [doallLoop_of_node hlazy hnode, listSeq_of_node hnode, ih]

/-- What lists nothing and is no `<lazy-seq>` has nothing to be realized. -/
theorem forced_of_nothing (heager : s.isLazy = false) (hnothing : s.listSeq = []) : s.Forced := by
  cases s with
  | node first rest n =>
    intro hne
    rw [listSeq, if_neg hne] at hnothing
    cases hnothing
  | unrealized answer => cases heager
  | realized cached => cases heager
  | _ => trivial

theorem Linked.forced_dorunLoop (h : Linked s) : (dorunLoop s).Forced := by
  induction h with
  | last hlazy hnode heager hnothing =>
    rw [dorunLoop_of_node hlazy hnode, dorunLoop_of_eager heager]
    exact fun _ => forced_of_nothing heager hnothing
  | link hlazy hnode _ ih =>
    rw [dorunLoop_of_node hlazy hnode]
    exact fun _ => ih

/-- `take` has all that `doall` collects. -/
theorem doallLoop_prefix (s : Chain α) : doallLoop O s <+: takeLoop O (doallLoop O s).length s := by
  induction hd : s.depth using Nat.strong_induction_on generalizing s with
  | h d ih =>
    cases hlazy : s.isLazy with
    | false => rw [doallLoop_of_eager hlazy]; exact List.nil_prefix
    | true =>
      by_cases hnode : ∃ x rest k, s.realize = .node x rest k
      · obtain ⟨x, rest, k, hnode⟩ := hnode
        rw [doallLoop_of_node hlazy hnode, List.length_cons, takeLoop_of_node hlazy hnode]
        exact List.cons_prefix_cons.mpr ⟨rfl, ih _ (hd ▸ depth_rest hlazy hnode) rest rfl⟩
      · have hother : ∀ x rest k, s.realize ≠ .node x rest k :=
          fun x rest k h => hnode ⟨x, rest, k, h⟩
        rw [doallLoop, dif_pos hlazy]
        split
        · next first rest k h => exact absurd h (hother first rest k)
        · have hone : takeLoop O 1 s = [O.nil] := takeLoop_of_other hlazy hother
          exact hone.symm ▸ List.prefix_refl _
        · exact List.nil_prefix

/-- Where no node is realized, `take` makes an element and `doall` none, or one of an empty list. -/
theorem node_of_loops {xs : List α} (hlazy : s.isLazy) (htake : takeLoop O 1 s = xs.take 1)
    (hdoall : doallLoop O s = xs) (hempty : s.realize = .empty → xs = []) :
    ∃ x rest k, s.realize = .node x rest k := by
  by_contra hnode
  have hother : ∀ x rest k, s.realize ≠ .node x rest k := fun x rest k h => hnode ⟨x, rest, k, h⟩
  suffices hnil : xs = [] by
    rw [takeLoop_of_other hlazy hother, hnil] at htake
    cases htake
  rw [doallLoop, dif_pos hlazy] at hdoall
  split at hdoall
  · next first rest k h => exact absurd h (hother first rest k)
  · next h => exact hempty h
  · exact hdoall.symm

/-- The two loops collect what is listed only along a chain of lazy nodes. -/
theorem linked_of_loops (hlazy : s.isLazy) (htake : ∀ n, takeLoop O n s = s.listSeq.take n)
    (hdoall : doallLoop O s = s.listSeq) : Linked s := by
  induction hd : s.depth using Nat.strong_induction_on generalizing s with
  | h d ih =>
    obtain ⟨x, rest, k, hnode⟩ := node_of_loops hlazy (htake 1)
      hdoall fun h => by rw [← listSeq_realize, h]; rfl
    cases k with
    | zero =>
      have hone := htake 1
      rw [takeLoop_of_node hlazy hnode, ← listSeq_realize, hnode] at hone
      cases hone
    | succ k =>
      have hrestTake : ∀ n, takeLoop O n rest = rest.listSeq.take n := by
        intro n
        have hn := htake (n + 1)
        rw [takeLoop_of_node hlazy hnode, listSeq_of_node hnode, List.take_succ_cons] at hn
        exact (List.cons.inj hn).2
      have hrestDoall : doallLoop O rest = rest.listSeq := by
        rw [doallLoop_of_node hlazy hnode, listSeq_of_node hnode] at hdoall
        exact (List.cons.inj hdoall).2
      cases hrest : rest.isLazy with
      | true => exact .link hlazy hnode (ih _ (hd ▸ depth_rest hlazy hnode) hrest hrestTake
          hrestDoall rfl)
      | false => exact .last hlazy hnode hrest (by rw [← hrestDoall, doallLoop_of_eager hrest])

end Loops

/-! ## §4 Agrees -/

section Agrees

variable [DecidableEq α] {O : Objects α} {s : Chain α}

/-- The three consumers do with the chain what its `collection-seq` lists. -/
structure Agrees (O : Objects α) (s : Chain α) : Prop where
  take (n : Nat) : (take O n s).Represents ((collectionSeq O s).take n)
  doall : s.isLazy → ∃ v, doall O s = .ok (.vector v) ∧ v.Represents (collectionSeq O s)
  asIs : s.isLazy = false → Consumers.doall O s = .ok s
  dorun : (dorun s).Forced

omit [DecidableEq α] in
/-- A vector represents one list. -/
theorem represents_unique {v : VecT α} {xs ys : List α} (hx : v.Represents xs)
    (hy : v.Represents ys) : xs = ys := by
  refine List.ext_getElem? fun i => ?_
  rw [← listRef_natCast, ← listRef_natCast, ← vecTRef_eq hx, vecTRef_eq hy]

omit [DecidableEq α] in
theorem build_represents_iff {xs ys : List α} : (buildVecTFromList xs).Represents ys ↔ xs = ys := by
  constructor
  · exact represents_unique (buildVecTFromList_represents xs)
  · rintro rfl
    exact buildVecTFromList_represents xs

theorem makeVector_of_ne {xs : List α} (h : ∀ y, xs ≠ [O.initialElement, y]) :
    makeVector O xs = .ok (buildVecTFromList xs) := by
  unfold makeVector
  split
  · next a b =>
    rw [if_neg]
    rintro rfl
    exact h b rfl
  · rfl

/-- The two arguments of a filled vector. -/
theorem makeVector_filled {y : α} {v : VecT α} (h : makeVector O [O.initialElement, y] = .ok v) :
    ∃ n, O.size y = some n ∧ v.Represents (List.replicate n O.initialElement) := by
  rw [makeVector, if_pos rfl] at h
  cases hsize : O.size y with
  | none => simp [hsize] at h
  | some n =>
    rw [hsize, Except.ok.injEq] at h
    exact ⟨n, rfl, h ▸ makeFilledVecT_represents n _⟩

theorem take_represents_iff (hlazy : s.isLazy) {n : Nat} {xs : List α} :
    (take O n s).Represents xs ↔ takeLoop O n s = xs := by
  rw [Consumers.take, if_pos hlazy, build_represents_iff]

/-- The vector of `doall` holds what the loop collected, unless it is taken for a filled one. -/
theorem doall_represents_iff (hlazy : s.isLazy) {xs : List α}
    (htake : takeLoop O (doallLoop O s).length s = xs.take (doallLoop O s).length) :
    (∃ v, doall O s = .ok (.vector v) ∧ v.Represents xs) ↔
      doallLoop O s = xs ∧ ∀ y, xs ≠ [O.initialElement, y] := by
  rw [Consumers.doall, if_pos hlazy]
  by_cases hfilled : ∃ y, doallLoop O s = [O.initialElement, y]
  · obtain ⟨y, hy⟩ := hfilled
    rw [iff_false_right (fun h => h.2 y (h.1 ▸ hy))]
    rintro ⟨v, hv, hxs⟩
    rw [hy] at hv
    cases hmake : makeVector O [O.initialElement, y] with
    | error e =>
      rw [hmake] at hv
      cases hv
    | ok v' =>
      rw [hmake] at hv
      cases hv
      obtain ⟨n, hsize, hrep⟩ := makeVector_filled hmake
      -- `take` has `y` too, and a filled vector does not
      have hbegins := doallLoop_prefix (O := O) s
      rw [htake, hy, represents_unique hxs hrep] at hbegins
      have hmem : y ∈ List.replicate n O.initialElement :=
        List.mem_of_mem_take (hbegins.subset (by simp))
      rw [List.eq_of_mem_replicate hmem, O.size_initialElement] at hsize
      cases hsize
  · have hne : ∀ y, doallLoop O s ≠ [O.initialElement, y] := fun y h => hfilled ⟨y, h⟩
    rw [makeVector_of_ne hne]
    constructor
    · rintro ⟨v, hv, hxs⟩
      cases hv
      obtain rfl := build_represents_iff.mp hxs
      exact ⟨rfl, hne⟩
    · rintro ⟨rfl, -⟩
      exact ⟨_, rfl, buildVecTFromList_represents _⟩

/-- Of a `<lazy-seq>` exactly along a chain of lazy nodes, whose elements are not the arguments of a
filled vector. -/
theorem consumers_agree_iff (O : Objects α) (s : Chain α) :
    Agrees O s ↔ (s.isLazy → Linked s ∧ ∀ y, collectionSeq O s ≠ [O.initialElement, y]) := by
  constructor
  · intro h hlazy
    have htake : ∀ n, takeLoop O n s = (collectionSeq O s).take n :=
    fun n => (take_represents_iff hlazy).mp (h.take n)
    obtain ⟨hdoall, hne⟩ := (doall_represents_iff hlazy (htake _)).mp (h.doall hlazy)
    refine ⟨?_, hne⟩
    obtain ⟨x, rest, k, hnode⟩ :=
    node_of_loops hlazy (htake 1) hdoall fun h => by rw [← collectionSeq_realize, h]; rfl
    rw [collectionSeq_of_node hnode] at htake hdoall
    exact linked_of_loops hlazy htake hdoall
  · intro h
    cases hlazy : s.isLazy with
    | true =>
      obtain ⟨hlinked, hne⟩ := h hlazy
      have hseq : collectionSeq O s = s.listSeq := by
        cases hlinked with
        | last _ hnode => exact collectionSeq_of_node hnode
        | link _ hnode => exact collectionSeq_of_node hnode
      have htake : ∀ n, takeLoop O n s = (collectionSeq O s).take n := fun n => by
        rw [hseq, hlinked.takeLoop_eq]
      refine ⟨fun n => (take_represents_iff hlazy).mpr (htake n), fun _ => ?_,
        fun h => (by simp [hlazy] at h), ?_⟩
      · exact (doall_represents_iff hlazy (htake _)).mpr ⟨by rw [hseq, hlinked.doallLoop_eq], hne⟩
      · rw [Consumers.dorun, if_pos hlazy]
        exact hlinked.forced_dorunLoop
    | false =>
      refine ⟨fun n => ?_, fun h => (by simp [hlazy] at h),
        fun _ => by simp [Consumers.doall, hlazy], ?_⟩
      · rw [Consumers.take, if_neg (by simp [hlazy]), ← List.take_eq_take_min]
        exact buildVecTFromList_represents _
      · rw [Consumers.dorun, if_neg (by simp [hlazy])]
        exact forced_walk s

/-- `(take 1 (lazy-seq nil))` is a vector of one NIL. -/
theorem not_agrees_nil :
    ¬ Agrees (α := Nat) ⟨id, 1, 2, 0, fun _ => none, rfl⟩ (.unrealized .null) := by
  intro h
  have hcount := (h.take 1).choose_spec.len
  revert hcount
  decide

end Agrees

end Fol.Collections.Consumers
