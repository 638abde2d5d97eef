/-
Fol.Workers.Reducers — the parallel reductions of lib/reducers.lisp on the thread pool.

`preduce`, `fold` and `aggregate` submit one task for each chunk, and no task waits. In
`fold-recursive` a task submits its right half and waits for it, and while it waits it keeps its
worker: when sixteen right halves wait, nothing runs those they wait for. What is reduced is what
`collection-seq` lists, which for some collections ends at an element `:eof`.

  §1 Chunks     — `chunkCollection`.
  §2 Reductions — `preduce`, `fold`, `foldRecursive`, `aggregate`.
  §3 Laws       — `Monoidal`, `Homomorphism`: chunks can be reduced one by one.
  §4 Parallel   — one task for each chunk.
  §5 Recursion  — the halves of `fold-recursive`.
  §6 Results    — `reductions_deliver_iff`.
-/
import Fol.Collections.Arguments
import Fol.Workers.Executor
import Mathlib.Data.PNat.Basic

namespace Fol.Reducers

open Lib.ForkJoin (Work)
open Workers (Executor)
open Workers.Executor (start)
open Collections.Making (Objects)
open Collections.Arguments (Argument collectionSeq collectionSeq_eq_iff)

variable {V A : Type}

/-! ## §1 Chunks -/

/-- The inner loop of `%chunk-collection`, with the chunk so far in reverse. -/
def takeChunk (n : Nat) (chunk : List V) (count : Nat) : List V → List V × List V
  | [] => (chunk.reverse, [])
  | v :: seq => if count < n then takeChunk n (v :: chunk) (count + 1) seq
      else (chunk.reverse, v :: seq)

theorem takeChunk_eq (n : Nat) (seq : List V) : ∀ chunk count,
    takeChunk n chunk count seq = (chunk.reverse ++ seq.take (n - count),
      seq.drop (n - count)) := by
  induction seq with
  | nil => simp [takeChunk]
  | cons v seq ih =>
    intro chunk count
    unfold takeChunk
    split
    case isTrue hlt =>
      obtain ⟨m, hm⟩ : ∃ m, n - count = m + 1 := ⟨n - count - 1, by omega⟩
      rw [ih, hm, show n - (count + 1) = m by omega]
      simp
    case isFalse hge => simp [show n - count = 0 by omega]

/-- The outer loop. With chunks of size 0 it does not end. -/
def chunkLoop (n : ℕ+) (seq : List V) (chunks : List (List V)) : List (List V) :=
  match seq with
  | [] => chunks.reverse
  | v :: rest =>
    let found := takeChunk n [] 0 (v :: rest)
    chunkLoop n found.2 (found.1 :: chunks)
termination_by seq.length
decreasing_by
  have hn := n.pos
  simp only [takeChunk_eq, List.length_drop, List.length_cons]
  omega

/-- `%chunk-collection` of what `collection-seq` lists. -/
def chunkCollection (n : ℕ+) (seq : List V) : List (List V) := chunkLoop n seq []

theorem flatten_chunkLoop (n : ℕ+) (seq : List V) (chunks : List (List V)) :
    (chunkLoop n seq chunks).flatten = chunks.reverse.flatten ++ seq := by
  induction seq, chunks using chunkLoop.induct n with
  | case1 chunks => simp [chunkLoop]
  | case2 chunks v rest found ih =>
    rw [chunkLoop, ih]
    simp [found, takeChunk_eq]

/-- The chunks are the collection, cut. -/
theorem flatten_chunkCollection (n : ℕ+) (seq : List V) :
    (chunkCollection n seq).flatten = seq := by
  simp [chunkCollection, flatten_chunkLoop]

/-! ## §2 Reductions -/

/-- A function that can be called with no arguments and with two. -/
structure Reducing (A V : Type) where
  zero : A
  call : A → V → A

/-- `collection-reduce` of a list, and of what `collection-seq` lists: the method of a `<vector>`
goes along the same iterator up to the same `:eof` as its `collection-seq`. -/
def reduce (fn : A → V → A) (init : A) (seq : List V) : A := seq.foldl fn init

/-- `(mapcar #'submit-work …)`, which gives the handles. -/
def submitAll : List (Work A) → (List Nat → Work A) → Work A
  | [], k => k []
  | t :: ts, k => .submit t fun handle => submitAll ts fun handles => k (handle :: handles)

/-- `(mapcar #'wait-for-work …)`. -/
def waitAll : List Nat → (List A → Work A) → Work A
  | [], k => k []
  | handle :: handles, k => .wait handle fun r => waitAll handles fun results => k (r :: results)

section

variable [DecidableEq V] (O : Objects V)

def preduce (fn : Reducing V V) (init : V) (coll : Argument V) (n : ℕ+) : Work V :=
  if (collectionSeq O coll).length ≤ n then .done (reduce fn.call init (collectionSeq O coll))
  else
    let identity := fn.zero
    let chunks := chunkCollection n (collectionSeq O coll)
    submitAll (chunks.map fun chunk => .done (reduce fn.call identity chunk)) fun workItems =>
      waitAll workItems fun results => .done (reduce fn.call init results)

def fold (combineFn : Reducing A A) (reduceFn : Reducing A V) (coll : Argument V) (n : ℕ+) :
    Work A :=
  if (collectionSeq O coll).length ≤ n
  then .done (reduce reduceFn.call reduceFn.zero (collectionSeq O coll))
  else
    let chunks := chunkCollection n (collectionSeq O coll)
    submitAll (chunks.map fun chunk => .done (reduce reduceFn.call reduceFn.zero chunk))
    fun workItems =>
      waitAll workItems fun results => .done (reduce combineFn.call combineFn.zero results)

end

/-- `recur-fold`, with what is done with its result. -/
def recurFold (combineFn : Reducing A A) (reduceFn : Reducing A V) (n : ℕ+) (seq : List V)
    (size : Nat) (k : A → Work A) : Work A :=
  if size ≤ n then k (reduce reduceFn.call reduceFn.zero seq)
  else
    let mid := size / 2
    .submit (recurFold combineFn reduceFn n (seq.drop mid) (size - mid) .done) fun rightTask =>
      recurFold combineFn reduceFn n (seq.take mid) mid fun leftRes =>
        .wait rightTask fun rightRes => k (combineFn.call leftRes rightRes)
termination_by size
decreasing_by
  all_goals
    have hn := n.pos
    omega

/-- The `zero` of `aggregate`: a value, or a function that makes one. -/
inductive Zero (A : Type) where
  | value (zero : A)
  | function (zero : Unit → A)

def Zero.get : Zero A → A
  | .value zero => zero
  | .function zero => zero ()

/-- `cl:reduce` without an initial value. -/
def clReduce (fn : Reducing A A) : List A → A
  | [] => fn.zero
  | a :: as => as.foldl fn.call a

section

variable [DecidableEq V] (O : Objects V)

def foldRecursive (combineFn : Reducing A A) (reduceFn : Reducing A V) (coll : Argument V)
    (n : ℕ+) : Work A :=
  recurFold combineFn reduceFn n (collectionSeq O coll) (collectionSeq O coll).length .done

def aggregate (zero : Zero A) (seqOp : A → V → A) (combineOp : Reducing A A) (coll : Argument V)
    (n : ℕ+) :
    Work A :=
  let seq := collectionSeq O coll
  if seq.length ≤ n then .done (seq.foldl seqOp zero.get)
  else
    submitAll ((chunkCollection n seq).map fun chunk => .done (chunk.foldl seqOp zero.get))
    fun workItems =>
      waitAll workItems fun partials => .done (clReduce combineOp partials)

end

/-! ## §3 Laws -/

/-- An associative function whose value without arguments is its identity. -/
structure Reducing.Monoidal (fn : Reducing V V) : Prop where
  assoc : ∀ a b c, fn.call (fn.call a b) c = fn.call a (fn.call b c)
  left_id : ∀ a, fn.call fn.zero a = a
  right_id : ∀ a, fn.call a fn.zero = a

/-- The first argument, unless it is the identity. -/
def Reducing.first [DecidableEq V] (zero : V) : Reducing V V :=
  ⟨zero, fun a b => if a = zero then b else a⟩

theorem Reducing.first_monoidal [DecidableEq V] (zero : V) : (first zero).Monoidal where
  assoc a b c := by by_cases ha : a = zero <;> simp [first, ha]
  left_id a := if_pos rfl
  right_id a := by by_cases ha : a = zero <;> simp [first, ha]

/-- Reduction takes the concatenation of collections to `combine`. -/
def Homomorphic (combine : A → A → A) (step : A → V → A) (zero : A) : Prop :=
  ∀ xs ys, reduce step zero (xs ++ ys) = combine (reduce step zero xs) (reduce step zero ys)

/-- The reduction is a homomorphism into the combine function, its identity included. -/
structure Homomorphism (combineFn : Reducing A A) (reduceFn : Reducing A V) : Prop where
  append : Homomorphic combineFn.call reduceFn.call reduceFn.zero
  zero : ∀ xs : List V, combineFn.call combineFn.zero (reduce reduceFn.call reduceFn.zero xs) =
    reduce reduceFn.call reduceFn.zero xs

namespace Reducing.Monoidal

variable {fn : Reducing V V}

/-- What has been reduced from the identity can be reduced into anything. -/
theorem call_reduce (h : fn.Monoidal) (a : V) (xs : List V) :
    fn.call a (reduce fn.call fn.zero xs) = reduce fn.call a xs := by
  have hfrom (b : V) : fn.call a (reduce fn.call b xs) = reduce fn.call (fn.call a b) xs := by
    induction xs generalizing b with
    | nil => rfl
    | cons x xs ih =>
      have hx := ih (fn.call b x)
      rw [← h.assoc] at hx
      exact hx
  rw [hfrom, h.right_id]

theorem homomorphism (h : fn.Monoidal) : Homomorphism fn fn where
  append xs ys := by rw [h.call_reduce, reduce, List.foldl_append, reduce, reduce]
  zero xs := h.left_id _

end Reducing.Monoidal

/-- Chunks that are reduced from the identity are reduced into any value. -/
theorem Reducing.Monoidal.reduce_chunks {fn : Reducing V V} (h : fn.Monoidal)
    (chunks : List (List V)) (init : V) :
    reduce fn.call init (chunks.map (reduce fn.call fn.zero)) =
    reduce fn.call init chunks.flatten := by
  induction chunks generalizing init with
  | nil => rfl
  | cons chunk chunks ih =>
    rw [List.flatten_cons, reduce, reduce, List.foldl_append, List.map_cons, List.foldl_cons,
      h.call_reduce]
    exact ih _

section

variable {combine : A → A → A} {step : A → V → A} {zero : A}

theorem Homomorphic.foldl_chunks (h : Homomorphic combine step zero) (chunks : List (List V))
    (xs : List V) :
    (chunks.map (reduce step zero)).foldl combine (reduce step zero xs) =
    reduce step zero (xs ++ chunks.flatten) := by
  induction chunks generalizing xs with
  | nil => simp
  | cons chunk chunks ih =>
    rw [List.map_cons, List.foldl_cons, ← h, ih, List.flatten_cons, List.append_assoc]

/-- The chunks of what is not empty: the first and the others. -/
theorem chunks_cons {n : ℕ+} {seq : List V} (hlong : ¬ seq.length ≤ n) :
    ∃ chunk chunks, chunkCollection n seq = chunk :: chunks ∧ chunk ++ chunks.flatten = seq := by
  have hflatten := flatten_chunkCollection n seq
  cases hchunks : chunkCollection n seq with
  | nil =>
    rw [hchunks] at hflatten
    obtain rfl : [] = seq := hflatten
    exact absurd (Nat.zero_le n) hlong
  | cons chunk chunks => exact ⟨chunk, chunks, rfl, by rw [← hflatten, hchunks, List.flatten_cons]⟩

end

/-! ## §4 Parallel -/

section

variable [Inhabited A] {E : Nat → Option A} {r : A}

omit [Inhabited A] in
theorem means_waitAll {handles : List Nat} {vs : List A} {k : List A → Work A}
    (hboxes : List.Forall₂ (fun handle v => E handle = some v) handles vs) (hk : (k vs).Means E r) :
    (waitAll handles k).Means E r := by
  induction hboxes generalizing k with
  | nil => exact hk
  | @cons handle v handles vs hbox _ ih => exact ⟨v, hbox, ih hk⟩

omit [Inhabited A] in
theorem means_submitAll (vs : List A) : ∀ {E : Nat → Option A} {k : List Nat → Work A},
    (∀ handles E', Work.Extends E E' →
      List.Forall₂ (fun handle v => E' handle = some v) handles vs →
      (k handles).Means E' r) → (submitAll (vs.map .done) k).Means E r := by
  induction vs with
  | nil => exact fun hk => hk [] _ (fun _ _ hi => hi) .nil
  | cons v vs ih =>
    intro E k hk
    refine ⟨v, rfl, fun handle hfree => ih fun handles E' hext hboxes => ?_⟩
    refine hk _ E' (fun i v' hi => hext i v' (Work.extends_update v hfree i v' hi))
      (.cons ?_ hboxes)
    exact hext handle v (Function.update_self ..)

theorem shape_waitAll {c f : Nat} {k : List A → Work A} (hk : ∀ results, (k results).Shape c f) :
    ∀ handles : List Nat, (waitAll handles k).Shape (c + handles.length) f := by
  intro handles
  induction handles generalizing k with
  | nil => exact hk []
  | cons handle handles ih => exact .wait fun r => ih fun results => hk (r :: results)

theorem shape_submitAll {c f : Nat} (vs : List A) : ∀ {k : List Nat → Work A},
    (∀ handles, handles.length = vs.length → (k handles).Shape c f) →
      (submitAll (vs.map .done) k).Shape (3 * vs.length + c) f := by
  induction vs with
  | nil =>
    intro k hk
    rw [List.length_nil, Nat.mul_zero, Nat.zero_add]
    exact hk [] rfl
  | cons v vs ih =>
    intro k hk
    have hshape := (Work.shape_done v).submit fun handle =>
      ih fun handles hlen => hk (handle :: handles) (by simp [hlen])
    rwa [Work.load_done, Nat.add_zero, Nat.zero_add, Nat.zero_add,
      show 2 + (3 * vs.length + c) + 1 = 3 * (v :: vs).length + c by
      rw [List.length_cons]; omega] at hshape

omit [Inhabited A] in
theorem above_waitAll {b : Nat} {k : List A → Work A} (hk : ∀ results, (k results).Above b) :
    ∀ handles : List Nat, (∀ handle ∈ handles, b ≤ handle) → (waitAll handles k).Above b := by
  intro handles habove
  induction handles generalizing k with
  | nil => exact hk []
  | cons handle handles ih =>
    rw [List.forall_mem_cons] at habove
    exact ⟨habove.1, fun r => ih (fun results => hk (r :: results)) habove.2⟩

omit [Inhabited A] in
theorem above_submitAll {b : Nat} (vs : List A) : ∀ {k : List Nat → Work A},
    (∀ handles, (∀ handle ∈ handles, b ≤ handle) → (k handles).Above b) →
      (submitAll (vs.map .done) k).Above b := by
  induction vs with
  | nil => exact fun hk => hk [] (by simp)
  | cons v vs ih =>
    intro k hk
    refine ⟨fun _ => trivial, fun handle hle => ih fun handles habove => hk _ ?_⟩
    exact List.forall_mem_cons.mpr ⟨hle, habove⟩

/-- With one task for each value, whatever the number of workers. -/
theorem delivers_submitAll {w : Nat} [NeZero w] (vs : List A) (f : List A → A) (turn : Nat) :
    (start w (submitAll (vs.map .done) fun handles => waitAll handles fun results =>
      .done (f results))
      turn).Delivers (f vs) := by
  have hshape :=
    shape_submitAll vs (k := fun handles => waitAll handles fun results => .done (f results))
    fun handles hlen => hlen ▸ shape_waitAll (fun results => Work.shape_done (f results)) handles
  refine Executor.delivers_of_lt ?_ hshape.uniform ?_ turn (hshape.forks_eq ▸ NeZero.pos w)
  · exact means_submitAll vs fun handles E' _ hboxes => means_waitAll hboxes rfl
  · exact above_submitAll vs fun handles habove =>
      above_waitAll (k := fun results => .done (f results)) (fun _ => trivial) handles habove

/-- A reduction that submits nothing. -/
theorem delivers_done {w : Nat} [NeZero w] (r : A) (turn : Nat) :
    (start w (.done r) turn).Delivers r := by
  have hmeans : (Work.done r).Means (fun _ => none) r := rfl
  exact Executor.delivers_of_lt hmeans trivial trivial turn (NeZero.pos w)

end

/-! ## §5 Recursion -/

/-- How many right halves longer than `n` are submitted for a collection of this size. -/
def longHalves (n : ℕ+) (size : Nat) : Nat :=
  if size ≤ n then 0
  else
    let mid := size / 2
    longHalves n (size - mid) + (if size - mid ≤ n then 0 else 1) + longHalves n mid
termination_by size
decreasing_by
  all_goals
    have hn := n.pos
    omega

/-- How many moves `recur-fold` makes and has others make. -/
def splitCost (n : ℕ+) (size : Nat) : Nat :=
  if size ≤ n then 0
  else
    let mid := size / 2
    splitCost n (size - mid) + 2 + (1 + splitCost n mid) + 1
termination_by size
decreasing_by
  all_goals
    have hn := n.pos
    omega

section

variable [Inhabited A] {combineFn : Reducing A A} {reduceFn : Reducing A V} {n : ℕ+}

omit [Inhabited A] in
theorem means_recurFold {E : Nat → Option A} {r : A}
    (h : Homomorphic combineFn.call reduceFn.call reduceFn.zero) (seq : List V) (size : Nat)
    (k : A → Work A)
    (hk : ∀ E', Work.Extends E E' → (k (reduce reduceFn.call reduceFn.zero seq)).Means E' r) :
    (recurFold combineFn reduceFn n seq size k).Means E r := by
  induction size using Nat.strong_induction_on generalizing seq k E r with
  | _ size ih => ?_
  have hn := n.pos
  rw [recurFold]
  split
  case isTrue => exact hk E fun _ _ hi => hi
  case isFalse hlong =>
    refine ⟨reduce reduceFn.call reduceFn.zero (seq.drop (size / 2)), ?_, fun rightTask hfree => ?_⟩
    · exact ih _ (by omega) _ _ fun E' _ => rfl
    · refine ih _ (by omega) _ _ fun E' hext => ⟨_, hext _ _ (Function.update_self ..), ?_⟩
      have hsplit := h (seq.take (size / 2)) (seq.drop (size / 2))
      rw [List.take_append_drop] at hsplit
      have hmeans := hk E' ?_
      · rw [hsplit] at hmeans
        exact hmeans
      · exact fun i v hi => hext i v (Work.extends_update _ hfree i v hi)

omit [Inhabited A] in
theorem above_recurFold {b : Nat} (seq : List V) (size : Nat) (k : A → Work A)
    (hk : ∀ v, (k v).Above b) :
    (recurFold combineFn reduceFn n seq size k).Above b := by
  induction size using Nat.strong_induction_on generalizing seq k b with
  | _ size ih => ?_
  have hn := n.pos
  rw [recurFold]
  split
  case isTrue => exact hk _
  case isFalse hlong =>
    refine ⟨fun c => ih _ (by omega) _ _ fun _ => trivial, fun rightTask hle => ?_⟩
    exact ih _ (by omega) _ _ fun leftRes => ⟨hle, fun rightRes => hk _⟩

omit [Inhabited A] in
theorem recurFold_short (seq : List V) (k : A → Work A) {size : Nat} (hshort : size ≤ n) :
    recurFold combineFn reduceFn n seq size k = k (reduce reduceFn.call reduceFn.zero seq) := by
  rw [recurFold, if_pos hshort]

omit [Inhabited A] in
theorem load_recurFold (seq : List V) (size : Nat) :
    (recurFold combineFn reduceFn n seq size .done).load = if size ≤ n then 0 else 1 := by
  rw [recurFold]
  split <;> rfl

theorem shape_recurFold {c f : Nat} (seq : List V) (size : Nat) (k : A → Work A)
    (hk : ∀ v, (k v).Shape c f) :
    (recurFold combineFn reduceFn n seq size k).Shape (splitCost n size + c)
    (longHalves n size + f) := by
  induction size using Nat.strong_induction_on generalizing seq k c f with
  | _ size ih => ?_
  have hn := n.pos
  rw [recurFold, splitCost, longHalves]
  split
  case isTrue => simpa using hk _
  case isFalse hlong =>
    have hright := ih (size - size / 2) (by omega) (seq.drop (size / 2)) .done Work.shape_done
    have hleft (rightTask : Nat) := ih (size / 2) (by omega) (seq.take (size / 2))
      (fun leftRes => .wait rightTask fun rightRes => k (combineFn.call leftRes rightRes))
      fun leftRes => .wait fun rightRes => hk _
    have hboth := hright.submit hleft
    rw [load_recurFold] at hboth
    dsimp only
    convert hboth using 1 <;> omega

/-- A collection that is split: its last right half may be short. -/
theorem forksFirst_recurFold (seq : List V) (size : Nat) (k : A → Work A) (hlong : ¬ size ≤ n)
    (hk : ∀ v, (k v).forks = 0) : (recurFold combineFn reduceFn n seq size k).ForksFirst := by
  induction size using Nat.strong_induction_on generalizing seq k with
  | _ size ih => ?_
  have hn := n.pos
  rw [recurFold, if_neg hlong]
  refine ⟨?_, fun rightTask => ?_⟩
  · by_cases hright : size - size / 2 ≤ n
    · left
      rw [load_recurFold, if_pos hright]
    · exact .inr (ih _ (by omega) _ _ hright fun _ => rfl)
  · by_cases hleft : size / 2 ≤ n
    · beta_reduce
      rw [recurFold_short _ _ hleft]
      exact ⟨hk _, fun _ => hk _⟩
    · refine ⟨ih _ (by omega) _ _ hleft fun _ => hk _, fun hload => ?_⟩
      rw [load_recurFold, if_neg (by omega)] at hload
      cases hload

end

/-! ## §6 Results -/

section

variable [DecidableEq V] {O : Objects V} {w : Nat} [NeZero w] {n : ℕ+}

theorem preduce_delivers {fn : Reducing V V} (h : fn.Monoidal) (init : V) (coll : Argument V)
    (n : ℕ+) (turn : Nat) :
    (start w (preduce O fn init coll n) turn).Delivers
    (reduce fn.call init (collectionSeq O coll)) := by
  let _ : Inhabited V := ⟨fn.zero⟩
  unfold preduce
  split
  case isTrue => exact delivers_done _ turn
  case isFalse =>
    have hdelivers := delivers_submitAll (w := w)
      ((chunkCollection n (collectionSeq O coll)).map (reduce fn.call fn.zero))
      (reduce fn.call init) turn
    rwa [List.map_map, h.reduce_chunks, flatten_chunkCollection] at hdelivers

theorem fold_delivers {combineFn : Reducing A A} {reduceFn : Reducing A V}
    (h : Homomorphism combineFn reduceFn) (coll : Argument V) (n : ℕ+) (turn : Nat) :
    (start w (fold O combineFn reduceFn coll n) turn).Delivers
      (reduce reduceFn.call reduceFn.zero (collectionSeq O coll)) := by
  let _ : Inhabited A := ⟨reduceFn.zero⟩
  unfold fold
  split
  case isTrue => exact delivers_done _ turn
  case isFalse hlong =>
    have hdelivers := delivers_submitAll (w := w)
      ((chunkCollection n (collectionSeq O coll)).map (reduce reduceFn.call reduceFn.zero))
      (reduce combineFn.call combineFn.zero) turn
    obtain ⟨chunk, chunks, hchunks, hseq⟩ := chunks_cons hlong
    have hresult : reduce combineFn.call combineFn.zero
        ((chunkCollection n (collectionSeq O coll)).map (reduce reduceFn.call reduceFn.zero)) =
          reduce reduceFn.call reduceFn.zero (collectionSeq O coll) := by
      rw [hchunks, List.map_cons, reduce, List.foldl_cons, h.zero, h.append.foldl_chunks, hseq]
    rwa [List.map_map, hresult] at hdelivers

theorem aggregate_delivers {combineOp : Reducing A A} {seqOp : A → V → A} {zero : Zero A}
    (h : Homomorphic combineOp.call seqOp zero.get) (coll : Argument V) (n : ℕ+) (turn : Nat) :
    (start w (aggregate O zero seqOp combineOp coll n) turn).Delivers
      ((collectionSeq O coll).foldl seqOp zero.get) := by
  let _ : Inhabited A := ⟨zero.get⟩
  unfold aggregate
  dsimp only
  split
  case isTrue => exact delivers_done _ turn
  case isFalse hlong =>
    have hdelivers := delivers_submitAll (w := w)
      ((chunkCollection n (collectionSeq O coll)).map (reduce seqOp zero.get))
      (clReduce combineOp) turn
    obtain ⟨chunk, chunks, hchunks, hseq⟩ := chunks_cons hlong
    have hresult :
      clReduce combineOp ((chunkCollection n (collectionSeq O coll)).map (reduce seqOp zero.get)) =
        (collectionSeq O coll).foldl seqOp zero.get := by
      rw [hchunks, List.map_cons, clReduce, h.foldl_chunks, hseq, reduce]
    rwa [List.map_map, hresult] at hdelivers

/-- `fold-recursive` has its result in every order of the steps exactly when fewer long right halves
are submitted than there are workers. -/
theorem foldRecursive_delivers_iff {combineFn : Reducing A A} {reduceFn : Reducing A V}
    (h : Homomorphism combineFn reduceFn) (coll : Argument V) (n : ℕ+) (turn : Nat) :
    (start w (foldRecursive O combineFn reduceFn coll n) turn).Delivers
      (reduce reduceFn.call reduceFn.zero (collectionSeq O coll)) ↔
        longHalves n (collectionSeq O coll).length < w := by
  let _ : Inhabited A := ⟨reduceFn.zero⟩
  have hshape : (foldRecursive O combineFn reduceFn coll n).Shape _ _ :=
    shape_recurFold (collectionSeq O coll) (collectionSeq O coll).length .done Work.shape_done
  have hforks :
    (foldRecursive O combineFn reduceFn coll n).forks =
    longHalves n (collectionSeq O coll).length :=
    hshape.forks_eq
  rw [← hforks]
  refine Executor.delivers_iff ?_ hshape.uniform ?_ ?_ turn
  · exact means_recurFold h.append (collectionSeq O coll) (collectionSeq O coll).length .done
      fun _ _ => rfl
  · exact above_recurFold (collectionSeq O coll) (collectionSeq O coll).length .done fun _ =>
      trivial
  · by_cases hshort : (collectionSeq O coll).length ≤ n
    · exact .inl (hforks.trans (by rw [longHalves, if_pos hshort]))
    · exact .inr (forksFirst_recurFold (collectionSeq O coll) (collectionSeq O coll).length .done
        hshort fun _ => rfl)

/-- The reductions of a collection have the results of the serial folds over its elements, for all
functions with the laws. -/
structure ReductionsDeliver (O : Objects V) (w : Nat) [NeZero w] (coll : Argument V) (xs : List V)
    (n : ℕ+) :
    Prop where
  preduce : ∀ (fn : Reducing V V) (init : V) (turn : Nat), fn.Monoidal →
    (start w (preduce O fn init coll n) turn).Delivers (xs.foldl fn.call init)
  fold : ∀ (fn : Reducing V V) (turn : Nat), fn.Monoidal →
    (start w (fold O fn fn coll n) turn).Delivers (xs.foldl fn.call fn.zero)
  foldRecursive : ∀ (fn : Reducing V V) (turn : Nat), fn.Monoidal →
    (start w (foldRecursive O fn fn coll n) turn).Delivers (xs.foldl fn.call fn.zero)
  foldInto : ∀ {A : Type} (combineFn : Reducing A A) (reduceFn : Reducing A V) (turn : Nat),
    Homomorphism combineFn reduceFn →
      (start w (Reducers.fold O combineFn reduceFn coll n) turn).Delivers
      (xs.foldl reduceFn.call reduceFn.zero)
  aggregate : ∀ {A : Type} (zero : Zero A) (seqOp : A → V → A) (combineOp : Reducing A A)
    (turn : Nat),
    Homomorphic combineOp.call seqOp zero.get →
      (start w (aggregate O zero seqOp combineOp coll n) turn).Delivers (xs.foldl seqOp zero.get)

/-- Lists by their concatenation, and by an element at their end. -/
def concat : Reducing (List V) (List V) := ⟨[], (· ++ ·)⟩
def snoc : Reducing (List V) V := ⟨[], fun xs x => xs ++ [x]⟩

omit [DecidableEq V] in
theorem reduce_snoc (xs ys : List V) : reduce snoc.call xs ys = xs ++ ys := by
  induction ys generalizing xs with
  | nil => simp [reduce]
  | cons y ys ih => simpa [reduce, snoc] using ih (xs ++ [y])

omit [DecidableEq V] in
theorem concat_snoc : Homomorphism (concat : Reducing (List V) (List V)) snoc where
  append xs ys := by
    rw [reduce_snoc, reduce_snoc, reduce_snoc]
    rfl
  zero xs := by simp [concat]

end

/-! A vector of ones, for the default of sixteen workers. -/

theorem noSize_number : (fun _ : Nat => (none : Option Nat)) 2 = none := rfl

/-- Numbers for the objects; 0 is `:eof`. -/
def numbers : Objects Nat where
  sxhash n := n
  eof := 0
  initialElement := 2
  nil := 3
  size _ := none
  size_initialElement := noSize_number

def ones (size : Nat) : Argument Nat := .vector (VecTrie.buildVecTFromList (List.replicate size 1))

theorem ones_has (size : Nat) : (ones size).Has (List.replicate size 1) :=
  VecTrie.buildVecTFromList_represents _

end Fol.Reducers
