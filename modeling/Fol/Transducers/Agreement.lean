/-
Fol.Transducers.Agreement — transducers against the sequence functions.

A stage is one call of a function in either form. `into` with the composition of the
transducers is compared with the sequence forms applied one after the other.

They part in two ways. A stage that stops the reduction (`take`, `take-while`) leaves what the
stages after it hold (`partition-all`, `partition-by`) where it is: `transduce` completes
nothing once an answer was reduced. And on completion a buffering stage passes its last group
on without looking whether the answer is reduced, so that a wrapper reaches the end.
-/
import Fol.Transducers.Machines
import Mathlib.Data.List.TakeWhile

namespace Fol.Transducers

open Fol.Lib

variable {V : Type}

/-! ## §1 Stages -/

/-- The arguments are those that both forms accept. -/
inductive Stage (V : Type) where
  | map (fn : V → V)
  | mapcat (fn : V → V)
  | cat
  | filter (pred : V → V)
  | remove (pred : V → V)
  | keep (fn : V → V)
  | take (n : Nat)
  | drop (n : Nat)
  | takeWhile (pred : V → V)
  | dropWhile (pred : V → V)
  | mapIndexed (fn : Int → V → V)
  | keepIndexed (fn : Int → V → V)
  | distinct
  | dedupe
  | partitionAll (n : Nat) (hn : 0 < n)
  | partitionBy (fn : V → V)
  | interpose (sep : V)
  | takeNth (n : Nat) (hn : 0 < n)

namespace Stage

def xform (E : Values V) : Stage V → RF V → RF V
  | map fn => Transducers.map fn
  | mapcat fn => Transducers.mapcat E fn
  | cat => Transducers.cat E
  | filter pred => Transducers.filter E pred
  | remove pred => Transducers.remove E pred
  | keep fn => Transducers.keep E fn
  | take n => Transducers.take n
  | drop n => Transducers.drop n
  | takeWhile pred => Transducers.takeWhile E pred
  | dropWhile pred => Transducers.dropWhile E pred
  | mapIndexed fn => Transducers.mapIndexed fn
  | keepIndexed fn => Transducers.keepIndexed E fn
  | distinct => Transducers.distinct E
  | dedupe => Transducers.dedupe E
  | partitionAll n _ => Transducers.partitionAll E n
  | partitionBy fn => Transducers.partitionBy E fn
  | interpose sep => Transducers.interpose sep
  | takeNth n _ => Transducers.takeNth n

def form (E : Values V) : Stage V → List V → List V
  | map fn => Sequences.map fn
  | mapcat fn => Sequences.mapcat E fn
  | cat => Sequences.cat E
  | filter pred => Sequences.filter E pred
  | remove pred => Sequences.remove E pred
  | keep fn => Sequences.keep E fn
  | take n => Sequences.take n
  | drop n => Sequences.drop n
  | takeWhile pred => Sequences.takeWhile E pred
  | dropWhile pred => Sequences.dropWhile E pred
  | mapIndexed fn => Sequences.mapIndexed fn
  | keepIndexed fn => Sequences.keepIndexed E fn
  | distinct => Sequences.distinct E
  | dedupe => Sequences.dedupe E
  | partitionAll n hn => Sequences.partitionAll E n hn
  | partitionBy fn => Sequences.partitionBy E fn
  | interpose sep => Sequences.interpose sep
  | takeNth n _ => Sequences.takeNth n

end Stage

/-- The sequence forms, each on the vector that the one before it made. -/
def applyForms (E : Values V) : List (Stage V) → List V → List V
  | [], coll => coll
  | x :: rest, coll => applyForms E rest (x.form E (E.vectorSeq coll))

/-! ## §2 Machines -/

section

variable (E : Values V)

def Stage.machine : Stage V → Mealy.{0, 0, 0} V V
  | map fn => .each fun x => [fn x]
  | mapcat fn => .each fun x => E.collectionSeq (fn x)
  | cat => .each E.collectionSeq
  | filter pred => .each fun x => if E.truthy (pred x) then [x] else []
  | remove pred => .each fun x => if E.truthy (E.complement pred x) then [x] else []
  | keep fn => .each fun x => if E.truthy (fn x) then [fn x] else []
  | take n => .first V n
  | drop n => dropMachine V n
  | takeWhile pred => .whileP fun x => E.truthy (pred x)
  | dropWhile pred => dropWhileMachine E pred
  | mapIndexed fn => indexedMachine fun i x => [fn i x]
  | keepIndexed fn => indexedMachine fun i x => if E.truthy (fn i x) then [fn i x] else []
  | distinct => distinctMachine E
  | dedupe => dedupeMachine E
  | partitionAll n _ => partitionAllMachine E n
  | partitionBy fn => partitionByMachine E fn
  | interpose sep => interposeMachine sep
  | takeNth n _ => indexedMachine fun i x => if i % n = 0 then [x] else []

def chain : List (Stage V) → Mealy.{0, 0, 0} V V
  | [] => .skip V
  | x :: rest => (x.machine E).comp (chain rest)

theorem Stage.wraps (x : Stage V) (rf : RF V) :
    ∃ own inner, Wraps (x.machine E) rf (x.xform E rf) own inner := by
  cases x with
  | map fn => exact ⟨_, _, map_wraps fn rf⟩
  | mapcat fn => exact ⟨_, _, mapcat_wraps E fn rf⟩
  | cat => exact ⟨_, _, cat_wraps E rf⟩
  | filter pred => exact ⟨_, _, filter_wraps E pred rf⟩
  | remove pred => exact ⟨_, _, filter_wraps E (E.complement pred) rf⟩
  | keep fn => exact ⟨_, _, keep_wraps E fn rf⟩
  | take n => exact ⟨_, _, take_wraps n rf⟩
  | drop n => exact ⟨_, _, drop_wraps n rf⟩
  | takeWhile pred => exact ⟨_, _, takeWhile_wraps E pred rf⟩
  | dropWhile pred => exact ⟨_, _, dropWhile_wraps E pred rf⟩
  | mapIndexed fn => exact ⟨_, _, mapIndexed_wraps fn rf⟩
  | keepIndexed fn => exact ⟨_, _, keepIndexed_wraps E fn rf⟩
  | distinct => exact ⟨_, _, distinct_wraps E rf⟩
  | dedupe => exact ⟨_, _, dedupe_wraps E rf⟩
  | partitionAll n hn => exact ⟨_, _, partitionAll_wraps E n rf⟩
  | partitionBy fn => exact ⟨_, _, partitionBy_wraps E fn rf⟩
  | interpose sep => exact ⟨_, _, interpose_wraps sep rf⟩
  | takeNth n hn => exact ⟨_, _, takeNth_wraps n rf⟩

@[simp] theorem comp_cons {α : Type 1} (f : α → α) (fs : List (α → α)) (a : α) :
    comp (f :: fs) a = f (comp fs a) := by
  cases fs with
  | nil => rfl
  | cons g fs => rfl

theorem simulates_chain (stages : List (Stage V)) :
    ∃ rel, Simulates (comp (stages.map (Stage.xform E)) (completing conj)) (chain E stages)
      rel := by
  induction stages with
  | nil => exact ⟨_, simulates_conj⟩
  | cons x rest ih =>
    obtain ⟨rel, hrest⟩ := ih
    obtain ⟨own, inner, hx⟩ := x.wraps E (comp (rest.map (Stage.xform E)) (completing conj))
    rw [List.map_cons, comp_cons]
    exact ⟨_, hx.simulates hrest⟩

/-! ## §3 Agreement -/

/-- The input holds no sentinel of this stage where the stage would take it for one, and no group of
it asks `vec` for a filled vector. -/
def Stage.Suits : Stage V → List V → Prop
  | dedupe, seq => ∀ x ∈ seq.head?, E.equal E.noneYet x = false
  | partitionAll n hn, seq => GroupsPlain E n hn seq
  | partitionBy fn, seq => KeysTold E fn seq ∧ KeyGroupsPlain E fn seq
  | _, _ => True

/-- No intermediate result has an element that is taken for a sentinel: `:eof` by the iterator of
vectors, `:none-yet` by `dedupe` and `partition-by`, `:initial-element` in a group of two by
`vec`. -/
def Clean : List (Stage V) → List V → Prop
  | [], _ => True
  | x :: rest, coll =>
    (∀ y ∈ coll, E.equal y E.eof = false) ∧ x.Suits E coll ∧ Clean rest (x.form E coll)

/-- Where a stage stops the reduction, completing the stages would give nothing more; where
none does, no group passed on at completion makes a stage stop. -/
def Spared (stages : List (Stage V)) (coll : List V) : Prop :=
  let m := chain E stages
  let r := m.run m.init coll
  (r.stop = true → m.flush r.state = []) ∧ (r.stop = false → m.cut r.state = false)

/-- `into` gives what the sequence forms give, and that is no reduced wrapper. -/
def Agrees (stages : List (Stage V)) (coll : List V) : Prop :=
  into E [] (comp (stages.map (Stage.xform E))) coll = some (.val (applyForms E stages coll))

theorem remove_total (pred : V → V)
    (s : (Mealy.each fun x => if E.truthy (E.complement pred x) then [x] else []).State)
    (seq : List V) :
    (Mealy.each fun x => if E.truthy (E.complement pred x) then [x] else []).total s seq =
      Sequences.remove E pred seq := by
  rw [Mealy.each_total, flatMap_test, Sequences.remove]
  simp only [truthy_complement]

theorem Stage.total (x : Stage V) {seq : List V} (h : x.Suits E seq) :
    (x.machine E).total (x.machine E).init seq = x.form E seq := by
  cases x with
  | map fn => exact map_total fn _ seq
  | mapcat fn => exact mapcat_total E fn _ seq
  | cat => exact cat_total E _ seq
  | filter pred => exact (Mealy.each_total _ _ seq).trans (flatMap_test _ seq)
  | remove pred => exact remove_total E pred _ seq
  | keep fn => exact keep_total E fn _ seq
  | take n => exact take_total n seq
  | drop n => exact drop_total n seq
  | takeWhile pred => exact Mealy.whileP_total _ _ seq
  | dropWhile pred => exact dropWhile_total E pred seq
  | mapIndexed fn => exact indexed_total (fun i x => [fn i x]) seq
  | keepIndexed fn =>
    exact indexed_total (fun i x => if E.truthy (fn i x) then [fn i x] else []) seq
  | distinct => exact distinct_total E seq
  | dedupe => exact dedupe_total E seq h
  | partitionAll n hn => exact partitionAll_total E hn seq h
  | partitionBy fn => exact partitionBy_total E fn seq h.1 h.2
  | interpose sep => exact interpose_total sep seq
  | takeNth n hn => exact indexed_total (fun i x => if i % n = 0 then [x] else []) seq

theorem vectorSeq_of_whole {coll : List V} (h : ∀ y ∈ coll, E.equal y E.eof = false) :
    E.vectorSeq coll = coll :=
  List.takeWhile_eq_self_iff.mpr fun y hy => by simp [h y hy]

theorem vectorSeq_idem (coll : List V) : E.vectorSeq (E.vectorSeq coll) = E.vectorSeq coll :=
  vectorSeq_of_whole E fun y hy => by simpa using List.mem_takeWhile_imp hy

theorem chain_total (stages : List (Stage V)) {coll : List V} (h : Clean E stages coll) :
    (chain E stages).total (chain E stages).init coll = applyForms E stages coll := by
  induction stages generalizing coll with
  | nil => exact Mealy.skip_total _ coll
  | cons x rest ih =>
    obtain ⟨hwhole, hsuits, hrest⟩ := h
    refine (Mealy.comp_total _ _ _ _ coll).trans ?_
    rw [x.total E hsuits, ih hrest, applyForms, vectorSeq_of_whole E hwhole]

end

/-- Integers, the two booleans, keywords, and vectors of integers. -/
inductive Datum where
  | nil
  | t
  | int (n : Int)
  | keyword (name : String)
  | vector (elements : List Int)
deriving DecidableEq

def Datum.toInt : Datum → Option Int
  | int n => some n
  | _ => none

def datums : Values Datum where
  nil := .nil
  t := .t
  truthy x := decide (x ≠ .nil)
  makeVec xs := .vector (xs.filterMap Datum.toInt)
  filled
    | .int n => .vector (List.replicate n.toNat 0)
    | _ => .nil
  collectionSeq
    | .vector xs => xs.map .int
    | _ => []
  equal x y := decide (x = y)
  noneYet := .keyword "none-yet"
  eof := .keyword "eof"
  initialElement := .keyword "initial-element"
  truthy_nil := by decide
  truthy_t := by decide
  equal_refl x := by simp
  equal_comm x y := by simp [eq_comm]
  equal_trans := by
    intro x y z hxy hyz
    simp only [decide_eq_true_eq] at hxy hyz ⊢
    exact hxy.trans hyz

section

variable (E : Values V)

/-- The stages that may hold a group back. -/
def Stage.Buffers : Stage V → Bool
  | partitionAll _ _ => true
  | partitionBy _ => true
  | _ => false

/-- The stages that may stop the reduction. -/
def Stage.Stops : Stage V → Bool
  | take _ => true
  | takeWhile _ => true
  | _ => false

theorem Stage.machine_cut (x : Stage V) (s : (x.machine E).State) :
    (x.machine E).cut s = false := by
  cases x <;> rfl

theorem Stage.machine_flush {x : Stage V} (h : x.Buffers = false) (s : (x.machine E).State) :
    (x.machine E).flush s = [] := by
  cases x <;> first | rfl | cases h

theorem Stage.machine_stop {x : Stage V} (h : x.Stops = false) (s : (x.machine E).State) (y : V) :
    ((x.machine E).step s y).stop = false := by
  cases x <;> first | rfl | cases h

theorem chain_unbuffered {stages : List (Stage V)} (h : ∀ x ∈ stages, x.Buffers = false)
    (s : (chain E stages).State) :
    (chain E stages).flush s = [] ∧ (chain E stages).cut s = false := by
  induction stages with
  | nil => exact ⟨rfl, rfl⟩
  | cons x rest ih =>
    obtain ⟨s, t, b⟩ := s
    have hx := x.machine_flush E (h x List.mem_cons_self) s
    obtain ⟨hflush, hcut⟩ := ih (fun y hy => h y (List.mem_cons_of_mem _ hy)) t
    constructor
    · cases b <;> simp [chain, Mealy.comp, hx, hflush]
    · simp [chain, Mealy.comp, hx, hcut, x.machine_cut]

theorem chain_unstopped {stages : List (Stage V)} (h : ∀ x ∈ stages, x.Stops = false)
    (s : (chain E stages).State) :
    (∀ y, ((chain E stages).step s y).stop = false) ∧ (chain E stages).cut s = false := by
  induction stages with
  | nil => exact ⟨fun _ => rfl, rfl⟩
  | cons x rest ih =>
    obtain ⟨s, t, b⟩ := s
    have hrest := ih fun y hy => h y (List.mem_cons_of_mem _ hy)
    have hrun := Mealy.run_stop_eq_false (chain E rest) fun t => (hrest t).1
    have hstep := x.machine_stop E (h x List.mem_cons_self)
    constructor
    · intro y
      simp [chain, Mealy.comp, hrun, hstep]
    · simp [chain, Mealy.comp, hrun, x.machine_cut, (hrest _).2]

theorem spared_of_unbuffered {stages : List (Stage V)} (h : ∀ x ∈ stages, x.Buffers = false)
    (coll : List V) : Spared E stages coll :=
  ⟨fun _ => (chain_unbuffered E h _).1, fun _ => (chain_unbuffered E h _).2⟩

theorem spared_of_unstopped {stages : List (Stage V)} (h : ∀ x ∈ stages, x.Stops = false)
    (coll : List V) : Spared E stages coll := by
  have hrun := Mealy.run_stop_eq_false (chain E stages) (fun s => (chain_unstopped E h s).1)
    (chain E stages).init coll
  exact ⟨fun hstop => absurd hstop (by simp [hrun]), fun _ => (chain_unstopped E h _).2⟩

end

end Fol.Transducers
