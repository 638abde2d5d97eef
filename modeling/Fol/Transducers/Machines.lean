/-
Fol.Transducers.Machines — the machine of each transducer, and what it gives on a whole input:
what the sequence form gives.

`dedupe` and `partition-by` take the keyword `:none-yet` for no value at all. Their machines
give what the sequence forms give only where that keyword does not come first (`dedupe`), or
is not the key of an element before one with another key (`partition-by`).
-/
import Fol.Transducers.Simulation
import Fol.Transducers.Sequences

namespace Fol.Transducers

open Fol.Lib Fol.Lib.Mealy

variable {V : Type}

/-! ## §1 Passing on -/

section

variable (E : Values V)

theorem map_wraps (fn : V → V) (rf : RF V) :
    Wraps (each fun x => [fn x]) rf (map fn rf) (fun _ => ()) (fun p => p) where
  own_init := rfl
  inner_init := rfl
  step (p : rf.State) acc x := by simp [map, each, steady]
  complete (p : rf.State) acc := by simp [map, each, steady]
  cut _ := rfl

theorem mapcat_wraps (fn : V → V) (rf : RF V) :
    Wraps (each fun x => E.collectionSeq (fn x)) rf (mapcat E fn rf) (fun _ => ())
    (fun p => p) where
  own_init := rfl
  inner_init := rfl
  step (p : rf.State) acc x := by simp [mapcat, each, steady]
  complete (p : rf.State) acc := by simp [mapcat, each, steady]
  cut _ := rfl

theorem cat_wraps (rf : RF V) :
    Wraps (each E.collectionSeq) rf (cat E rf) (fun _ => ()) (fun p => p) where
  own_init := rfl
  inner_init := rfl
  step (p : rf.State) acc x := by simp [cat, each, steady]
  complete (p : rf.State) acc := by simp [cat, each, steady]
  cut _ := rfl

theorem filter_wraps (pred : V → V) (rf : RF V) :
    Wraps (each fun x => if E.truthy (pred x) then [x] else []) rf (filter E pred rf)
      (fun _ => ()) (fun p => p) where
  own_init := rfl
  inner_init := rfl
  step (p : rf.State) acc x := by cases h : E.truthy (pred x) <;> simp [filter, each, steady, h]
  complete (p : rf.State) acc := by simp [filter, each, steady]
  cut _ := rfl

theorem keep_wraps (fn : V → V) (rf : RF V) :
    Wraps (each fun x => if E.truthy (fn x) then [fn x] else []) rf (keep E fn rf)
      (fun _ => ()) (fun p => p) where
  own_init := rfl
  inner_init := rfl
  step (p : rf.State) acc x := by cases h : E.truthy (fn x) <;> simp [keep, each, steady, h]
  complete (p : rf.State) acc := by simp [keep, each, steady]
  cut _ := rfl

theorem takeWhile_wraps (pred : V → V) (rf : RF V) :
    Wraps (whileP fun x => E.truthy (pred x)) rf (takeWhile E pred rf) (fun _ => ())
    (fun p => p) where
  own_init := rfl
  inner_init := rfl
  step (p : rf.State) acc x := by cases h : E.truthy (pred x) <;> simp [takeWhile, whileP, h]
  complete (p : rf.State) acc := by simp [takeWhile, whileP]
  cut _ := rfl

@[simp] theorem truthy_complement (pred : V → V) (x : V) :
    E.truthy (E.complement pred x) = !E.truthy (pred x) := by
  cases h : E.truthy (pred x) <;> simp [Values.complement, h, E.truthy_nil, E.truthy_t]

theorem map_total (fn : V → V) (s : (each fun x => [fn x]).State) (seq : List V) :
    (each fun x => [fn x]).total s seq = Sequences.map fn seq := by
  rw [each_total, Sequences.map, List.map_eq_flatMap]

theorem mapcat_total (fn : V → V) (s : (each fun x => E.collectionSeq (fn x)).State)
    (seq : List V) :
    (each fun x => E.collectionSeq (fn x)).total s seq = Sequences.mapcat E fn seq := by
  rw [each_total, Sequences.mapcat, List.map_map, ← List.flatMap_def]
  rfl

theorem cat_total (s : (each E.collectionSeq).State) (seq : List V) :
    (each E.collectionSeq).total s seq = Sequences.cat E seq := by
  rw [each_total, Sequences.cat, ← List.flatMap_def]

theorem flatMap_test (p : V → Bool) (seq : List V) :
    (seq.flatMap fun x => if p x then [x] else []) = seq.filter p := by
  induction seq with
  | nil => rfl
  | cons x seq ih => cases h : p x <;> simp [h, ih]

theorem keep_total (fn : V → V) (s : (each fun x => if E.truthy (fn x) then [fn x] else []).State)
    (seq : List V) :
    (each fun x => if E.truthy (fn x) then [fn x] else []).total s seq =
      Sequences.keep E fn seq := by
  rw [each_total, Sequences.keep, ← flatMap_test, List.flatMap_map]

end

/-! ## §2 Counting -/

section

variable (E : Values V)

/-- `drop`: the state counts the dropped ones. -/
def dropMachine (V : Type) (n : Nat) : Mealy V V :=
  steady 0 (fun i _ => if i < n then i + 1 else i) (fun i x => if i < n then [] else [x])
    fun _ => []

/-- The transducers with an index: the state is the last one. -/
def indexedMachine (f : Int → V → List V) : Mealy V V :=
  steady (-1) (fun i _ => i + 1) (fun i x => f (i + 1) x) fun _ => []

theorem take_wraps (n : Nat) (rf : RF V) :
    Wraps (first V n) rf (take n rf) Prod.fst Prod.snd where
  own_init := rfl
  inner_init := rfl
  step p acc x := by
    by_cases h : p.1 < n
    case pos =>
      by_cases hlast : n ≤ p.1 + 1 <;> simp [take, first, h, hlast, Function.comp_def]
    case neg => simp [take, first, h]
  complete p acc := by simp [take, first]
  cut _ := rfl

theorem drop_wraps (n : Nat) (rf : RF V) :
    Wraps (dropMachine V n) rf (drop n rf) Prod.fst Prod.snd where
  own_init := rfl
  inner_init := rfl
  step p acc x := by
    by_cases h : p.1 < n <;> simp [drop, dropMachine, steady, h, Function.comp_def]
  complete p acc := by simp [drop, dropMachine, steady]
  cut _ := rfl

theorem mapIndexed_wraps (fn : Int → V → V) (rf : RF V) :
    Wraps (indexedMachine fun i x => [fn i x]) rf (mapIndexed fn rf) Prod.fst Prod.snd where
  own_init := rfl
  inner_init := rfl
  step p acc x := by simp [mapIndexed, indexedMachine, steady, Function.comp_def]
  complete p acc := by simp [mapIndexed, indexedMachine, steady]
  cut _ := rfl

theorem keepIndexed_wraps (fn : Int → V → V) (rf : RF V) :
    Wraps (indexedMachine fun i x => if E.truthy (fn i x) then [fn i x] else []) rf
      (keepIndexed E fn rf) Prod.fst Prod.snd where
  own_init := rfl
  inner_init := rfl
  step p acc x := by
    cases h : E.truthy (fn (p.1 + 1) x) <;>
      simp [keepIndexed, indexedMachine, steady, h, Function.comp_def]
  complete p acc := by simp [keepIndexed, indexedMachine, steady]
  cut _ := rfl

theorem takeNth_wraps (n : Nat) (rf : RF V) :
    Wraps (indexedMachine fun i x => if i % n = 0 then [x] else []) rf (takeNth n rf)
      Prod.fst Prod.snd where
  own_init := rfl
  inner_init := rfl
  step p acc x := by
    by_cases h : (p.1 + 1) % n = 0 <;>
      simp [takeNth, indexedMachine, steady, h, Function.comp_def]
  complete p acc := by simp [takeNth, indexedMachine, steady]
  cut _ := rfl

theorem take_total (n : Nat) (seq : List V) :
    (first V n).total (0 : Nat) seq = Sequences.take n seq := by
  rw [Sequences.take, ← List.take_eq_take_min]
  cases n with
  | zero => simp [first_zero_total]
  | succ n => rw [first_total (n + 1) 0 (by omega), Nat.sub_zero]

theorem drop_steady (n i : Nat) (seq : List V) :
    steadyTotal (fun i (_ : V) => if i < n then i + 1 else i)
      (fun i x => if i < n then [] else [x]) (fun _ => []) i seq = seq.drop (n - i) := by
  induction seq generalizing i with
  | nil => simp [steadyTotal]
  | cons x seq ih =>
    rw [steadyTotal, ih]
    by_cases h : i < n
    case pos =>
      have hmore : n - i = (n - (i + 1)) + 1 := by omega
      simp [h, hmore]
    case neg =>
      have hnone : n - i = 0 := by omega
      simp [h, hnone]

theorem drop_total (n : Nat) (seq : List V) :
    (dropMachine V n).total (0 : Nat) seq = Sequences.drop n seq :=
  (steady_total _ _ _ _ _ seq).trans (drop_steady n 0 seq)

theorem indexed_steady (f : Int → V → List V) (i : Int) (seq : List V) :
    steadyTotal (fun i (_ : V) => i + 1) (fun i x => f (i + 1) x) (fun _ => []) i seq =
      Sequences.indexed f (i + 1) seq := by
  induction seq generalizing i with
  | nil => rfl
  | cons x seq ih => rw [steadyTotal, ih, Sequences.indexed]

theorem indexed_total (f : Int → V → List V) (seq : List V) :
    (indexedMachine f).total (-1 : Int) seq = Sequences.indexed f 0 seq :=
  (steady_total _ _ _ _ _ seq).trans (indexed_steady f (-1) seq)

end

/-! ## §3 Remembering -/

section

variable (E : Values V)

/-- `drop-while`: the state is `dropping`. -/
def dropWhileMachine (pred : V → V) : Mealy V V :=
  steady true (fun dropping x => dropping && E.truthy (pred x))
    (fun dropping x => if dropping && E.truthy (pred x) then [] else [x]) fun _ => []

/-- `distinct`: the state is `seen`. -/
def distinctMachine : Mealy V V :=
  steady [] (fun seen x => if E.contains seen x then seen else seen ++ [x])
    (fun seen x => if E.contains seen x then [] else [x]) fun _ => []

/-- `dedupe`: the state is `prior`. -/
def dedupeMachine : Mealy V V :=
  steady E.noneYet (fun prior x => if E.equal prior x then prior else x)
    (fun prior x => if E.equal prior x then [] else [x]) fun _ => []

/-- `interpose`: the state is `started`. -/
def interposeMachine (sep : V) : Mealy V V :=
  steady false (fun _ _ => true) (fun started x => if started then [sep, x] else [x])
    fun _ => []

theorem dropWhile_wraps (pred : V → V) (rf : RF V) :
    Wraps (dropWhileMachine E pred) rf (dropWhile E pred rf) Prod.fst Prod.snd where
  own_init := rfl
  inner_init := rfl
  step := by
    rintro ⟨dropping, s⟩ acc x
    cases dropping <;> cases h : E.truthy (pred x) <;>
      simp [dropWhile, dropWhileMachine, steady, h, Function.comp_def]
  complete p acc := by simp [dropWhile, dropWhileMachine, steady]
  cut _ := rfl

theorem distinct_wraps (rf : RF V) :
    Wraps (distinctMachine E) rf (distinct E rf) Prod.fst Prod.snd where
  own_init := rfl
  inner_init := rfl
  step p acc x := by
    cases h : E.contains p.1 x <;> simp [distinct, distinctMachine, steady, h, Function.comp_def]
  complete p acc := by simp [distinct, distinctMachine, steady]
  cut _ := rfl

theorem dedupe_wraps (rf : RF V) :
    Wraps (dedupeMachine E) rf (dedupe E rf) Prod.fst Prod.snd where
  own_init := rfl
  inner_init := rfl
  step p acc x := by
    cases h : E.equal p.1 x <;> simp [dedupe, dedupeMachine, steady, h, Function.comp_def]
  complete p acc := by simp [dedupe, dedupeMachine, steady]
  cut _ := rfl

theorem interpose_wraps (sep : V) (rf : RF V) :
    Wraps (interposeMachine sep) rf (interpose sep rf) Prod.fst Prod.snd where
  own_init := rfl
  inner_init := rfl
  step := by
    rintro ⟨started, s⟩ acc x
    cases started with
    | false => simp [interpose, interposeMachine, steady, Function.comp_def]
    | true =>
      cases hsep : rf.step s acc sep with
      | none => simp [interpose, interposeMachine, steady, feed, hsep]
      | some q =>
        cases hred : q.2.isReduced <;>
          simp [interpose, interposeMachine, steady, feed, hsep, hred, Function.comp_def]
        cases rf.step q.1 q.2 x <;> simp
  complete p acc := by simp [interpose, interposeMachine, steady]
  cut _ := rfl

theorem dropWhile_false (pred : V → V) (seq : List V) :
    steadyTotal (fun dropping x => dropping && E.truthy (pred x))
      (fun dropping x => if dropping && E.truthy (pred x) then [] else [x]) (fun _ => [])
      false seq = seq := by
  induction seq with
  | nil => rfl
  | cons x seq ih => simpa [steadyTotal] using ih

theorem dropWhile_steady (pred : V → V) (seq : List V) :
    steadyTotal (fun dropping x => dropping && E.truthy (pred x))
      (fun dropping x => if dropping && E.truthy (pred x) then [] else [x]) (fun _ => [])
      true seq = Sequences.dropWhile E pred seq := by
  induction seq with
  | nil => rfl
  | cons x seq ih =>
    rw [steadyTotal, Sequences.dropWhile]
    cases h : E.truthy (pred x) with
    | true => simpa using ih
    | false => simpa using dropWhile_false E pred seq

theorem dropWhile_total (pred : V → V) (seq : List V) :
    (dropWhileMachine E pred).total true seq = Sequences.dropWhile E pred seq :=
  (steady_total _ _ _ _ _ seq).trans (dropWhile_steady E pred seq)

theorem distinct_steady (seen seq : List V) :
    steadyTotal (fun seen x => if E.contains seen x then seen else seen ++ [x])
      (fun seen x => if E.contains seen x then [] else [x]) (fun _ => []) seen seq =
      Sequences.distinctLoop E seen seq := by
  induction seq generalizing seen with
  | nil => rfl
  | cons x seq ih =>
    rw [steadyTotal, Sequences.distinctLoop, ih]
    cases E.contains seen x <;> simp

theorem distinct_total (seq : List V) :
    (distinctMachine E).total ([] : List V) seq = Sequences.distinct E seq :=
  (steady_total _ _ _ _ _ seq).trans (distinct_steady E [] seq)

theorem dedupe_steady (prior : V) (seq : List V) :
    steadyTotal (fun prior x => if E.equal prior x then prior else x)
      (fun prior x => if E.equal prior x then [] else [x]) (fun _ => []) prior seq =
      Sequences.dedupeLoop E (some prior) seq := by
  induction seq generalizing prior with
  | nil => rfl
  | cons x seq ih =>
    rw [steadyTotal, Sequences.dedupeLoop, ih, E.equal_comm prior x]
    cases E.equal x prior <;> simp

/-- Not so where the input starts with `:none-yet`: the transducer drops it. -/
theorem dedupe_total (seq : List V) (h : ∀ x ∈ seq.head?, E.equal E.noneYet x = false) :
    (dedupeMachine E).total E.noneYet seq = Sequences.dedupe E seq := by
  refine (steady_total _ _ _ _ _ seq).trans ?_
  cases seq with
  | nil => rfl
  | cons x seq =>
    have hx : E.equal E.noneYet x = false := h x rfl
    rw [steadyTotal, hx, dedupe_steady]
    rfl

theorem interpose_true (sep : V) (seq : List V) :
    steadyTotal (fun _ _ => true) (fun started x => if started then [sep, x] else [x])
      (fun _ => []) true seq = seq.flatMap fun elem => [sep, elem] := by
  induction seq with
  | nil => rfl
  | cons x seq ih => simp [steadyTotal, ih]

theorem interpose_total (sep : V) (seq : List V) :
    (interposeMachine sep).total false seq = Sequences.interpose sep seq := by
  refine (steady_total _ _ _ _ _ seq).trans ?_
  cases seq with
  | nil => rfl
  | cons x seq => simp [steadyTotal, interpose_true, Sequences.interpose]

end

/-! ## §4 Buffering -/

section

variable (E : Values V)

def flushBuffer (buffer : List V) : List V := if buffer.length > 0 then [E.vec buffer] else []

/-- `partition-all`: the state is `buffer`. -/
def partitionAllMachine (n : Nat) : Mealy V V :=
  steady [] (fun buffer x => if (buffer ++ [x]).length = n then [] else buffer ++ [x])
    (fun buffer x => if (buffer ++ [x]).length = n then [E.vec (buffer ++ [x])] else [])
    (flushBuffer E)

/-- `partition-by`: the state is `buffer` and `prior`. -/
def partitionByMachine (fn : V → V) : Mealy V V :=
  steady ([], E.noneYet)
    (fun p x =>
      if E.equal p.2 E.noneYet then (p.1 ++ [x], fn x)
      else if E.equal (fn x) p.2 then (p.1 ++ [x], p.2)
      else ([x], fn x))
    (fun p x =>
      if E.equal p.2 E.noneYet then []
      else if E.equal (fn x) p.2 then []
      else [E.vec p.1])
    fun p => flushBuffer E p.1

theorem completeBuffer_eq (rf : RF V) (buffer : List V) (s : rf.State) (acc : Acc V) :
    completeBuffer E rf buffer s acc =
      (feed rf s acc (flushBuffer E buffer)).bind fun q => rf.complete q.1 q.2 := by
  by_cases h : buffer.length > 0
  case pos =>
    cases hstep : rf.step s acc (E.vec buffer) <;> simp [completeBuffer, flushBuffer, h, hstep]
  case neg => simp [completeBuffer, flushBuffer, h]

theorem partitionAll_wraps (n : Nat) (rf : RF V) :
    Wraps (partitionAllMachine E n) rf (partitionAll E n rf) Prod.fst Prod.snd where
  own_init := rfl
  inner_init := rfl
  step p acc x := by
    by_cases h : (p.1 ++ [x]).length = n <;>
      simp only [partitionAll, partitionAllMachine, steady, h, if_true, if_false] <;>
      simp [Function.comp_def]
  complete p acc := completeBuffer_eq E rf p.1 p.2 acc
  cut _ := rfl

theorem partitionBy_wraps (fn : V → V) (rf : RF V) :
    Wraps (partitionByMachine E fn) rf (partitionBy E fn rf) Prod.fst Prod.snd where
  own_init := rfl
  inner_init := rfl
  step p acc x := by
    cases hnone : E.equal p.1.2 E.noneYet <;> cases hkey : E.equal (fn x) p.1.2 <;>
      simp [partitionBy, partitionByMachine, steady, hnone, hkey, Function.comp_def]
  complete p acc := completeBuffer_eq E rf p.1.1 p.2 acc
  cut _ := rfl

theorem groups_of_ne_nil {n : Nat} (hn : 0 < n) {seq : List V} (h : seq ≠ []) :
    Sequences.groups E.vec n hn seq =
      E.vec (seq.take n) :: Sequences.groups E.vec n hn (seq.drop n) := by
  cases seq with
  | nil => exact absurd rfl h
  | cons x xs => rw [Sequences.groups]

theorem flushBuffer_eq_groups {n : Nat} (hn : 0 < n) {buffer : List V} (h : buffer.length < n) :
    flushBuffer E buffer = Sequences.groups E.vec n hn buffer := by
  cases buffer with
  | nil => simp [flushBuffer, Sequences.groups]
  | cons x xs =>
    rw [groups_of_ne_nil E hn (by simp), List.take_of_length_le (Nat.le_of_lt h),
      List.drop_of_length_le (Nat.le_of_lt h)]
    simp [flushBuffer, Sequences.groups]

theorem partitionAll_steady {n : Nat} (hn : 0 < n) (seq buffer : List V)
    (h : buffer.length < n) :
    steadyTotal (fun buffer x => if (buffer ++ [x]).length = n then [] else buffer ++ [x])
      (fun buffer x => if (buffer ++ [x]).length = n then [E.vec (buffer ++ [x])] else [])
      (flushBuffer E) buffer seq = Sequences.groups E.vec n hn (buffer ++ seq) := by
  induction seq generalizing buffer with
  | nil => rw [List.append_nil, steadyTotal, flushBuffer_eq_groups E hn h]
  | cons x seq ih =>
    have hsplit : buffer ++ x :: seq = (buffer ++ [x]) ++ seq := by simp
    rw [steadyTotal, hsplit]
    by_cases hfull : (buffer ++ [x]).length = n
    case pos =>
      have hne : (buffer ++ [x]) ++ seq ≠ [] := by simp
      rw [if_pos hfull, if_pos hfull, ih [] hn, groups_of_ne_nil E hn hne,
        List.take_left' hfull, List.drop_left' hfull]
      rfl
    case neg =>
      have hless : (buffer ++ [x]).length < n := by
        simp only [List.length_append, List.length_singleton] at hfull ⊢
        omega
      rw [if_neg hfull, if_neg hfull, ih _ hless]
      rfl

/-- No group of `partition-all` asks for a filled vector. -/
def GroupsPlain (n : Nat) (hn : 0 < n) (seq : List V) : Prop :=
  ∀ g ∈ Sequences.groups id n hn seq, E.Plain g

theorem partitionAll_total {n : Nat} (hn : 0 < n) (seq : List V) (h : GroupsPlain E n hn seq) :
    (partitionAllMachine E n).total ([] : List V) seq = Sequences.partitionAll E n hn seq := by
  refine (steady_total _ _ _ _ _ seq).trans ((partitionAll_steady E hn seq [] hn).trans ?_)
  rw [List.nil_append, Sequences.partitionAll, Sequences.groups_map, Sequences.groups_map E.makeVec]
  exact List.map_congr_left fun g hg => E.vec_of_plain (h g hg)

/-- No element with the key `:none-yet` comes before one with another key. -/
def KeysTold (fn : V → V) (seq : List V) : Prop :=
  seq.IsChain fun a b => E.equal (fn a) E.noneYet = true → E.equal (fn b) (fn a) = true

/-- No group of `partition-by` asks for a filled vector. -/
def KeyGroupsPlain (fn : V → V) (seq : List V) : Prop :=
  ∀ g ∈ Sequences.partitionLoop E id fn [] none seq, E.Plain g

/-- `prior` is the key of the first element of the group, `key` that of the last one. -/
theorem partitionBy_steady (fn : V → V) (seq buffer : List V) (prior : V) (y : V)
    (hkey : E.equal (fn y) prior = true) (h : KeysTold E fn (y :: seq)) :
    steadyTotal
      (fun p x =>
        if E.equal p.2 E.noneYet then (p.1 ++ [x], fn x)
        else if E.equal (fn x) p.2 then (p.1 ++ [x], p.2)
        else ([x], fn x))
      (fun p x =>
        if E.equal p.2 E.noneYet then []
        else if E.equal (fn x) p.2 then []
        else [E.vec p.1])
      (fun p : List V × V => flushBuffer E p.1) (buffer, prior) seq =
      Sequences.partitionLoop E E.vec fn buffer (some (fn y)) seq := by
  induction seq generalizing buffer prior y with
  | nil => cases buffer <;> simp [steadyTotal, Sequences.partitionLoop, flushBuffer]
  | cons x seq ih =>
    obtain ⟨htold, hrest⟩ := List.isChain_cons_cons.mp h
    rw [steadyTotal, Sequences.partitionLoop]
    cases hnone : E.equal prior E.noneYet with
    | true =>
      -- taken for no prior key: the element joins the group, and here it belongs there
      have hsame : E.equal (fn x) (fn y) = true := htold (E.equal_trans hkey hnone)
      simpa [hsame] using ih (buffer ++ [x]) (fn x) x (E.equal_refl _) hrest
    | false =>
      cases hx : E.equal (fn x) prior with
      | true =>
        have hsame : E.equal (fn x) (fn y) = true :=
          E.equal_trans hx ((E.equal_comm _ _).trans hkey)
        simpa [hsame] using ih (buffer ++ [x]) prior x hx hrest
      | false =>
        have hother : E.equal (fn x) (fn y) = false := by
          cases hsame : E.equal (fn x) (fn y) with
          | false => rfl
          | true => exact absurd (E.equal_trans hsame hkey) (by simp [hx])
        simpa [hother] using ih [x] (fn x) x (E.equal_refl _) hrest

/-- Not so where an element with the key `:none-yet` comes before one with another key: the
transducer leaves both in one group. -/
theorem partitionBy_total (fn : V → V) (seq : List V) (h : KeysTold E fn seq)
    (hplain : KeyGroupsPlain E fn seq) :
    (partitionByMachine E fn).total ([], E.noneYet) seq = Sequences.partitionBy E fn seq := by
  have hvec : Sequences.partitionBy E fn seq = Sequences.partitionLoop E E.vec fn [] none seq := by
    rw [Sequences.partitionBy, Sequences.partitionLoop_map, Sequences.partitionLoop_map E E.vec]
    exact List.map_congr_left fun g hg => (E.vec_of_plain (hplain g hg)).symm
  refine (steady_total _ _ _ _ _ seq).trans (Eq.trans ?_ hvec.symm)
  cases seq with
  | nil => simp [steadyTotal, Sequences.partitionLoop, flushBuffer]
  | cons x seq =>
    have hrest := partitionBy_steady E fn seq [x] (fn x) x (E.equal_refl _) h
    simpa [steadyTotal, Sequences.partitionLoop, E.equal_refl] using hrest

end

end Fol.Transducers
