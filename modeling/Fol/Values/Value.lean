/-
Fol.Values.Value — nested values, `%=` of compareops.lisp and collection-functions.lisp, and
`equal?` of primitive-functions.lisp.

`EQUAL` compares atoms (numbers, strings, characters, symbols) by content and collections and
objects by identity. The tries of `<dict>`, `<set>` and `<bag>` find their keys by it, so such a
collection is here the list of its entries as its trie is walked, and a lookup finds the first entry
with an `EQUAL` key.
-/
import Fol.Lib.Lookup

namespace Fol.Values

variable {α β : Type}

/-! ## §1 Values -/

/-- The atoms that the methods know. -/
structure Atoms (α : Type) where
  nil : α
  t : α
  eof : α
  number : Nat → α
  t_ne_nil : t ≠ nil
  eof_ne_nil : eof ≠ nil
  eof_ne_t : eof ≠ t
  number_ne_nil (n : Nat) : number n ≠ nil

inductive SeqClass where
  | vector
  | deque
  | list
deriving DecidableEq

/-- What `EQUAL` compares of a value. -/
inductive Key (α : Type) where
  | atom (a : α)
  | ref (id : Nat)
deriving DecidableEq

instance [DecidableEq α] (k : Key α) (ks : List (Key α)) : Decidable (k ∈ ks) := inferInstance

/-- The slots of an object are those of its class, `none` where unbound. -/
inductive Value (α : Type) where
  | atom (a : α)
  | seq (cls : SeqClass) (id : Nat) (elements : List (Value α))
  | dict (id : Nat) (entries : List (Value α × Value α))
  | set (id : Nat) (elements : List (Value α))
  | bag (id : Nat) (counts : List (Value α × Nat))
  | object (id : Nat) (cls : Nat) (slots : List (Option (Value α)))

def Value.key : Value α → Key α
  | .atom a => .atom a
  | .seq _ id _ => .ref id
  | .dict id _ => .ref id
  | .set id _ => .ref id
  | .bag id _ => .ref id
  | .object id _ _ => .ref id

inductive Class where
  | seq (cls : SeqClass)
  | dict
  | set
  | bag
  | object
deriving DecidableEq

/-- The classes of `<dict-mixin>`. -/
def Class.keyed : Class → Bool
  | .dict => true
  | .set => true
  | .bag => true
  | _ => false

/-- An atom has none here. -/
def Value.cls : Value α → Option Class
  | .atom _ => none
  | .seq cls _ _ => some (.seq cls)
  | .dict _ _ => some .dict
  | .set _ _ => some .set
  | .bag _ _ => some .bag
  | .object _ _ _ => some .object

@[simp] theorem key_eq_atom {v : Value α} {a : α} : v.key = .atom a ↔ v = .atom a := by
  cases v <;> simp [Value.key]

/-! ## §2 Seqs -/

/-- An element of a `collection-seq`: the cons of an entry, or an element. -/
inductive Item (α : Type) where
  | pair (key value : Value α)
  | elem (x : Value α)

section

variable [DecidableEq α] (A : Atoms α)

/-- `car`; an element is no list, unless it is NIL. -/
def Item.car : Item α → Option (Value α)
  | .pair key _ => some key
  | .elem x => if x.key = .atom A.nil then some (.atom A.nil) else none

def Item.cdr : Item α → Option (Value α)
  | .pair _ value => some value
  | .elem x => if x.key = .atom A.nil then some (.atom A.nil) else none

/-- The elements of the `collection-seq`: that of a vector ends at `:eof`. -/
def listed (cls : SeqClass) (xs : List (Value α)) : List (Value α) :=
  if cls = .vector then xs.takeWhile fun x => x.key ≠ .atom A.eof else xs

/-- Each key as often as it is counted. -/
def expand {β : Type} (counts : List (β × Nat)) : List β :=
  counts.flatMap fun c => List.replicate c.2 c.1

/-- `size` and `collection-seq` of a collection with a trie. -/
def keyedItems : Value α → Option (Nat × List (Item α))
  | .dict _ es => some (es.length, es.map fun e => .pair e.1 e.2)
  | .set _ xs => some (xs.length, xs.map .elem)
  | .bag _ cs => some ((expand cs).length, (expand cs).map .elem)
  | _ => none

/-- `collection-size` and `collection-seq`. -/
def items : Value α → Option (Nat × List (Item α))
  | .seq cls _ xs => some (xs.length, (listed A cls xs).map .elem)
  | v => keyedItems v

/-! ## §3 %= -/

/-- `cl:every`; `none` is an error. -/
def every (p : β → Option Bool) : List β → Option Bool
  | [] => some true
  | x :: xs =>
    match p x with
    | some true => every p xs
    | r => r

/-- `%=` with its first argument given. -/
abbrev Test (α : Type) := Value α → Option Bool

def atomTest (a : α) : Test α := fun b => some (b.key = .atom a)

/-- The methods for `<vector>`, `<deque>` and `<list>`, given the size and the tests of the seq. -/
def seqTest (cls : SeqClass) (size : Nat) (tests : List (Test α)) : Test α
  | .seq cls' _ ys =>
    if cls = cls' ∧ size = ys.length then every (fun p => p.1 p.2) (tests.zip (listed A cls' ys))
      else some false
  | _ => some false

/-- The lambda of the method for `<dict-mixin>`. -/
def pairTest (found : List (Key α × Test α)) (item : Item α) : Option Bool :=
  match item.car A with
  | none => none
  | some key =>
    match found.lookup key.key with
    | none => some false
    | some test => (item.cdr A).bind test

/-- The method for `<dict-mixin>`, given what `get` finds in the first argument. -/
def mixinTest (size : Nat) (found : List (Key α × Test α)) : Test α := fun b =>
  match keyedItems b with
  | none => some false
  | some (size', seq) => if size = size' then every (pairTest A found) seq else some false

/-- The method for `<set>`. -/
def setTest (xs ys : List (Value α)) : Bool :=
  xs.length = ys.length ∧ ys.all fun y => y.key ∈ xs.map Value.key

/-- `get` of `<bag>`. -/
def countOf (cs : List (Value α × Nat)) (key : Key α) : Option Nat :=
  (cs.map fun c => (c.1.key, c.2)).lookup key

/-- The lambda of the method for `<bag>`. -/
def countTest (cs ds : List (Value α × Nat)) (x : Value α) : Bool :=
  match countOf cs x.key, countOf ds x.key with
  | some m, some n => m = n
  | _, _ => false

/-- The method for `<bag>`. -/
def bagTest (cs ds : List (Value α × Nat)) : Bool :=
  (expand cs).length = (expand ds).length ∧ (expand ds).all (countTest cs ds)

/-- The lambda of the method for `<persistent-object>`. -/
def slotPairTest : Option (Test α) × Option (Value α) → Option Bool
  | (some test, some v) => test v
  | (none, none) => some true
  | _ => some false

/-- The method for `<persistent-object>`. -/
def objectTest (cls : Nat) (tests : List (Option (Test α))) : Test α
  | .object _ cls' slots => if cls = cls' then every slotPairTest (tests.zip slots) else some false
  | _ => some false

mutual

/-- `%=`. Where no method is for the classes of both arguments, they are not `eq`. -/
@[grind =] def eqv : Value α → Test α
  | .atom a => atomTest a
  | .seq cls _ xs => seqTest A cls xs.length ((eqvs xs).take (listed A cls xs).length)
  | .dict _ es => mixinTest A es.length (eqvEntries es)
  | .set _ xs => fun b =>
    match b with
    | .set _ ys => some (setTest xs ys)
    | b => mixinTest A xs.length ((xs.map Value.key).zip (eqvs xs)) b
  | .bag _ cs => fun b =>
    match b with
    | .bag _ ds => some (bagTest cs ds)
    | b => mixinTest A (expand cs).length (cs.map fun c => (c.1.key, atomTest (A.number c.2))) b
  | .object _ cls slots => objectTest cls (eqvSlots slots)

def eqvs : List (Value α) → List (Test α)
  | [] => []
  | x :: xs => eqv x :: eqvs xs

def eqvEntries : List (Value α × Value α) → List (Key α × Test α)
  | [] => []
  | e :: es => eqvEntry e :: eqvEntries es

def eqvEntry : Value α × Value α → Key α × Test α
  | (key, value) => (key.key, eqv value)

def eqvSlots : List (Option (Value α)) → List (Option (Test α))
  | [] => []
  | s :: ss => eqvSlot s :: eqvSlots ss

def eqvSlot : Option (Value α) → Option (Test α)
  | none => none
  | some v => some (eqv v)

end

/-! ## §4 equal? -/

/-- `equal?` of an element with an element of a seq; a cons is no element. -/
def elemQ (test : Value α → Bool) : Item α → Bool
  | .elem y => test y
  | .pair _ _ => false

/-- `equal?` of the cons of an entry with an element of a seq. -/
def pairQ (key value : Value α → Bool) : Item α → Bool
  | .elem _ => false
  | .pair k v => key k && value v

/-- `equal?` of a seq, given by the tests of its elements, with a seq. -/
def seqQ : List (Item α → Bool) → List (Item α) → Bool
  | [], [] => true
  | test :: tests, item :: seq => test item && seqQ tests seq
  | _, _ => false

/-- The method for collections. -/
def collQ (size : Nat) (tests : List (Item α → Bool)) (b : Value α) : Bool :=
  match items A b with
  | none => false
  | some (size', seq) => size = size' && seqQ tests seq

mutual

/-- `equal?`. -/
@[grind =] def equalQ : Value α → Value α → Bool
  | .atom a => fun b => b.key = .atom a
  | .seq cls _ xs => collQ A xs.length ((elemQs xs).take (listed A cls xs).length)
  | .dict _ es => collQ A es.length (entryQs es)
  | .set _ xs => collQ A xs.length (elemQs xs)
  | .bag _ cs => collQ A (expand cs).length (expand (countQs cs))
  | .object id _ _ => fun b =>
    match b with
    | .object id' _ _ => id = id'
    | _ => false

def elemQs : List (Value α) → List (Item α → Bool)
  | [] => []
  | x :: xs => elemQ (equalQ x) :: elemQs xs

def entryQs : List (Value α × Value α) → List (Item α → Bool)
  | [] => []
  | e :: es => entryQ e :: entryQs es

def entryQ : Value α × Value α → Item α → Bool
  | (key, value) => pairQ (equalQ key) (equalQ value)

def countQs : List (Value α × Nat) → List ((Item α → Bool) × Nat)
  | [] => []
  | c :: cs => countQ c :: countQs cs

def countQ : Value α × Nat → (Item α → Bool) × Nat
  | (x, count) => (elemQ (equalQ x), count)

end

/-! ## §5 Reading -/

theorem every_eq_true {p : β → Option Bool} {xs : List β} :
    every p xs = some true ↔ ∀ x ∈ xs, p x = some true := by
  induction xs with
  | nil => simp [every]
  | cons x xs ih =>
    rw [every, List.forall_mem_cons, ← ih]
    split
    · next h => simp [h]
    · next r h =>
      constructor
      · exact fun hr => absurd hr h
      · exact fun hr => absurd hr.1 h

theorem every_zip_map {γ δ : Type} {f : γ → δ} {p : δ × β → Option Bool} {xs : List γ}
    {ys : List β} :
    every p ((xs.map f).zip ys) = some true ↔ ∀ q ∈ xs.zip ys, p (f q.1, q.2) = some true := by
  rw [every_eq_true, List.zip_map_left, List.forall_mem_map]
  rfl

theorem eqvs_eq (xs : List (Value α)) : eqvs A xs = xs.map (eqv A) := by
  induction xs with
  | nil => rfl
  | cons x xs ih => rw [eqvs, ih, List.map_cons]

theorem eqvEntries_eq (es : List (Value α × Value α)) :
    eqvEntries A es = es.map fun e => (e.1.key, eqv A e.2) := by
  induction es with
  | nil => rfl
  | cons e es ih => rw [eqvEntries, ih, List.map_cons, eqvEntry]

theorem eqvSlots_eq (ss : List (Option (Value α))) :
    eqvSlots A ss = ss.map (Option.map (eqv A)) := by
  induction ss with
  | nil => rfl
  | cons s ss ih =>
    rw [eqvSlots, ih, List.map_cons]
    cases s <;> rfl

theorem elemQs_eq (xs : List (Value α)) : elemQs A xs = xs.map fun x => elemQ (equalQ A x) := by
  induction xs with
  | nil => rfl
  | cons x xs ih => rw [elemQs, ih, List.map_cons]

theorem entryQs_eq (es : List (Value α × Value α)) :
    entryQs A es = es.map fun e => pairQ (equalQ A e.1) (equalQ A e.2) := by
  induction es with
  | nil => rfl
  | cons e es ih => rw [entryQs, ih, List.map_cons, entryQ]

theorem countQs_eq (cs : List (Value α × Nat)) :
    countQs A cs = cs.map fun c => (elemQ (equalQ A c.1), c.2) := by
  induction cs with
  | nil => rfl
  | cons c cs ih => rw [countQs, ih, List.map_cons, countQ]

theorem expand_map {γ : Type} (f : β → γ) (cs : List (β × Nat)) :
    expand (cs.map fun c => (f c.1, c.2)) = (expand cs).map f := by
  simp [expand, List.flatMap_map, List.map_flatMap]

/-- The listed elements are the first ones. -/
theorem take_listed (cls : SeqClass) (xs : List (Value α)) :
    xs.take (listed A cls xs).length = listed A cls xs := by
  unfold listed
  split
  · exact (List.prefix_iff_eq_take.mp (List.takeWhile_prefix _)).symm
  · exact List.take_length

variable {A}

/-- `%=` answers true. -/
def Equals (A : Atoms α) (a b : Value α) : Prop := eqv A a b = some true

instance (a b : Value α) : Decidable (Equals A a b) := inferInstanceAs (Decidable (_ = _))

@[simp] theorem equals_atom {a : α} {b : Value α} : Equals A (.atom a) b ↔ b = .atom a := by
  simp [Equals, eqv, atomTest]

theorem equals_seq {c c' : SeqClass} {i j : Nat} {xs ys : List (Value α)} :
    Equals A (.seq c i xs) (.seq c' j ys) ↔ c = c' ∧ xs.length = ys.length ∧
      ∀ p ∈ (listed A c xs).zip (listed A c' ys), Equals A p.1 p.2 := by
  rw [Equals, eqv, seqTest, eqvs_eq, ← List.map_take, take_listed]
  split
  · next h =>
    rw [every_zip_map]
    exact ⟨fun hall => ⟨h.1, h.2, hall⟩, fun hall => hall.2.2⟩
  · next h =>
    simp only [Option.some.injEq, Bool.false_eq_true, false_iff]
    exact fun h' => h ⟨h'.1, h'.2.1⟩

/-- What is stored under the key. -/
def valueOf (es : List (Value α × Value α)) (key : Key α) : Option (Value α) :=
  (es.map fun e => (e.1.key, e.2)).lookup key

theorem equals_dict {i j : Nat} {es fs : List (Value α × Value α)} :
    Equals A (.dict i es) (.dict j fs) ↔ es.length = fs.length ∧
      ∀ f ∈ fs, ∃ v, valueOf es f.1.key = some v ∧ Equals A v f.2 := by
  have hlookup : ∀ k, (eqvEntries A es).lookup k = (valueOf es k).map (eqv A) := by
    intro k
    rw [eqvEntries_eq, valueOf, ← Lib.lookup_map, List.map_map]
    rfl
  rw [Equals, eqv, mixinTest, keyedItems]
  dsimp only
  split
  · next h =>
    simp only [every_eq_true, List.mem_map, forall_exists_index, and_imp, forall_apply_eq_imp_iff₂,
      h, true_and]
    refine forall₂_congr fun f _ => ?_
    simp only [pairTest, Item.car, Item.cdr, hlookup]
    cases valueOf es f.1.key <;> simp [Equals]
  · next h => simp [h]

theorem equals_set {i j : Nat} {xs ys : List (Value α)} : Equals A (.set i xs) (.set j ys) ↔
    xs.length = ys.length ∧ ∀ y ∈ ys, y.key ∈ xs.map Value.key := by
  simp [Equals, eqv, setTest]

theorem equals_bag {i j : Nat} {cs ds : List (Value α × Nat)} : Equals A (.bag i cs) (.bag j ds) ↔
    (expand cs).length = (expand ds).length ∧
      ∀ x ∈ expand ds, ∃ n, countOf cs x.key = some n ∧ countOf ds x.key = some n := by
  simp only [Equals, eqv, bagTest, Option.some.injEq, decide_eq_true_eq, List.all_eq_true]
  refine and_congr_right fun _ => forall₂_congr fun x _ => ?_
  unfold countTest
  cases countOf cs x.key with
  | none => simp
  | some m =>
    cases countOf ds x.key with
    | none => simp
    | some n => simp [eq_comm]

/-- Both unbound, or both bound to what is equal. -/
def SlotEquals (A : Atoms α) (s s' : Option (Value α)) : Prop :=
  (s = none ∧ s' = none) ∨ ∃ v w, s = some v ∧ s' = some w ∧ Equals A v w

theorem equals_object {i j c c' : Nat} {ss ss' : List (Option (Value α))} :
    Equals A (.object i c ss) (.object j c' ss') ↔ c = c' ∧ ∀ p ∈ ss.zip ss',
    SlotEquals A p.1 p.2 := by
  rw [Equals, eqv, objectTest, eqvSlots_eq]
  split
  · next h =>
    rw [every_zip_map]
    simp only [h, true_and]
    refine forall₂_congr fun p _ => ?_
    obtain ⟨s, s'⟩ := p
    cases s <;> cases s' <;> simp [slotPairTest, SlotEquals, Equals]
  · next h => simp [h]

/-- Values of different classes are equal only when both have tries. -/
theorem Equals.cls {a b : Value α} (h : Equals A a b) :
    a.cls = b.cls ∨ (∃ c, a.cls = some c ∧ c.keyed) ∧ ∃ d, b.cls = some d ∧ d.keyed := by
  cases a <;> cases b <;>
    simp [Equals, eqv, atomTest, seqTest, mixinTest, keyedItems, objectTest, Value.cls,
      Class.keyed] at h ⊢
  case seq.seq =>
    by_contra hne
    simp [hne] at h

omit [DecidableEq α] in
theorem seqQ_iff {tests : List (Item α → Bool)} {seq : List (Item α)} :
    seqQ tests seq = true ↔ List.Forall₂ (fun test item => test item = true) tests seq := by
  induction tests generalizing seq with
  | nil => cases seq <;> simp [seqQ]
  | cons test tests ih => cases seq <;> simp [seqQ, ih]

theorem collQ_iff {size size' : Nat} {tests : List (Item α → Bool)} {b : Value α}
    {seq : List (Item α)} (h : items A b = some (size', seq)) :
    collQ A size tests b = true ↔
      size = size' ∧ List.Forall₂ (fun test item => test item = true) tests seq := by
  simp [collQ, h, seqQ_iff]

/-- `equal?` answers true. -/
def EqualQ (A : Atoms α) (a b : Value α) : Prop := equalQ A a b = true

instance (a b : Value α) : Decidable (EqualQ A a b) := inferInstanceAs (Decidable (_ = _))

@[simp] theorem equalQ_atom {a : α} {b : Value α} : EqualQ A (.atom a) b ↔ b = .atom a := by
  simp [EqualQ, equalQ]

theorem elems_iff {xs ys : List (Value α)} :
    List.Forall₂ (fun test item => test item = true) (xs.map fun x => elemQ (equalQ A x))
    (ys.map Item.elem) ↔
      List.Forall₂ (EqualQ A) xs ys := by
  rw [List.forall₂_map_left_iff, List.forall₂_map_right_iff]
  rfl

theorem equalQ_seq {c c' : SeqClass} {i j : Nat} {xs ys : List (Value α)} :
    EqualQ A (.seq c i xs) (.seq c' j ys) ↔
      xs.length = ys.length ∧ List.Forall₂ (EqualQ A) (listed A c xs) (listed A c' ys) := by
  rw [EqualQ, equalQ, collQ_iff rfl, elemQs_eq, ← List.map_take, take_listed, elems_iff]

theorem equalQ_dict {i j : Nat} {es fs : List (Value α × Value α)} :
    EqualQ A (.dict i es) (.dict j fs) ↔
    List.Forall₂ (fun e f => EqualQ A e.1 f.1 ∧ EqualQ A e.2 f.2) es fs := by
  have hentries : List.Forall₂ (fun test item => test item = true)
      (es.map fun e => pairQ (equalQ A e.1) (equalQ A e.2)) (fs.map fun f => Item.pair f.1 f.2) ↔
      List.Forall₂ (fun e f => EqualQ A e.1 f.1 ∧ EqualQ A e.2 f.2) es fs := by
    rw [List.forall₂_map_left_iff, List.forall₂_map_right_iff]
    simp only [pairQ, Bool.and_eq_true]
    rfl
  rw [EqualQ, equalQ, collQ_iff rfl, entryQs_eq, hentries]
  exact and_iff_right_of_imp List.Forall₂.length_eq

theorem equalQ_set {i j : Nat} {xs ys : List (Value α)} :
    EqualQ A (.set i xs) (.set j ys) ↔ List.Forall₂ (EqualQ A) xs ys := by
  rw [EqualQ, equalQ, collQ_iff rfl, elemQs_eq, elems_iff]
  exact and_iff_right_of_imp List.Forall₂.length_eq

theorem equalQ_bag {i j : Nat} {cs ds : List (Value α × Nat)} :
    EqualQ A (.bag i cs) (.bag j ds) ↔ List.Forall₂ (EqualQ A) (expand cs) (expand ds) := by
  have hcounts : expand (countQs A cs) = (expand cs).map fun x => elemQ (equalQ A x) := by
    rw [countQs_eq]
    exact expand_map (fun x => elemQ (equalQ A x)) cs
  rw [EqualQ, equalQ, collQ_iff rfl, hcounts, elems_iff]
  exact and_iff_right_of_imp List.Forall₂.length_eq

end

end Fol.Values
