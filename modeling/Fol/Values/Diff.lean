/-
Fol.Values.Diff — `diff` of relational.lisp on values nested from dicts, sets, vectors and atoms.

The new dicts and sets of an answer are listed as they are filled. Nothing looks at their order or,
as they are no keys, at their identity, which is `fresh` for all of them.
-/
import Fol.Values.Equality

namespace Fol.Values

variable {α : Type}

/-! ## §1 Diff -/

/-- The atoms that `make` of `<vector>` knows besides. -/
structure Keywords (α : Type) extends Atoms α where
  initialElement : α
  /-- The atom as the dimension of an array. -/
  size : α → Option Nat
  size_initialElement : size initialElement = none

abbrev Entries (α : Type) := List (Value α × Value α)

abbrev keysOf (es : Entries α) : List (Key α) := es.map fun e => e.1.key

/-- `[x y z]`. -/
structure Parts (α : Type) where
  aOnly : Value α
  bOnly : Value α
  both : Value α

/-- The variables `a-only`, `b-only` and `both-map` of the loops. -/
structure Split (α : Type) where
  aOnly : Entries α
  bOnly : Entries α
  both : Entries α

section

variable [DecidableEq α] (K : Keywords α) (fresh : Nat)

/-- `collection-seq` of `(apply #'make '<vector> keys)`: two keys of which the first is
`:initial-element` make a vector filled with the first. -/
def vectorSeq (keys : List (Value α)) : Option (List (Value α)) :=
  match keys with
  | [a, b] =>
    if a.key = .atom K.initialElement then
      match b with
      | .atom n => (K.size n).map fun n => listed K.toAtoms .vector (List.replicate n a)
      | _ => none
    else some (listed K.toAtoms .vector [a, b])
  | keys => some (listed K.toAtoms .vector keys)

/-- `(collection-seq (keys d))`. -/
def keySeq (es : Entries α) : Option (List (Value α)) := vectorSeq K (es.map Prod.fst)

/-- `get`. -/
def get (es : Entries α) (key : Key α) : Value α := (valueOf es key).getD (.atom K.nil)

/-- `assoc`. -/
def put : Entries α → Value α → Value α → Entries α
  | [], key, value => [(key, value)]
  | e :: es, key, value => if e.1.key = key.key then (e.1, value) :: es else e :: put es key value

/-- `(when v (setf d (assoc d k v)))`. -/
def putWhen (es : Entries α) (key value : Value α) : Entries α :=
  if value.key = .atom K.nil then es else put es key value

/-- `(and (not (empty? d)) d)`. -/
def dictOr (es : Entries α) : Value α := if es.isEmpty then .atom K.nil else .dict fresh es

def setOr (xs : List (Value α)) : Value α := if xs.isEmpty then .atom K.nil else .set fresh xs

/-- `collection-dissoc` of `<set>`. -/
def disj (xs : List (Value α)) (y : Value α) : List (Value α) := xs.filter fun x => x.key ≠ y.key

/-- `collection-conj` of `<set>`. -/
def conj (xs : List (Value α)) (y : Value α) : List (Value α) :=
  if y.key ∈ xs.map Value.key then xs else xs ++ [y]

def difference (xs ys : List (Value α)) : List (Value α) := ys.foldl disj xs

def intersection (xs ys : List (Value α)) : List (Value α) :=
  xs.foldl (fun result x => if x.key ∈ ys.map Value.key then conj result x else result) []

/-- The clause for scalars and other values. -/
def leafParts (a b : Value α) : Parts α :=
  if a.key = b.key then ⟨.atom K.nil, .atom K.nil, a⟩ else ⟨a, b, .atom K.nil⟩

/-- `diff` with its first argument given. -/
abbrev Differ (α : Type) := Value α → Option (Parts α)

/-- `diff` of what `get` finds under the key. -/
def differAt (differs : List (Key α × Differ α)) (key : Key α) : Differ α :=
  (differs.lookup key).getD fun b => some (leafParts K (.atom K.nil) b)

/-- The body of the loop over the keys of `a`. -/
def aStep (es fs : Entries α) (differs : List (Key α × Differ α)) (s : Split α) (k : Value α) :
    Option (Split α) :=
  if k.key ∈ keysOf fs then
    (differAt K differs k.key (get K fs k.key)).map fun inner =>
      { aOnly := putWhen K s.aOnly k inner.aOnly
        bOnly := putWhen K s.bOnly k inner.bOnly
        both := putWhen K s.both k inner.both }
  else some { s with aOnly := put s.aOnly k (get K es k.key) }

/-- The body of the loop over the keys of `b`. -/
def bStep (es fs : Entries α) (bOnly : Entries α) (k : Value α) : Entries α :=
  if k.key ∈ keysOf es then bOnly else put bOnly k (get K fs k.key)

/-- The clause for dicts. -/
def diffDicts (es fs : Entries α) (differs : List (Key α × Differ α)) : Option (Parts α) := do
  let ks ← keySeq K es
  let s ← ks.foldlM (aStep K es fs differs) ⟨[], [], []⟩
  let ls ← keySeq K fs
  let bOnly := ls.foldl (bStep K es fs) s.bOnly
  return ⟨dictOr K fresh s.aOnly, dictOr K fresh bOnly, dictOr K fresh s.both⟩

/-- The clause for sets. -/
def diffSets (xs ys : List (Value α)) : Parts α :=
  ⟨setOr K fresh (difference xs ys), setOr K fresh (difference ys xs),
    setOr K fresh (intersection xs ys)⟩

mutual

def diff : Value α → Differ α
  | .dict id es => fun b =>
    match b with
    | .dict _ fs => diffDicts K fresh es fs (differs es)
    | b => some (leafParts K (.dict id es) b)
  | .set id xs => fun b =>
    match b with
    | .set _ ys => some (diffSets K fresh xs ys)
    | b => some (leafParts K (.set id xs) b)
  | .atom a => fun b => some (leafParts K (.atom a) b)
  | .seq cls id xs => fun b => some (leafParts K (.seq cls id xs) b)
  | .bag id cs => fun b => some (leafParts K (.bag id cs) b)
  | .object id cls slots => fun b => some (leafParts K (.object id cls slots) b)

def differs : List (Value α × Value α) → List (Key α × Differ α)
  | [] => []
  | e :: es => differOf e :: differs es

def differOf : Value α × Value α → Key α × Differ α
  | (key, value) => (key.key, diff value)

end

/-! ## §2 Laws -/

/-- The value is nested from dicts, sets, vectors and atoms. `H` holds the collections by their
identity. -/
inductive Stored (H : Nat → Option (Value α)) : Value α → Prop where
  | atom (a : α) : Stored H (.atom a)
  | vector {id : Nat} {xs : List (Value α)} (hid : H id = some (.seq .vector id xs))
      (hxs : ∀ x ∈ xs, Stored H x) :
      Stored H (.seq .vector id xs)
  | dict {id : Nat} {es : Entries α} (hid : H id = some (.dict id es))
      (hks : ∀ e ∈ es, Stored H e.1)
      (hvs : ∀ e ∈ es, Stored H e.2) (hkeys : (keysOf es).Nodup) : Stored H (.dict id es)
  | set {id : Nat} {xs : List (Value α)} (hid : H id = some (.set id xs))
      (hxs : ∀ x ∈ xs, Stored H x)
      (hkeys : (xs.map Value.key).Nodup) : Stored H (.set id xs)

mutual

/-- The first value on the second, key by key. -/
def overlay : Value α → Value α → Value α
  | .dict id es => fun z =>
    match z with
    | .dict _ fs =>
        .dict fresh (fs.map
          (fun f => (f.1, (((overlays es).lookup f.1.key).getD fun z => z) f.2)) ++
        es.filter fun e => e.1.key ∉ keysOf fs)
    | _ => .dict id es
  | .set id xs => fun z =>
    match z with
    | .set _ ys => .set fresh (ys ++ xs.filter fun x => x.key ∉ ys.map Value.key)
    | _ => .set id xs
  | .atom a => fun z => if a = K.nil then z else .atom a
  | .seq cls id xs => fun _ => .seq cls id xs
  | .bag id cs => fun _ => .bag id cs
  | .object id cls slots => fun _ => .object id cls slots

def overlays : List (Value α × Value α) → List (Key α × (Value α → Value α))
  | [] => []
  | e :: es => overlaid e :: overlays es

def overlaid : Value α × Value α → Key α × (Value α → Value α)
  | (key, value) => (key.key, overlay value)

end

/-- The second answer has the parts of the first, swapped. -/
structure Swapped (p q : Parts α) : Prop where
  aOnly : Equals K.toAtoms q.aOnly p.bOnly
  bOnly : Equals K.toAtoms q.bOnly p.aOnly
  both : Equals K.toAtoms q.both p.both

structure Restores (a b : Value α) (p : Parts α) : Prop where
  left : Equals K.toAtoms (overlay K fresh p.aOnly p.both) a
  right : Equals K.toAtoms (overlay K fresh p.bOnly p.both) b

def NothingOnly (p : Parts α) : Prop := p.aOnly = .atom K.nil ∧ p.bOnly = .atom K.nil

def Decomposes (a b : Value α) : Prop :=
  ∃ p q, diff K fresh a b = some p ∧ diff K fresh b a = some q ∧ Swapped K p q ∧
    (NothingOnly K p ↔ Equals K.toAtoms a b) ∧ Restores K fresh a b p

/-! ## §3 Conditions -/

/-- Neither two dicts nor two sets. -/
def Leaves (a b : Value α) : Prop := a.cls = b.cls → a.cls ≠ some .dict ∧ a.cls ≠ some .set

/-- `keys` is the vector of the keys. -/
def Listable (es : Entries α) : Prop :=
  .atom K.eof ∉ keysOf es ∧ ∀ k, keysOf es ≠ [.atom K.initialElement, k]

/-- Where the two values reach dicts or sets, these are not empty, the keys of the dicts can be
listed, and no key that they share has the value NIL. -/
inductive Restorable : Value α → Value α → Prop where
  | leaves {a b : Value α} (h : Leaves a b) : Restorable a b
  | set {i j : Nat} {xs ys : List (Value α)} (hxs : xs ≠ []) (hys : ys ≠ []) :
      Restorable (.set i xs) (.set j ys)
  | dict {i j : Nat} {es fs : Entries α} (hes : es ≠ []) (hfs : fs ≠ []) (hlist : Listable K es)
      (hlist' : Listable K fs) (hleft : ∀ e ∈ es, e.1.key ∈ keysOf fs → e.2 ≠ .atom K.nil)
      (hright : ∀ f ∈ fs, f.1.key ∈ keysOf es → f.2 ≠ .atom K.nil)
      (h : ∀ e ∈ es, ∀ f ∈ fs, e.1.key = f.1.key → Restorable e.2 f.2) :
      Restorable (.dict i es) (.dict j fs)

/-- Dicts and sets with the same keys, and where the two values reach others, these are one. -/
inductive Same : Value α → Value α → Prop where
  | one {a b : Value α} (hleaves : Leaves a b) (h : a.key = b.key) : Same a b
  | set {i j : Nat} {xs ys : List (Value α)}
      (h : ∀ k, k ∈ xs.map Value.key ↔ k ∈ ys.map Value.key) :
      Same (.set i xs) (.set j ys)
  | dict {i j : Nat} {es fs : Entries α} (hkeys : ∀ k, k ∈ keysOf es ↔ k ∈ keysOf fs)
      (h : ∀ e ∈ es, ∀ f ∈ fs, e.1.key = f.1.key → Same e.2 f.2) : Same (.dict i es) (.dict j fs)

end

end Fol.Values
