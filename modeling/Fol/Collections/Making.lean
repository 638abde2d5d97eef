/-
Fol.Collections.Making — `make` of `<vector>`, `<dict>`, `<set>`, `<bag>` and `<deque>`, and what
`collection-seq` lists of the collection made.

  §1 Made      — the collections, `make`, `collection-seq`.
  §2 Vectors   — `vectorSeq_eq_iff`, `dequeSeq_eq`.
  §3 Tries     — `dictSeq_eq_iff`, `setSeq_eq_iff`.
  §4 Bags      — `bagSeq_eq_iff`.
  §5 Listings  — `Kept`, `seq_eq_iff`.
-/
import Mathlib.Data.List.TakeWhile
import Fol.HashTrie.Position
import Fol.Collections.TransientSessions

namespace Fol.Collections.Making

open HashTrie VecTrie
open Transients (hamtSeq vecSeq hamtSeq_eq vecSeq_of_represents)

/-! ## §1 Made -/

/-- What the constructors ask of the objects they are given. Objects that are `EQUAL` are one object
here. -/
structure Objects (α : Type) where
  sxhash : α → Nat
  eof : α
  initialElement : α
  nil : α
  /-- The object as the dimension of an array. -/
  size : α → Option Nat
  size_initialElement : size initialElement = none

inductive Kind where
  | vector
  | dict
  | set
  | bag
  | deque
deriving DecidableEq

inductive Made (τ α : Type) where
  | vector (storage : VecT α)
  | dict (dictStorage : Hamt τ α α)
  | set (dictStorage : Hamt τ α α)
  | bag (dictStorage : Hamt τ α Nat)
  | deque (front rear : VecT α)

inductive MakeError where
  | notASize
  | trie (e : HashTrie.Error)
  | noClause
deriving DecidableEq

section

variable {τ α : Type} [DecidableEq τ] [DecidableEq α] (O : Objects α) (token : τ)

/-- `make` of `<vector>`: two arguments of which the first is `:initial-element` make `size` copies
of the first. -/
def makeVector (args : List α) : Except MakeError (VecT α) :=
  match args with
  | [a, b] =>
    if a = O.initialElement then
      match O.size b with
      | some n => .ok (makeFilledVecT n a)
      | none => .error .notASize
    else .ok (buildVecTFromList [a, b])
  | args => .ok (buildVecTFromList args)

/-- The pairs of `for (key value) on flat-sequence by #'cddr`. -/
def pairsOf (nil : α) : List α → List (α × α)
  | [] => []
  | [key] => [(key, nil)]
  | key :: value :: rest => (key, value) :: pairsOf nil rest

/-- `hamt-bulk-load`, its error as one of `make`. -/
def load (pairs : List (α × α)) : Except MakeError (Hamt τ α α) :=
  match hamtBulkLoad O.sxhash token pairs with
  | .ok h => .ok h
  | .error e => .error (.trie e)

/-- `collection-conj` of `<bag>`. -/
def bagConj (h : Hamt τ α Nat) (element : α) : Option (Hamt τ α Nat) :=
  match hamtGet O.sxhash h element with
  | some v => hamtAssoc O.sxhash h element (v + 1)
  | none => hamtAssoc O.sxhash h element 1

def makeBag (elements : List α) : Option (Hamt τ α Nat) :=
  elements.foldlM (bagConj O) {}

/-- `make`. -/
def make (kind : Kind) (args : List α) : Except MakeError (Made τ α) :=
  match kind with
  | .vector => (makeVector O args).map .vector
  | .dict => (load O token (pairsOf O.nil args)).map .dict
  | .set => (load O token (args.map fun x => (x, x))).map .set
  | .bag => match makeBag O args with
    | some h => .ok (.bag h)
    | none => .error .noClause
  | .deque =>
    let mid := args.length >>> 1
    .ok (.deque (buildVecTFromList (args.take mid).reverse) (buildVecTFromList (args.drop mid)))

/-- Each key as often as it is counted. -/
def expand (entries : List (α × Nat)) : List α := entries.flatMap fun p => List.replicate p.2 p.1

/-- `collection-seq` of `<bag>`. -/
def bagSeq (h : Hamt τ α Nat) : List α := expand (hamtSeq h)

/-- `collection-ref` of `<vector>` at an index of the loop. -/
def elementAt (v : VecT α) (i : Nat) : α := (vecTRef v i).getD O.nil

/-- `collection-seq` of `<deque>`. -/
def dequeSeq (front rear : VecT α) : List α :=
  (List.range front.count).reverse.map (elementAt O front) ++ (List.range rear.count).map
  (elementAt O rear)

end

/-! ## §2 Vectors -/

section

variable {τ α : Type} [DecidableEq α] {O : Objects α}

theorem takeWhile_ne_eq_self {x : α} {xs : List α} : xs.takeWhile (· ≠ x) = xs ↔ x ∉ xs := by
  rw [List.takeWhile_eq_self_iff]
  constructor
  · intro h hx
    simpa using h x hx
  · intro h y hy
    simpa using fun heq : y = x => h (heq ▸ hy)

/-- A vector lists its arguments but for `:eof` and the two arguments of a filled vector. -/
theorem vectorSeq_eq_iff {args : List α} :
    (∃ v, makeVector O args = .ok v ∧ vecSeq O.eof v = args) ↔
    O.eof ∉ args ∧ ∀ y, args ≠ [O.initialElement, y] := by
  have hplain : (∃ v, (Except.ok (buildVecTFromList args) : Except MakeError _) = .ok v ∧
      vecSeq O.eof v = args) ↔ O.eof ∉ args := by
    rw [← takeWhile_ne_eq_self, ← vecSeq_of_represents (buildVecTFromList_represents args)]
    simp
  rw [makeVector.eq_def]
  split
  · next a b =>
    by_cases ha : a = O.initialElement
    · subst ha
      have hfalse :
      ¬ (O.eof ∉ [O.initialElement, b] ∧ ∀ y, [O.initialElement, b] ≠ [O.initialElement, y]) :=
        fun h => h.2 b rfl
      rw [if_pos rfl, iff_false_right hfalse]
      rintro ⟨v, hv, hseq⟩
      cases hsize : O.size b with
      | none =>
        rw [hsize] at hv
        cases hv
      | some n =>
        rw [hsize] at hv
        cases hv
        rw [vecSeq_of_represents (makeFilledVecT_represents n _)] at hseq
        have hb : b ∈ (List.replicate n O.initialElement).takeWhile (· ≠ O.eof) := by
          rw [hseq]
          simp
        have hmem := List.takeWhile_subset _ hb
        rw [List.eq_of_mem_replicate hmem, O.size_initialElement] at hsize
        cases hsize
    · rw [if_neg ha, hplain, iff_self_and]
      intro _ y heq
      cases heq
      exact ha rfl
  · next hne =>
    rw [hplain, iff_self_and]
    exact fun _ y heq => hne _ y heq

omit [DecidableEq α] in
/-- A deque lists its arguments. -/
theorem dequeSeq_eq (args : List α) :
    dequeSeq O (buildVecTFromList (args.take (args.length >>> 1)).reverse)
      (buildVecTFromList (args.drop (args.length >>> 1))) = args := by
  have hseq : ∀ xs : List α, (List.range (buildVecTFromList xs).count).map
      (elementAt O (buildVecTFromList xs)) = xs := by
    intro xs
    have hrep := buildVecTFromList_represents xs
    have hcount : (buildVecTFromList xs).count = xs.length := hrep.choose_spec.len
    refine List.ext_getElem (by simp [hcount]) fun i hi hi' => ?_
    have hnat : ¬ ((i : Int) < 0) := by omega
    simp [elementAt, vecTRef_eq hrep, listRef, hi', hnat]
  rw [dequeSeq, List.map_reverse, hseq, hseq, List.reverse_reverse, List.take_append_drop]

end

/-! ## §3 Tries -/

section

variable {τ α : Type} [DecidableEq τ] [DecidableEq α] {O : Objects α} {token : τ}

theorem sxhash_congr (f : α → Nat) : ∀ a b : α, (a == b) = true → f a = f b := by
  intro a b h
  rw [eq_of_beq h]

omit [DecidableEq α] in
theorem pairsOf_flatten {nil : α} {args : List α} (heven : args.length % 2 = 0) :
    (pairsOf nil args).flatMap (fun p => [p.1, p.2]) = args := by
  induction args using pairsOf.induct with
  | case1 => rfl
  | case2 key => simp at heven
  | case3 key value rest ih =>
    have hrest : rest.length % 2 = 0 := by
      simp at heven
      omega
    rw [pairsOf, List.flatMap_cons, ih hrest]
    rfl

theorem load_eq_ok_iff {pairs : List (α × α)} {h : Hamt τ α α} :
    load O token pairs = .ok h ↔ hamtBulkLoad O.sxhash token pairs = .ok h := by
  rw [load]
  cases hamtBulkLoad O.sxhash token pairs <;> simp

/-- The pairs are listed as loaded exactly when each key follows the ones before it. -/
theorem dictSeq_eq_iff (token : τ) {pairs : List (α × α)} :
    (∃ h, load O token pairs = .ok h ∧ hamtSeq h = pairs) ↔
    EachFollows O.sxhash (pairs.map Prod.fst) := by
  simp only [load_eq_ok_iff]
  constructor
  · rintro ⟨h, hload, hseq⟩
    have hv := (hamtBulkLoad_spec (sxhash_congr O.sxhash) hload).1
    refine (eachFollows_of_bulkLoad hload ?_).1
    rw [Hamt.keys, ← hamtSeq_eq hv, hseq]
  · intro hf
    obtain ⟨h, hload, hentries, hg⟩ := bulkLoad_of_eachFollows token hf
    exact ⟨h, hload, by rw [hamtSeq_eq hg.valid, hentries]⟩

/-- The elements of a set. -/
theorem setSeq_eq_iff (token : τ) {elements : List α} :
    (∃ h, load O token (elements.map fun x => (x, x)) = .ok h ∧
      (hamtSeq h).map Prod.fst = elements) ↔
      EachFollows O.sxhash elements := by
  simp only [load_eq_ok_iff]
  have hkeys : (elements.map fun x => (x, x)).map Prod.fst = elements := by simp [Function.comp_def]
  conv_rhs => rw [← hkeys]
  rw [← bulkLoad_in_order_iff token, hkeys]
  refine exists_congr fun h => and_congr_right fun hload => ?_
  rw [Hamt.keys, hamtSeq_eq (hamtBulkLoad_spec (sxhash_congr O.sxhash) hload).1]

end

/-! ## §4 Bags -/

section

variable {τ α : Type} [DecidableEq α] {O : Objects α}

theorem eraseReps_concat (xs : List α) (x : α) :
    (xs ++ [x]).eraseReps = if xs.getLast? = some x then xs.eraseReps else xs.eraseReps ++ [x] := by
  have hloop : ∀ (ys : List α) (a : α) (acc : List α),
    List.eraseRepsBy.loop (· == ·) a (ys ++ [x]) acc =
      if (a :: ys).getLast? = some x then List.eraseRepsBy.loop (· == ·) a ys acc
      else List.eraseRepsBy.loop (· == ·) a ys acc ++ [x] := by
    intro ys
    induction ys with
    | nil =>
      intro a acc
      by_cases ha : a = x
      · simp [List.eraseRepsBy.loop, ha]
      · simp [List.eraseRepsBy.loop, ha, beq_eq_false_iff_ne.mpr ha]
    | cons y ys ih =>
      intro a acc
      rw [List.cons_append, List.eraseRepsBy.loop, List.eraseRepsBy.loop, List.getLast?_cons_cons]
      cases hay : a == y with
      | true =>
        obtain rfl := eq_of_beq hay
        exact ih a acc
      | false => exact ih y (a :: acc)
  cases xs with
  | nil => simp [List.eraseReps, List.eraseRepsBy, List.eraseRepsBy.loop]
  | cons a xs => exact hloop xs a []

/-- Each element repeats the one directly before it or follows the ones before it. -/
def EachCounted (sxhash : α → Nat) (elements : List α) : Prop :=
  ∀ l x r, elements = l ++ x :: r → l.getLast? = some x ∨ Follows sxhash l.eraseReps x

theorem eachCounted_concat {sxhash : α → Nat} {elements : List α} {x : α} :
    EachCounted sxhash (elements ++ [x]) ↔ EachCounted sxhash elements ∧
      (elements.getLast? = some x ∨ Follows sxhash elements.eraseReps x) :=
  forall_split_concat (P := fun l x => l.getLast? = some x ∨ Follows sxhash l.eraseReps x)

omit [DecidableEq α] in
theorem mem_of_mem_expand {es : List (α × Nat)} {x : α} (h : x ∈ expand es) :
    x ∈ es.map Prod.fst := by
  obtain ⟨p, hp, hx⟩ := List.mem_flatMap.mp h
  rw [List.eq_of_mem_replicate hx]
  exact List.mem_map_of_mem hp

theorem eraseReps_append_replicate (xs : List α) (x : α) (n : Nat) :
    (xs ++ List.replicate (n + 1) x).eraseReps =
      if xs.getLast? = some x then xs.eraseReps else xs.eraseReps ++ [x] := by
  induction n with
  | zero => exact eraseReps_concat xs x
  | succ n ih =>
    rw [List.replicate_succ', ← List.append_assoc, eraseReps_concat,
      if_pos (by simp [List.replicate_succ']), ih]

/-- The keys of a bag are its elements without the repetitions. -/
theorem eraseReps_expand {es : List (α × Nat)} (hd : (es.map Prod.fst).Nodup)
    (hpos : ∀ p ∈ es, 0 < p.2) :
    (expand es).eraseReps = es.map Prod.fst := by
  induction es using List.reverseRecOn with
  | nil => rfl
  | append_singleton es p ih =>
    obtain ⟨n, hn⟩ := Nat.exists_eq_add_one_of_ne_zero (Nat.pos_iff_ne_zero.mp (hpos p (by simp)))
    rw [List.map_append, List.nodup_append] at hd
    have hlast : (expand es).getLast? ≠ some p.1 := fun hlast =>
      hd.2.2 p.1 (mem_of_mem_expand (List.mem_of_getLast? hlast)) p.1 (by simp) rfl
    have hexpand : expand (es ++ [p]) = expand es ++ List.replicate (n + 1) p.1 := by
      simp [expand, hn]
    rw [hexpand, eraseReps_append_replicate, if_neg hlast,
      ih hd.1 fun q hq => hpos q (by simp [hq])]
    simp

theorem bagSeq_eq {h : Hamt τ α Nat} (hv : h.Valid O.sxhash) :
    bagSeq h = expand (rootEntries h.root) := by
  rw [bagSeq, hamtSeq_eq hv]

/-- The bag that adding the elements leaves. -/
structure Bagged (O : Objects α) (h : Hamt τ α Nat) (elements : List α) : Prop where
  grown : ∃ keys, Grown O.sxhash h keys
  positive : ∀ p ∈ rootEntries h.root, 0 < p.2
  ordered : bagSeq h = elements → Grown O.sxhash h h.keys
  iff : bagSeq h = elements ↔ EachCounted O.sxhash elements

theorem Bagged.valid {h : Hamt τ α Nat} {elements : List α} (hb : Bagged O h elements) :
    h.Valid O.sxhash := by
  obtain ⟨keys, hg⟩ := hb.grown
  exact hg.valid

theorem Bagged.keys {h : Hamt τ α Nat} {elements : List α} (hb : Bagged O h elements)
    (hseq : bagSeq h = elements) : h.keys = elements.eraseReps := by
  rw [← hseq, bagSeq_eq hb.valid, eraseReps_expand hb.valid.keys_nodup hb.positive]
  rfl

omit [DecidableEq α] in
/-- A key stands for at least one element of the bag. -/
theorem expand_eq_nil {es : List (α × Nat)} (hpos : ∀ p ∈ es, 0 < p.2) (h : expand es = []) :
    es = [] := by
  cases es with
  | nil => rfl
  | cons p es =>
    have hp := hpos p (by simp)
    simp only [expand, List.flatMap_cons, List.append_eq_nil_iff, List.replicate_eq_nil_iff] at h
    omega

/-- One more of an element that the bag has. -/
theorem Bagged.again {h h' : Hamt τ α Nat} {elements : List α} {x : α} (hb : Bagged O h elements)
    (hconj : bagConj O h x = some h') (hx : x ∈ h.keys) : Bagged O h' (elements ++ [x]) := by
  obtain ⟨keys, hg⟩ := hb.grown
  have hcongr := sxhash_congr O.sxhash
  have hd := hg.valid.distinct hcongr
  obtain ⟨n, hget⟩ : ∃ n, hamtGet O.sxhash h x = some n := by
    obtain ⟨e, he, hex⟩ := List.mem_map.mp hx
    rw [hamtGet_eq_lookup hcongr hg.valid]
    exact ⟨e.2, (Lib.lookup_eq_some_iff hd).mpr ⟨e, he, by simp [hex], rfl⟩⟩
  rw [bagConj, hget] at hconj
  obtain ⟨hg', l, old, r, hold, hnew⟩ := hg.rebind hcongr hconj hx
  obtain rfl : old = n := by
    rw [hamtGet_eq_lookup hcongr hg.valid] at hget
    have hlookup : Lib.lookup x (rootEntries h.root) = some old :=
      (Lib.lookup_eq_some_iff hd).mpr ⟨(x, old), by simp [hold], beq_self_eq_true x, rfl⟩
    exact Option.some.inj (hlookup.symm.trans hget)
  have hkeys : h'.keys = h.keys := by simp [Hamt.keys, hold, hnew]
  have hn : 0 < old := hb.positive (x, old) (by simp [hold])
  have hr : x ∉ expand r := by
    have hnodup := hg.valid.keys_nodup
    rw [Hamt.keys, hold, List.map_append, List.map_cons, List.nodup_append,
      List.nodup_cons] at hnodup
    exact fun h => hnodup.2.1.1 (mem_of_mem_expand h)
  have hseq : bagSeq h = expand l ++ List.replicate old x ++ expand r := by
    rw [bagSeq_eq hg.valid, hold]
    simp [expand]
  have hseq' : bagSeq h' = expand l ++ List.replicate old x ++ x :: expand r := by
    rw [bagSeq_eq hg'.valid, hnew]
    simp [expand, List.replicate_succ']
  have hstep : bagSeq h' = elements ++ [x] ↔ bagSeq h = elements ∧ elements.getLast? = some x := by
    constructor
    · intro heq
      obtain ⟨hnil, hl⟩ := append_eq_concat (hseq'.symm.trans heq) hr
      refine ⟨by rw [hseq, hnil, hl, List.append_nil], ?_⟩
      rw [← hl, List.getLast?_append, List.getLast?_replicate, if_neg (by omega)]
      rfl
    · rintro ⟨heq, hlast⟩
      have hnil : expand r = [] := by
        rcases List.eq_nil_or_concat (expand r) with hnil | ⟨r', y, hy⟩
        · exact hnil
        · rw [List.concat_eq_append] at hy
          rw [← heq, hseq, hy, ← List.append_assoc, List.getLast?_concat] at hlast
          cases hlast
          simp [hy] at hr
      rw [hseq', hnil, ← heq, hseq, hnil, List.append_nil]
  refine ⟨⟨keys, hg'⟩, ?_, ?_, ?_⟩
  · intro p hp
    rw [hnew] at hp
    rcases List.mem_append.mp hp with hp | hp
    · exact hb.positive p (by simp [hold, hp])
    · rcases List.mem_cons.mp hp with rfl | hp
      · exact Nat.succ_pos old
      · exact hb.positive p (by simp [hold, hp])
  · intro heq
    rw [hkeys]
    exact ((hb.ordered (hstep.mp heq).1).rebind hcongr hconj hx).1
  · rw [hstep, eachCounted_concat, ← hb.iff]
    refine and_congr_right fun heq => ?_
    rw [← hb.keys heq]
    exact ⟨.inl, fun h => h.resolve_right fun hf => hf.fresh hx⟩

/-- The first of an element. -/
theorem Bagged.first {h h' : Hamt τ α Nat} {elements : List α} {x : α} (hb : Bagged O h elements)
    (hconj : bagConj O h x = some h') (hx : x ∉ h.keys) : Bagged O h' (elements ++ [x]) := by
  obtain ⟨keys, hg⟩ := hb.grown
  have hcongr := sxhash_congr O.sxhash
  have hget : hamtGet O.sxhash h x = none := by
    rw [hamtGet_eq_lookup hcongr hg.valid, Lib.lookup_eq_none_iff, Lib.bound_eq_false_iff]
    intro e he
    exact beq_eq_false_iff_ne.mpr fun heq => hx (heq ▸ List.mem_map_of_mem he)
  rw [bagConj, hget] at hconj
  obtain ⟨hg', l, r, hp⟩ := hg.assoc hcongr hconj hx
  have hmem : ∀ p ∈ l ++ r, 0 < p.2 := fun p h => hb.positive p (by rw [hp.old]; exact h)
  have hr : x ∉ r.map Prod.fst := fun h => hx (by
    rw [Hamt.keys, hp.old, List.map_append]
    exact List.mem_append_right _ h)
  have hseq : bagSeq h = expand l ++ expand r := by
    rw [bagSeq_eq hg.valid, hp.old]
    simp [expand]
  have hseq' : bagSeq h' = expand l ++ x :: expand r := by
    rw [bagSeq_eq hg'.valid, hp.new]
    simp [expand]
  have hkeys' : h'.keys = l.map Prod.fst ++ x :: r.map Prod.fst := by
    rw [Hamt.keys, hp.new]
    simp
  have hstep : bagSeq h' = elements ++ [x] ↔ bagSeq h = elements ∧ h'.keys = h.keys ++ [x] := by
    constructor
    · intro heq
      obtain ⟨hnil, hl⟩ := append_eq_concat (hseq'.symm.trans heq) fun h => hr (mem_of_mem_expand h)
      obtain rfl := expand_eq_nil (fun p h => hmem p (List.mem_append_right _ h)) hnil
      refine ⟨by rw [hseq, hl, hnil, List.append_nil], ?_⟩
      rw [hkeys', Hamt.keys, hp.old]
      simp
    · rintro ⟨heq, hkeys⟩
      obtain ⟨hnil, -⟩ := append_eq_concat (hkeys'.symm.trans hkeys) hr
      obtain rfl := List.map_eq_nil_iff.mp hnil
      rw [hseq', ← heq, hseq]
      simp [expand]
  have hordered : bagSeq h' = elements ++ [x] → Grown O.sxhash h' h'.keys := fun heq => by
    obtain ⟨hold, hkeys⟩ := hstep.mp heq
    rw [hkeys]
    exact ((hb.ordered hold).assoc hcongr hconj hx).1
  refine ⟨⟨_, hg'⟩, ?_, hordered, ?_⟩
  · intro p hmem'
    rw [hp.new] at hmem'
    rcases List.mem_append.mp hmem' with h | h
    · exact hmem p (List.mem_append_left _ h)
    · rcases List.mem_cons.mp h with rfl | h
      · exact Nat.one_pos
      · exact hmem p (List.mem_append_right _ h)
  · rw [hstep, eachCounted_concat, ← hb.iff]
    refine and_congr_right fun heq => ?_
    rw [(hb.ordered heq).last_iff hcongr hconj hx, ← hb.keys heq]
    refine ⟨.inr, fun h => h.resolve_left fun hlast => hx ?_⟩
    rw [← heq, bagSeq_eq hg.valid] at hlast
    exact mem_of_mem_expand (List.mem_of_getLast? hlast)

theorem makeBag_bagged {elements : List α} {h : Hamt τ α Nat}
    (hmake : makeBag O elements = some h) :
    Bagged O h elements := by
  induction elements using List.reverseRecOn generalizing h with
  | nil =>
    cases hmake
    refine ⟨⟨[], .empty _⟩, by simp, fun _ => .empty _, ?_⟩
    refine iff_of_true (by simp [bagSeq_eq (.empty O.sxhash), expand]) ?_
    intro l x r heq
    simp at heq
  | append_singleton elements x ih =>
    rw [makeBag, List.foldlM_append] at hmake
    obtain ⟨h₀, hmake₀, hconj⟩ := Option.bind_eq_some_iff.mp hmake
    have hconj' : bagConj O h₀ x = some h := by simpa using hconj
    by_cases hx : x ∈ h₀.keys
    · exact (ih hmake₀).again hconj' hx
    · exact (ih hmake₀).first hconj' hx

theorem makeBag_total (elements : List α) : ∃ h : Hamt τ α Nat, makeBag O elements = some h := by
  induction elements using List.reverseRecOn with
  | nil => exact ⟨{}, rfl⟩
  | append_singleton elements x ih =>
    obtain ⟨h₀, hmake⟩ := ih
    have hv := (makeBag_bagged hmake).valid
    have hassoc := fun n => (hamtAssoc_spec (sxhash_congr O.sxhash) hv x n).imp fun _ h => h.1
    have hconj : ∃ h, bagConj O h₀ x = some h := by
      rw [bagConj]
      split
      · exact hassoc _
      · exact hassoc _
    obtain ⟨h, hconj⟩ := hconj
    refine ⟨h, ?_⟩
    rw [makeBag, List.foldlM_append, show List.foldlM (bagConj O) {} elements = some h₀ from hmake]
    simpa using hconj

/-- A bag lists its elements as they were added exactly when each repeats the one before it or
follows those before it. -/
theorem bagSeq_eq_iff {elements : List α} :
    (∃ h : Hamt τ α Nat, makeBag O elements = some h ∧ bagSeq h = elements) ↔
      EachCounted O.sxhash elements := by
  obtain ⟨h, hmake⟩ := makeBag_total (τ := τ) (O := O) elements
  rw [← (makeBag_bagged hmake).iff]
  constructor
  · rintro ⟨h', hmake', hseq⟩
    obtain rfl := Option.some.inj (hmake.symm.trans hmake')
    exact hseq
  · exact fun hseq => ⟨h, hmake, hseq⟩

end

/-! ## §5 Listings -/

section

variable {τ α : Type} [DecidableEq τ] [DecidableEq α] {O : Objects α} {token : τ}

/-- `collection-seq`, the pairs of a dict one after the other. -/
def Made.seq (O : Objects α) : Made τ α → List α
  | .vector storage => vecSeq O.eof storage
  | .dict dictStorage => (hamtSeq dictStorage).flatMap fun p => [p.1, p.2]
  | .set dictStorage => (hamtSeq dictStorage).map Prod.fst
  | .bag dictStorage => bagSeq dictStorage
  | .deque front rear => dequeSeq O front rear

/-- The collection lists the arguments it is made of. -/
def Kept (O : Objects α) : Kind → List α → Prop
  | .vector, args => O.eof ∉ args ∧ ∀ y, args ≠ [O.initialElement, y]
  | .dict, args => EachFollows O.sxhash ((pairsOf O.nil args).map Prod.fst)
  | .set, args => EachFollows O.sxhash args
  | .bag, args => EachCounted O.sxhash args
  | .deque, _ => True

omit [DecidableEq α] in
theorem pairsOf_flatMap (nil : α) (pairs : List (α × α)) :
    pairsOf nil (pairs.flatMap fun p => [p.1, p.2]) = pairs := by
  induction pairs with
  | nil => rfl
  | cons p pairs ih =>
    rw [List.flatMap_cons, List.cons_append, List.cons_append, List.nil_append, pairsOf, ih]

omit [DecidableEq τ] [DecidableEq α] in
theorem exists_map_ok {ε β γ : Type} {x : Except ε β} {f : β → γ} {P : γ → Prop} :
    (∃ c, x.map f = .ok c ∧ P c) ↔ ∃ b, x = .ok b ∧ P (f b) := by
  cases x <;> simp [Except.map]

/-- What is made lists its arguments exactly under the condition of its kind. -/
theorem seq_eq_iff (token : τ) {kind : Kind} {args : List α}
    (heven : kind = .dict → args.length % 2 = 0) :
    (∃ c, make O token kind args = .ok c ∧ c.seq O = args) ↔ Kept O kind args := by
  cases kind with
  | vector => rw [make, exists_map_ok, Kept, ← vectorSeq_eq_iff]; rfl
  | dict =>
    rw [make, exists_map_ok, Kept, ← dictSeq_eq_iff token]
    refine exists_congr fun h => and_congr_right fun _ => ?_
    constructor
    · intro hseq
      rw [← hseq, Made.seq, pairsOf_flatMap]
    · intro hseq
      rw [Made.seq, hseq, pairsOf_flatten (heven rfl)]
  | set => rw [make, exists_map_ok, Kept, ← setSeq_eq_iff token]; rfl
  | bag =>
    rw [make, Kept, ← bagSeq_eq_iff (τ := τ)]
    obtain ⟨h, hmake⟩ := makeBag_total (τ := τ) (O := O) args
    simp [hmake, Made.seq]
  | deque => simp [make, Kept, Made.seq, dequeSeq_eq]

end

end Fol.Collections.Making
