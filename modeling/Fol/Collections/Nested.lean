/-
Fol.Collections.Nested — `get-in`, `assoc-in` and `update-in` on structures nested from dicts and
vectors.

`assoc-in` and `update-in` dispatch on the class of the collection at every level. `get-in`
dispatches once, on the outermost collection, and then walks in a loop: the one for vectors goes
through both kinds of collections, the one for dicts only through dicts.
-/
import Fol.HashTrie.PersistentTheorems
import Fol.VecTrie.Bounds

namespace Fol.Nested

open HashTrie (Hamt hamtGet hamtAssoc hamtGet_eq_lookup hamtAssoc_spec rootEntries)
open VecTrie
open Lib

/-! ## §1 Model -/

inductive Key (κ : Type) where
  | integer (i : Int)
  | object (key : κ)
deriving DecidableEq

/-- A value: a `<dict>`, a `<vector>`, NIL, or anything that is no collection. -/
inductive Obj (τ κ A : Type) where
  | nil
  | atom (a : A)
  | dict (d : Hamt τ (Key κ) (Obj τ κ A))
  | vector (v : VecT (Obj τ κ A))

variable {τ κ A : Type} [DecidableEq κ]

section Model

variable [DecidableEq (Obj τ κ A)] (sxhash : Key κ → Nat)

/-- `(assoc coll k value)`; `none` is an error. -/
def assoc (coll : Obj τ κ A) (k : Key κ) (value : Obj τ κ A) : Option (Obj τ κ A) :=
  match coll, k with
  | .dict d, k => (hamtAssoc sxhash d k value).map .dict
  | .vector v, .integer i =>
    match vecTAssocAny v i value with
    | .returned v' => some (.vector v')
    | _ => none
  | _, _ => none

omit [DecidableEq (Obj τ κ A)] in
/-- `(get coll k)` on a dict, `(nth coll k)` on a vector. -/
def nested (coll : Obj τ κ A) (k : Key κ) : Option (Obj τ κ A) :=
  match coll, k with
  | .dict d, k => some ((hamtGet sxhash d k).getD .nil)
  | .vector v, .integer i => vecTRef v i
  | _, _ => none

/-- `assoc-in` with the keys `k :: ks`. -/
def assocIn (coll : Obj τ κ A) (k : Key κ) (ks : List (Key κ)) (value : Obj τ κ A) :
    Option (Obj τ κ A) :=
  match ks with
  | [] => assoc sxhash coll k value
  | k' :: ks => do assoc sxhash coll k (← assocIn (← nested sxhash coll k) k' ks value)

/-- `update`. -/
def update (coll : Obj τ κ A) (k : Key κ) (updater : Obj τ κ A → Obj τ κ A) :
    Option (Obj τ κ A) := do
  assoc sxhash coll k (updater (← nested sxhash coll k))

def updateIn (coll : Obj τ κ A) (k : Key κ) (ks : List (Key κ)) (updater : Obj τ κ A → Obj τ κ A) :
    Option (Obj τ κ A) :=
  match ks with
  | [] => update sxhash coll k updater
  | k' :: ks => do assoc sxhash coll k (← updateIn (← nested sxhash coll k) k' ks updater)

end Model

section Reading

variable (sxhash : Key κ → Nat)

/-- The entry that the loop of the method for dicts finds. -/
def dictEntry (current : Obj τ κ A) (k : Key κ) : Option (Obj τ κ A) :=
  match current with
  | .dict d => hamtGet sxhash d k
  | _ => none

/-- The entry that the loop of the method for vectors finds. -/
def entry (current : Obj τ κ A) (k : Key κ) : Option (Obj τ κ A) :=
  match current, k with
  | .vector v, .integer i => if 0 ≤ i ∧ i < v.count then some ((vecTRef v i).getD .nil) else none
  | .vector _, .object _ => none
  | .dict d, k => hamtGet sxhash d k
  | _, _ => none

omit [DecidableEq κ] in
/-- `(dolist (k keys) …)`, which leaves when there is no entry. -/
def walk (find : Obj τ κ A → Key κ → Option (Obj τ κ A)) (notFound : Obj τ κ A) :
    Obj τ κ A → List (Key κ) → Obj τ κ A
  | current, [] => current
  | current, k :: keys =>
    match find current k with
    | some next => walk find notFound next keys
    | none => notFound

/-- `get-in`; there is no method for other values. -/
def getIn (coll : Obj τ κ A) (keys : List (Key κ)) (notFound : Obj τ κ A) : Option (Obj τ κ A) :=
  match coll with
  | .dict _ => some (walk (dictEntry sxhash) notFound coll keys)
  | .vector _ => some (walk (entry sxhash) notFound coll keys)
  | _ => none

end Reading

/-! ## §2 Levels -/

section Levels

variable (sxhash : Key κ → Nat)

/-- A collection that the functions build, which has a place for the key. -/
def Fits (coll : Obj τ κ A) (k : Key κ) : Prop :=
  match coll with
  | .dict d => d.Valid sxhash
  | .vector v => (∃ xs, v.Represents xs) ∧ ∃ i : Nat, k = .integer i ∧ i < v.count
  | _ => False

/-- What `assoc` at a key does to a collection. -/
structure Puts (find : Obj τ κ A → Key κ → Option (Obj τ κ A)) (coll : Obj τ κ A) (k : Key κ)
    (value coll' : Obj τ κ A) : Prop where
  here : find coll' k = some value
  others : ∀ k', k' ≠ k → find coll' k' = find coll k'

end Levels

variable {sxhash : Key κ → Nat} {coll coll' value : Obj τ κ A} {k : Key κ} {ks : List (Key κ)}

theorem nested_eq (h : Fits sxhash coll k) :
    nested sxhash coll k = some ((entry sxhash coll k).getD .nil) := by
  cases coll with
  | nil => exact h.elim
  | atom a => exact h.elim
  | dict d => rfl
  | vector v =>
    obtain ⟨⟨xs, R⟩, i, rfl, hi⟩ := h
    have hlen : v.count = xs.length := R.choose_spec.len
    have href := vecTRef_eq R i
    rw [listRef_natCast, List.getElem?_eq_getElem (by omega)] at href
    simp [nested, entry, href, hi]

theorem entry_vector {v : VecT (Obj τ κ A)} {xs : List (Obj τ κ A)} (R : v.Represents xs)
    (k : Key κ) :
    entry sxhash (.vector v) k =
      match k with
      | .integer i => listRef xs i
      | .object _ => none := by
  cases k with
  | object key => rfl
  | integer i =>
    have hlen : v.count = xs.length := R.choose_spec.len
    simp only [entry]
    rw [vecTRef_eq R]
    split
    · rename_i hin
      obtain ⟨n, rfl⟩ := Int.eq_ofNat_of_zero_le hin.1
      have hn : n < xs.length := by omega
      simp [listRef_natCast, hn]
    · rename_i hout
      exact (listRef_out (by omega)).symm

section Put

variable [DecidableEq (Obj τ κ A)]

theorem assoc_dict {d : Hamt τ (Key κ) (Obj τ κ A)} (hd : d.Valid sxhash) (k : Key κ)
    (value : Obj τ κ A) :
    ∃ d', assoc sxhash (.dict d) k value = some (.dict d') ∧
      ∀ k', hamtGet sxhash d' k' = if k = k' then some value else hamtGet sxhash d k' := by
  have hcongr : ∀ a b : Key κ, (a == b) = true → sxhash a = sxhash b := by simp
  obtain ⟨d', hassoc, hd', hentries⟩ := hamtAssoc_spec hcongr hd k value
  refine ⟨d', by simp [assoc, hassoc], fun k' => ?_⟩
  rw [hamtGet_eq_lookup hcongr hd', hamtGet_eq_lookup hcongr hd,
    ← lookup_perm (hd'.distinct hcongr) hentries, lookup_put]
  simp

theorem assoc_vector {v : VecT (Obj τ κ A)} {xs : List (Obj τ κ A)} (R : v.Represents xs) {i : Nat}
    (hi : i < v.count) (value : Obj τ κ A) :
    ∃ v', assoc sxhash (.vector v) (.integer i) value = some (.vector v') ∧
    v'.Represents (xs.set i value) := by
  have hlen : v.count = xs.length := R.choose_spec.len
  exact ⟨vecTAssoc v i value, by simp [assoc, vecTAssocAny_natCast R hi],
    vecTAssoc_represents R (by omega) value⟩

/-- One level is written as both loops read it. -/
theorem assoc_puts (h : Fits sxhash coll k) (value : Obj τ κ A) :
    ∃ coll', assoc sxhash coll k value = some coll' ∧ Puts (entry sxhash) coll k value coll' ∧
      ((∃ d d', coll = .dict d ∧ coll' = .dict d') ∨ ∃ v v', coll = .vector v ∧
        coll' = .vector v') := by
  cases coll with
  | nil => exact h.elim
  | atom a => exact h.elim
  | dict d =>
    obtain ⟨d', hassoc, hget⟩ := assoc_dict h k value
    refine ⟨.dict d', hassoc, ⟨?_, fun k' hne => ?_⟩, .inl ⟨d, d', rfl, rfl⟩⟩
    · simp [entry, hget]
    · simp [entry, hget, hne.symm]
  | vector v =>
    obtain ⟨⟨xs, R⟩, i, rfl, hi⟩ := h
    have hput : ∃ v', assoc sxhash (.vector v) (.integer i) value = some (.vector v') ∧
        v'.Represents (xs.set i value) := assoc_vector R hi value
    obtain ⟨v', hassoc, R'⟩ := hput
    have hlen : v.count = xs.length := R.choose_spec.len
    refine ⟨.vector v', hassoc, ⟨?_, fun k' hne => ?_⟩, .inr ⟨v, v', rfl, rfl⟩⟩
    · rw [entry_vector R']
      simp [listRef_natCast, show i < xs.length by omega]
    · rw [entry_vector R', entry_vector R]
      cases k' with
      | object key => rfl
      | integer j =>
        have hj : j ≠ i := fun heq => hne (congrArg Key.integer heq)
        simp only [listRef]
        split
        · rfl
        · rw [List.getElem?_set_ne (by omega)]

end Put

/-! ## §3 Paths -/

/-- The proper prefixes of the path lead to collections, and its indices are in range. -/
def Leads (sxhash : Key κ → Nat) (coll : Obj τ κ A) (k : Key κ) : List (Key κ) → Prop
  | [] => Fits sxhash coll k
  | k' :: ks => Fits sxhash coll k ∧ ∃ next, entry sxhash coll k = some next ∧
      Leads sxhash next k' ks

theorem Leads.fits (h : Leads sxhash coll k ks) : Fits sxhash coll k := by
  cases ks with
  | nil => exact h
  | cons k' ks => exact h.1

/-- The collections on the path are all dicts. -/
def throughDicts (sxhash : Key κ → Nat) (coll : Obj τ κ A) (k : Key κ) (ks : List (Key κ)) : Bool :=
  match coll, ks with
  | .dict _, [] => true
  | .dict d, k' :: ks =>
    match hamtGet sxhash d k with
    | some next => throughDicts sxhash next k' ks
    | none => false
  | _, _ => false

/-- The outermost collection is a vector, or no collection on the path is one. -/
def readable (sxhash : Key κ → Nat) (coll : Obj τ κ A) (k : Key κ) (ks : List (Key κ)) : Bool :=
  match coll with
  | .vector _ => true
  | _ => throughDicts sxhash coll k ks

omit [DecidableEq κ] in
@[simp] theorem walk_nil (find : Obj τ κ A → Key κ → Option (Obj τ κ A))
    (notFound current : Obj τ κ A) :
    walk find notFound current [] = current := rfl

omit [DecidableEq κ] in
theorem walk_cons (find : Obj τ κ A → Key κ → Option (Obj τ κ A)) (notFound current : Obj τ κ A)
    (k : Key κ) (keys : List (Key κ)) :
    walk find notFound current (k :: keys) =
      ((find current k).map fun next => walk find notFound next keys).getD notFound := by
  rw [walk]
  cases find current k <;> rfl

section Put

variable [DecidableEq (Obj τ κ A)]

/-- What is put at a path is found there, and what stands elsewhere is found as before. -/
structure PutsAt (find : Obj τ κ A → Key κ → Option (Obj τ κ A)) (coll : Obj τ κ A)
    (path : List (Key κ)) (value coll' : Obj τ κ A) : Prop where
  here : ∀ notFound, walk find notFound coll' path = value
  others : ∀ q notFound, ¬ q <+: path → ¬ path <+: q →
    walk find notFound coll' q = walk find notFound coll q

omit [DecidableEq κ] [DecidableEq (Obj τ κ A)] in
theorem Puts.at_nil {find : Obj τ κ A → Key κ → Option (Obj τ κ A)}
    (h : Puts find coll k value coll') :
    PutsAt find coll [k] value coll' where
  here notFound := by simp [walk_cons, h.here]
  others q notFound hprefix hextends := by
    cases q with
    | nil => exact absurd List.nil_prefix hprefix
    | cons k' q =>
      have hne : k' ≠ k := by
        rintro rfl
        exact hextends (by simp)
      rw [walk_cons, walk_cons, h.others k' hne]

omit [DecidableEq κ] [DecidableEq (Obj τ κ A)] in
theorem Puts.at_cons {find : Obj τ κ A → Key κ → Option (Obj τ κ A)} {next next' : Obj τ κ A}
    (h : Puts find coll k next' coll') (hnext : find coll k = some next)
    (hrest : PutsAt find next ks value next') : PutsAt find coll (k :: ks) value coll' where
  here notFound := by simp [walk_cons, h.here, hrest.here]
  others q notFound hprefix hextends := by
    cases q with
    | nil => exact absurd List.nil_prefix hprefix
    | cons k' q =>
      by_cases hkey : k' = k
      · subst hkey
        rw [List.cons_prefix_cons] at hprefix hextends
        simp only [true_and] at hprefix hextends
        simp [walk_cons, h.here, hnext, hrest.others q notFound hprefix hextends]
      · rw [walk_cons, walk_cons, h.others k' hkey]

/-- Along a path through both kinds of collections, for the loop of vectors. -/
theorem assocIn_puts (h : Leads sxhash coll k ks) (value : Obj τ κ A) :
    ∃ coll', assocIn sxhash coll k ks value = some coll' ∧
    PutsAt (entry sxhash) coll (k :: ks) value coll' ∧
      ((∃ d d', coll = .dict d ∧ coll' = .dict d') ∨ ∃ v v', coll = .vector v ∧
        coll' = .vector v') := by
  induction ks generalizing coll k with
  | nil =>
    obtain ⟨coll', hassoc, hputs, hkind⟩ := assoc_puts h value
    exact ⟨coll', hassoc, hputs.at_nil, hkind⟩
  | cons k' ks ih =>
    obtain ⟨hfits, next, hnext, hleads⟩ := h
    obtain ⟨next', hin, hrest, -⟩ := ih hleads
    obtain ⟨coll', hassoc, hputs, hkind⟩ := assoc_puts hfits next'
    refine ⟨coll', ?_, hputs.at_cons hnext hrest, hkind⟩
    simp [assocIn, nested_eq hfits, hnext, hin, hassoc]

/-- `update-in` puts the value of the function at what the path leads to. -/
theorem updateIn_eq (h : Leads sxhash coll k ks) (updater : Obj τ κ A → Obj τ κ A) :
    updateIn sxhash coll k ks updater =
      assocIn sxhash coll k ks (updater (walk (entry sxhash) .nil coll (k :: ks))) := by
  induction ks generalizing coll k with
  | nil =>
    rw [updateIn, update, nested_eq h, assocIn, walk_cons]
    cases entry sxhash coll k <;> rfl
  | cons k' ks ih =>
    obtain ⟨hfits, next, hnext, hleads⟩ := h
    rw [updateIn, nested_eq hfits, assocIn, nested_eq hfits, walk_cons, hnext]
    simp [ih hleads]

/-- The loop of dicts finds what was put exactly where the path leads through dicts only. -/
theorem assocIn_dicts (h : Leads sxhash coll k ks) (value : Obj τ κ A)
    (hin : assocIn sxhash coll k ks value = some coll') :
    (throughDicts sxhash coll k ks = true → PutsAt (dictEntry sxhash) coll (k :: ks) value coll') ∧
      (throughDicts sxhash coll k ks = false → ∀ notFound,
        walk (dictEntry sxhash) notFound coll' (k :: ks) = notFound) := by
  have hdicts {d d' : Hamt τ (Key κ) (Obj τ κ A)} {k : Key κ} {value : Obj τ κ A}
      (hputs : Puts (entry sxhash) (.dict d) k value (.dict d')) :
      Puts (dictEntry sxhash) (.dict d) k value (.dict d') := ⟨hputs.here, hputs.others⟩
  induction ks generalizing coll k coll' with
  | nil =>
    obtain ⟨coll'', hassoc, hputs, ⟨d, d', rfl, rfl⟩ | ⟨v, v', rfl, rfl⟩⟩ := assoc_puts h value
    · obtain rfl : .dict d' = coll' := Option.some.inj (hassoc.symm.trans hin)
      exact ⟨fun _ => (hdicts hputs).at_nil, nofun⟩
    · obtain rfl : .vector v' = coll' := Option.some.inj (hassoc.symm.trans hin)
      exact ⟨nofun, fun _ _ => rfl⟩
  | cons k' ks ih =>
    obtain ⟨hfits, next, hnext, hleads⟩ := h
    obtain ⟨next', hin', hrest, -⟩ := assocIn_puts hleads value
    obtain ⟨coll'', hassoc, hputs, hkind⟩ := assoc_puts hfits next'
    obtain rfl : coll'' = coll' := by
      simp only [assocIn, nested_eq hfits, hnext, Option.getD_some, Option.bind_eq_bind,
        Option.bind_some, hin', hassoc, Option.some.injEq] at hin
      exact hin
    obtain ⟨hthrough, hnot⟩ := ih hleads hin'
    rcases hkind with ⟨d, d', rfl, rfl⟩ | ⟨v, v', rfl, rfl⟩
    · have hget : hamtGet sxhash d k = some next := hnext
      have hget' : dictEntry sxhash (.dict d') k = some next' := hputs.here
      simp only [throughDicts, hget]
      refine ⟨fun hdicts' => (hdicts hputs).at_cons hget (hthrough hdicts'), fun hno notFound => ?_⟩
      rw [walk_cons, hget', Option.map_some, hnot hno, Option.getD_some]
    · exact ⟨nofun, fun _ _ => rfl⟩

omit [DecidableEq (Obj τ κ A)] in
theorem walk_dicts (notFound : Obj τ κ A) (h : throughDicts sxhash coll k ks = true) :
    walk (dictEntry sxhash) notFound coll (k :: ks) = walk (entry sxhash) notFound coll
    (k :: ks) := by
  induction ks generalizing coll k with
  | nil =>
    cases coll with
    | dict d => rfl
    | nil => cases h
    | atom a => cases h
    | vector v => cases h
  | cons k' ks ih =>
    cases coll with
    | dict d =>
      simp only [throughDicts] at h
      split at h
      case h_1 next hnext =>
        have hdict : dictEntry sxhash (.dict d) k = some next := hnext
        have hentry : entry sxhash (.dict d) k = some next := hnext
        rw [walk_cons, walk_cons, hdict, hentry, Option.map_some, Option.map_some, ih h]
      case h_2 => cases h
    | nil => cases h
    | atom a => cases h
    | vector v => cases h

/-! ## §4 Lens -/

/-- At this path, for every value and every function. -/
structure Lens (sxhash : Key κ → Nat) (coll : Obj τ κ A) (k : Key κ) (ks : List (Key κ)) :
    Prop where
  puts : ∀ value, ∃ coll', assocIn sxhash coll k ks value = some coll' ∧
    getIn sxhash coll' (k :: ks) .nil = some value ∧
    ∀ q notFound, ¬ q <+: k :: ks → ¬ k :: ks <+: q →
      getIn sxhash coll' q notFound = getIn sxhash coll q notFound
  updates : ∀ updater, updateIn sxhash coll k ks updater =
    (getIn sxhash coll (k :: ks) .nil).bind fun old => assocIn sxhash coll k ks (updater old)

theorem Lens.readable (hlens : Lens sxhash coll k ks) (h : Leads sxhash coll k ks) :
    readable sxhash coll k ks = true := by
  obtain ⟨coll', hin, hget, -⟩ := hlens.puts (.dict {})
  obtain ⟨coll'', hin', -, hkind⟩ := assocIn_puts h (.dict {})
  obtain rfl : coll'' = coll' := Option.some.inj (hin'.symm.trans hin)
  rcases hkind with ⟨d, d', rfl, rfl⟩ | ⟨v, v', rfl, rfl⟩
  · by_contra hno
    have hwalk := (assocIn_dicts h _ hin).2 (Bool.eq_false_iff.mpr hno) .nil
    simp only [getIn, hwalk] at hget
    cases hget
  · rfl

theorem lens_iff_readable (h : Leads sxhash coll k ks) :
    Lens sxhash coll k ks ↔ readable sxhash coll k ks = true := by
  constructor
  · exact fun hlens => hlens.readable h
  · intro hreadable
    refine ⟨fun value => ?_, fun updater => ?_⟩
    · obtain ⟨coll', hin, hputs, ⟨d, d', rfl, rfl⟩ | ⟨v, v', rfl, rfl⟩⟩ := assocIn_puts h value
      · have hdicts := (assocIn_dicts h value hin).1 hreadable
        refine ⟨.dict d', hin, congrArg some (hdicts.here .nil),
          fun q notFound hprefix hextends => ?_⟩
        exact congrArg some (hdicts.others q notFound hprefix hextends)
      · refine ⟨.vector v', hin, congrArg some (hputs.here .nil),
          fun q notFound hprefix hextends => ?_⟩
        exact congrArg some (hputs.others q notFound hprefix hextends)
    · rw [updateIn_eq h]
      cases coll with
      | nil => exact h.fits.elim
      | atom a => exact h.fits.elim
      | dict d => rw [getIn, Option.bind_some, walk_dicts .nil hreadable]
      | vector v => rfl

end Put

/-- `[{}]` at the path 0, `a`. -/
theorem lens_dict_in_vector : open Classical in
    Leads (fun _ => 0) (.vector (buildVecTFromList [.dict {}]) : Obj Unit Char Nat) (.integer 0)
    [.object 'a'] ∧
      Lens (fun _ => 0) (.vector (buildVecTFromList [.dict {}]) : Obj Unit Char Nat) (.integer 0)
        [.object 'a'] := by
  classical
  have hleads :
    Leads (fun _ => 0) (.vector (buildVecTFromList [.dict {}]) : Obj Unit Char Nat) (.integer 0)
      [.object 'a'] :=
    ⟨⟨⟨_, buildVecTFromList_represents _⟩, 0, rfl, by decide⟩, .dict {}, rfl, Hamt.Valid.empty _⟩
  exact ⟨hleads, (lens_iff_readable hleads).mpr rfl⟩

/-- A dict that holds `[nil]` under `a`. -/
def vectorInDict : Obj Unit Char Nat :=
  .dict { count := 1, root := some (.leaf ⟨0, .object 'a', .vector (buildVecTFromList [.nil])⟩) }

theorem not_lens_vector_in_dict : open Classical in
    Leads (fun _ => 0) vectorInDict (.object 'a') [.integer 0] ∧
      ¬ Lens (fun _ => 0) vectorInDict (.object 'a') [.integer 0] := by
  classical
  have hvalid : Fits (fun _ => 0) vectorInDict (.object 'a') := by
    obtain ⟨d, hassoc, hvalid, -⟩ :=
      @hamtAssoc_spec Unit (Key Char) (Obj Unit Char Nat) _ _ (fun _ => 0)
      (fun _ _ _ => rfl) {} (Hamt.Valid.empty _) (.object 'a') (.vector (buildVecTFromList [.nil]))
    obtain rfl := Option.some.inj hassoc
    exact hvalid
  have hleads : Leads (fun _ => 0) vectorInDict (.object 'a') [.integer 0] :=
    ⟨hvalid, .vector (buildVecTFromList [.nil]), rfl, ⟨_, buildVecTFromList_represents _⟩, 0,
      rfl, by decide⟩
  exact ⟨hleads, fun hlens => nomatch hlens.readable hleads⟩

end Fol.Nested
