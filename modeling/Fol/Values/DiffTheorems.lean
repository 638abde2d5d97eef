/-
Fol.Values.DiffTheorems — where `diff` decomposes its arguments.

  §1 Keys        — `keySeq_of_listable`, `listable_of_subset`.
  §2 Dicts       — `diffDicts_eq_some`.
  §3 Leaves      — `diff_leaves`, `rel_over_nonNil`.
  §4 Pairs       — `PartsAt.left`, `PartsAt.swapped`, `diff_dicts`.
  §5 Sufficiency — `Restorable.restores`, `Restorable.swapped`, `Restorable.nothingOnly_iff`.
  §6 Necessity   — `restorable_of_decomposed`.
  §7 Result      — `diff_decomposes_iff`.
-/
import Fol.Values.Overlays

namespace Fol.Values

section

variable {α : Type} [DecidableEq α] {K : Keywords α} {fresh : Nat}

/-! ## §1 Keys -/

theorem keys_listed_eq {xs : List (Value α)} (h : .atom K.eof ∉ xs.map Value.key) :
    listed K.toAtoms .vector xs = xs := by
  rw [listed, if_pos rfl, List.takeWhile_eq_self_iff]
  intro x hx
  rw [decide_eq_true_iff]
  exact fun hkey => h (List.mem_map.mpr ⟨x, hx, hkey⟩)

theorem eof_not_mem_listed (xs : List (Value α)) :
    .atom K.eof ∉ (listed K.toAtoms .vector xs).map Value.key := by
  rw [listed, if_pos rfl, List.mem_map]
  rintro ⟨x, hx, hkey⟩
  simpa [hkey] using List.mem_takeWhile_imp hx

omit [DecidableEq α] in
theorem keysOf_eq (es : Entries α) : keysOf es = (es.map Prod.fst).map Value.key := by
  rw [List.map_map]
  rfl

theorem keySeq_of_listable {es : Entries α} (h : Listable K es) :
    keySeq K es = some (es.map Prod.fst) := by
  obtain ⟨heof, hfill⟩ := h
  rw [keysOf_eq] at heof hfill
  unfold keySeq
  generalize es.map Prod.fst = keys at *
  rw [vectorSeq.eq_def]
  split
  · next a b =>
    have ha : a.key ≠ .atom K.initialElement := fun ha => hfill b.key (by simp [ha])
    rw [if_neg ha, keys_listed_eq heof]
  · rw [keys_listed_eq heof]

theorem vectorSeq_subset {keys ks : List (Value α)} (h : vectorSeq K keys = some ks) :
    ks ⊆ keys := by
  rw [vectorSeq.eq_def] at h
  split at h
  · next a b =>
    split at h
    · split at h
      · next n =>
        obtain ⟨m, -, rfl⟩ := Option.map_eq_some_iff.mp h
        intro x hx
        rw [List.eq_of_mem_replicate (listed_subset _ _ hx)]
        exact List.mem_cons_self
      · cases h
    · cases h
      exact listed_subset _ _
  · cases h
    exact listed_subset _ _

theorem keySeq_subset {es : Entries α} {ks : List (Value α)} (h : keySeq K es = some ks) :
    ks.map Value.key ⊆ keysOf es := by
  rw [keysOf_eq]
  exact List.map_subset _ (vectorSeq_subset h)

/-- If all keys are listed, none is cut off and the vector is not a filled one. -/
theorem listable_of_subset {es : Entries α} {ks : List (Value α)} (h : keySeq K es = some ks)
    (hsub : keysOf es ⊆ ks.map Value.key) : Listable K es := by
  rw [Listable, keysOf_eq] at *
  unfold keySeq at h
  generalize es.map Prod.fst = keys at *
  rw [vectorSeq.eq_def] at h
  split at h
  · next a b =>
    split at h
    · next ha =>
      split at h
      · next n =>
        obtain ⟨m, hm, rfl⟩ := Option.map_eq_some_iff.mp h
        have hn : Key.atom n ∈ (listed K.toAtoms .vector (List.replicate m a)).map Value.key :=
          hsub (by simp [Value.key])
        obtain ⟨x, hx, hkey⟩ := List.mem_map.mp hn
        rw [List.eq_of_mem_replicate (listed_subset _ _ hx), ha] at hkey
        cases hkey
        rw [K.size_initialElement] at hm
        cases hm
      · cases h
    · next ha =>
      cases h
      refine ⟨fun heof => eof_not_mem_listed _ (hsub heof), fun k hk => ha ?_⟩
      simp only [List.map_cons, List.map_nil, List.cons.injEq] at hk
      exact hk.1
  · next hne =>
    cases h
    refine ⟨fun heof => eof_not_mem_listed _ (hsub heof), fun k hk => ?_⟩
    obtain ⟨a, b, rfl⟩ : ∃ a b, keys = [a, b] :=
      List.length_eq_two.mp (by simpa using congrArg List.length hk)
    exact hne a b rfl

/-! ## §2 Dicts -/

theorem differs_eq (es : Entries α) :
    differs K fresh es = es.map fun e => (e.1.key, diff K fresh e.2) := by
  induction es with
  | nil => rfl
  | cons e es ih => rw [differs, ih, List.map_cons, differOf]

theorem differAt_eq (es : Entries α) (k : Key α) :
    differAt K (differs K fresh es) k = diff K fresh (get K es k) := by
  have hlookup : (differs K fresh es).lookup k = (valueOf es k).map (diff K fresh) := by
    rw [differs_eq, valueOf, ← Lib.lookup_map, List.map_map]
    rfl
  rw [differAt, hlookup, get]
  cases valueOf es k with
  | none => funext b; simp [diff]
  | some v => rfl

/-- `none` for NIL. -/
def nonNil (K : Keywords α) (v : Value α) : Option (Value α) :=
  if v.key = .atom K.nil then none else some v

def putSome (es : Entries α) (key : Value α) : Option (Value α) → Entries α
  | none => es
  | some value => put es key value

theorem putWhen_eq (es : Entries α) (key value : Value α) :
    putWhen K es key value = putSome es key (nonNil K value) := by
  unfold putWhen nonNil
  split <;> rfl

/-- Under each key of the list, what `c` says. -/
def putAll (c : Key α → Option (Value α)) (ks : List (Value α)) (es : Entries α) : Entries α :=
  ks.foldl (fun es k => putSome es k (c k.key)) es

theorem valueOf_putAll (c : Key α → Option (Value α)) (ks : List (Value α)) (es : Entries α)
    (k : Key α) :
    valueOf (putAll c ks es) k = if k ∈ ks.map Value.key then (c k).or (valueOf es k)
    else valueOf es k := by
  induction ks generalizing es with
  | nil => rfl
  | cons l ks ih =>
    rw [putAll, List.foldl_cons, ← putAll, ih]
    have hput : valueOf (putSome es l (c l.key)) k = if k = l.key then (c k).or (valueOf es k)
      else valueOf es k := by
      cases hc : c l.key with
      | none =>
        rw [putSome]
        split
        · next hk => rw [hk, hc, Option.none_or]
        · rfl
      | some v =>
        rw [putSome, valueOf_put]
        split
        · next hk => rw [hk, hc, Option.some_or]
        · rfl
    simp only [hput, List.map_cons, List.mem_cons]
    by_cases hk : k = l.key
    · simp only [hk, if_true, true_or]
      split
      · cases c l.key <;> simp
      · rfl
    · simp only [hk, if_false, false_or]

theorem nodup_putAll (c : Key α → Option (Value α)) (ks : List (Value α)) {es : Entries α}
    (hes : (keysOf es).Nodup) : (keysOf (putAll c ks es)).Nodup := by
  induction ks generalizing es with
  | nil => exact hes
  | cons l ks ih =>
    refine ih ?_
    dsimp only
    cases c l.key with
    | none => exact hes
    | some v => exact nodup_put hes l v

/-- What the loop over the keys of `a` puts under a key. -/
def share (K : Keywords α) (fresh : Nat) (es fs : Entries α) (k : Key α) :
    Option (Option (Value α) × Option (Value α) × Option (Value α)) :=
  if k ∈ keysOf fs then
    (diff K fresh (get K es k) (get K fs k)).map fun p =>
    (nonNil K p.aOnly, nonNil K p.bOnly, nonNil K p.both)
  else some (some (get K es k), none, none)

theorem aStep_eq (es fs : Entries α) (s : Split α) (k : Value α) :
    aStep K es fs (differs K fresh es) s k = (share K fresh es fs k.key).map fun c =>
      ⟨putSome s.aOnly k c.1, putSome s.bOnly k c.2.1, putSome s.both k c.2.2⟩ := by
  unfold aStep share
  split
  · rw [differAt_eq, Option.map_map]
    simp only [putWhen_eq]
    rfl
  · rfl

theorem foldlM_aStep {es fs : Entries α} {ks : List (Value α)} {s s' : Split α} :
    ks.foldlM (aStep K es fs (differs K fresh es)) s = some s' ↔
      (∀ k ∈ ks, (share K fresh es fs k.key).isSome) ∧
        s' = ⟨putAll (fun k => (share K fresh es fs k).bind fun c => c.1) ks s.aOnly,
          putAll (fun k => (share K fresh es fs k).bind fun c => c.2.1) ks s.bOnly,
          putAll (fun k => (share K fresh es fs k).bind fun c => c.2.2) ks s.both⟩ := by
  induction ks generalizing s with
  | nil =>
    rw [List.foldlM_nil]
    simp only [List.not_mem_nil, false_imp_iff, implies_true, true_and, putAll, List.foldl_nil]
    exact ⟨fun h => (Option.some.inj h).symm, fun h => congrArg some h.symm⟩
  | cons k ks ih =>
    rw [List.foldlM_cons, aStep_eq]
    cases hc : share K fresh es fs k.key with
    | none => simp [hc]
    | some c =>
      simp only [Option.map_some, Option.bind_eq_bind, Option.bind_some, ih, putAll,
        List.foldl_cons, List.forall_mem_cons, hc, Option.isSome_some, true_and]

theorem foldl_bStep (es fs : Entries α) (ls : List (Value α)) (bOnly : Entries α) :
    ls.foldl (bStep K es fs) bOnly =
      putAll (fun k => if k ∈ keysOf es then none else some (get K fs k)) ls bOnly := by
  unfold putAll
  congr 1
  funext bOnly k
  unfold bStep
  dsimp only
  split <;> rfl

/-- What the parts have under a key, `ks` and `ls` being the keys as they are listed. -/
inductive PartsAt (K : Keywords α) (fresh : Nat) (es fs : Entries α) (ks ls : List (Key α))
    (k : Key α) :
    Option (Value α) → Option (Value α) → Option (Value α) → Prop where
  | shared (hk : k ∈ ks) (hfs : k ∈ keysOf fs) {p : Parts α}
      (h : diff K fresh (get K es k) (get K fs k) = some p) :
      PartsAt K fresh es fs ks ls k (nonNil K p.aOnly) (nonNil K p.bOnly) (nonNil K p.both)
  | aOnly (hk : k ∈ ks) (hfs : k ∉ keysOf fs) :
      PartsAt K fresh es fs ks ls k (some (get K es k)) none none
  | bOnly (hes : k ∉ keysOf es) (hk : k ∈ ls) :
      PartsAt K fresh es fs ks ls k none (some (get K fs k)) none
  | dropped (hk : k ∉ ks) (hls : k ∈ ls → k ∈ keysOf es) :
      PartsAt K fresh es fs ks ls k none none none

theorem diffDicts_eq_some {es fs : Entries α} {p : Parts α}
    (h : diffDicts K fresh es fs (differs K fresh es) = some p) :
    ∃ ks ls A B C, keySeq K es = some ks ∧ keySeq K fs = some ls ∧ (keysOf A).Nodup ∧
    (keysOf B).Nodup ∧
      (keysOf C).Nodup ∧ p = ⟨dictOr K fresh A, dictOr K fresh B, dictOr K fresh C⟩ ∧
      ∀ k, PartsAt K fresh es fs (ks.map Value.key) (ls.map Value.key) k (valueOf A k) (valueOf B k)
      (valueOf C k) := by
  obtain ⟨ks, hks, h⟩ := Option.bind_eq_some_iff.mp h
  obtain ⟨s, hs, h⟩ := Option.bind_eq_some_iff.mp h
  obtain ⟨ls, hls, h⟩ := Option.bind_eq_some_iff.mp h
  obtain ⟨hshare, rfl⟩ := foldlM_aStep.mp hs
  cases h
  rw [foldl_bStep]
  dsimp only
  have hnil : (keysOf ([] : Entries α)).Nodup := .nil
  refine ⟨ks, ls, _, _, _, hks, hls, ?_, ?_, ?_, rfl, fun k => ?_⟩
  · exact nodup_putAll _ ks hnil
  · exact nodup_putAll _ ls (nodup_putAll _ ks hnil)
  · exact nodup_putAll _ ks hnil
  simp only [valueOf_putAll, valueOf_nil, Option.or_none]
  by_cases hk : k ∈ ks.map Value.key
  · simp only [hk, if_true]
    have hes := keySeq_subset hks hk
    obtain ⟨l, hl, rfl⟩ := List.mem_map.mp hk
    have hsome := hshare l hl
    simp only [hes, if_true, Option.none_or, ite_self]
    by_cases hfs : l.key ∈ keysOf fs
    · rw [share, if_pos hfs] at hsome ⊢
      rw [Option.isSome_map] at hsome
      obtain ⟨p, hp⟩ := Option.isSome_iff_exists.mp hsome
      rw [hp]
      exact .shared hk hfs hp
    · rw [share, if_neg hfs]
      exact .aOnly hk hfs
  · simp only [hk, if_false]
    by_cases hl : k ∈ ls.map Value.key
    · by_cases hes : k ∈ keysOf es
      · simp only [hl, hes, if_true, Option.or_none]
        exact .dropped hk fun _ => hes
      · simp only [hl, hes, if_true, if_false, Option.or_none]
        exact .bOnly hes hl
    · simp only [hl, if_false]
      exact .dropped hk fun h => absurd h hl

theorem exists_diffDicts {es fs : Entries α} {ks ls : List (Value α)} (hks : keySeq K es = some ks)
    (hls : keySeq K fs = some ls)
    (h : ∀ k ∈ keysOf es, k ∈ keysOf fs → ∃ p, diff K fresh (get K es k) (get K fs k) = some p) :
    ∃ p, diffDicts K fresh es fs (differs K fresh es) = some p := by
  have hshare : ∀ k ∈ ks, (share K fresh es fs k.key).isSome := by
    intro k hk
    have hes := keySeq_subset hks (List.mem_map_of_mem hk)
    unfold share
    split
    · next hfs =>
      obtain ⟨p, hp⟩ := h _ hes hfs
      simp [hp]
    · rfl
  have hfold := foldlM_aStep (s := ⟨[], [], []⟩).mpr ⟨hshare, rfl⟩
  exact ⟨_, by simp [diffDicts, hks, hls, hfold]; rfl⟩

/-! ## §3 Leaves -/

variable {H : Nat → Option (Value α)} {a b : Value α}

theorem Stored.refl (ha : Stored H a) : Equals K.toAtoms a a := by
  induction ha with
  | atom _ => simp
  | @vector id xs _ _ ih =>
      exact equals_seq.mpr ⟨rfl, rfl, forall_zip_self fun x hx => ih x (listed_subset _ xs hx)⟩
  | dict _ _ _ hkeys _ ihv =>
      exact equals_dict.mpr ⟨rfl, fun e he => ⟨e.2, valueOf_of_mem hkeys he, ihv e he⟩⟩
  | set _ _ _ _ => exact equals_set.mpr ⟨rfl, fun y hy => List.mem_map_of_mem hy⟩

omit [DecidableEq α] in
/-- One identity is one collection. -/
theorem Stored.eq_of_key (ha : Stored H a) (hb : Stored H b) (h : a.key = b.key) : a = b := by
  cases ha <;> cases hb <;> simp_all [Value.key]

theorem diff_leaves (h : Leaves a b) : diff K fresh a b = some (leafParts K a b) := by
  cases a with
  | dict id es =>
    cases b with
    | dict j fs => exact absurd rfl (h rfl).1
    | _ => rfl
  | set id xs =>
    cases b with
    | set j ys => exact absurd rfl (h rfl).2
    | _ => rfl
  | _ => simp [diff]

@[simp] theorem overlay_nil_left (z : Value α) : overlay K fresh (.atom K.nil) z = z := by
  simp [overlay]

@[simp] theorem overlay_nil_right (x : Value α) : overlay K fresh x (.atom K.nil) = x := by
  cases x with
  | atom a =>
    rw [overlay]
    split
    · next h => rw [h]
    · rfl
  | _ => simp [overlay]

theorem overlay_eq_nil {x z : Value α} (h : overlay K fresh x z = .atom K.nil) :
    x = .atom K.nil ∧ z = .atom K.nil := by
  cases x with
  | atom a =>
    rw [overlay] at h
    split at h
    · next ha => exact ⟨congrArg _ ha, h⟩
    · next ha =>
      cases h
      exact absurd rfl ha
  | dict id es => cases z <;> simp [overlay] at h
  | set id xs => cases z <;> simp [overlay] at h
  | _ => simp [overlay] at h

theorem nonNil_eq_none {v : Value α} : nonNil K v = none ↔ v = .atom K.nil := by
  simp [nonNil]

theorem nonNil_of_ne {v : Value α} (h : v ≠ .atom K.nil) : nonNil K v = some v := by
  simp [nonNil, h]

theorem rel_nonNil {v w : Value α} :
    Option.Rel (Equals K.toAtoms) (nonNil K v) (nonNil K w) ↔ Equals K.toAtoms v w := by
  constructor
  · intro h
    have hnone := rel_none_iff h
    by_cases hv : v = .atom K.nil
    · have hw := nonNil_eq_none.mp (hnone.mp (nonNil_eq_none.mpr hv))
      rw [hv, hw]
      simp
    · have hw : w ≠ .atom K.nil :=
        fun hw => hv (nonNil_eq_none.mp (hnone.mpr (nonNil_eq_none.mpr hw)))
      rw [nonNil_of_ne hv, nonNil_of_ne hw] at h
      cases h with
      | some heq => exact heq
  · intro h
    by_cases hv : v = .atom K.nil
    · rw [nonNil_eq_none.mpr hv, nonNil_eq_none.mpr (h.nil_iff.mp hv)]
      exact .none
    · rw [nonNil_of_ne hv, nonNil_of_ne fun hw => hv (h.nil_iff.mpr hw)]
      exact .some h

theorem rel_over_nonNil {x z v : Value α} :
    Option.Rel (Equals K.toAtoms) (overAt K fresh (nonNil K x) (nonNil K z)) (some v) ↔
      v ≠ .atom K.nil ∧ Equals K.toAtoms (overlay K fresh x z) v := by
  by_cases hnil : x = .atom K.nil ∧ z = .atom K.nil
  · obtain ⟨rfl, rfl⟩ := hnil
    have hnone : nonNil K (.atom K.nil) = none := nonNil_eq_none.mpr rfl
    refine iff_of_false ?_ ?_
    · rw [hnone, overAt]
      intro h
      cases h
    · rw [overlay_nil_left, equals_atom]
      exact fun h => h.1 h.2
  · have hover : overAt K fresh (nonNil K x) (nonNil K z) = some (overlay K fresh x z) := by
      by_cases hx : x = .atom K.nil
      · have hz : z ≠ .atom K.nil := fun hz => hnil ⟨hx, hz⟩
        rw [nonNil_eq_none.mpr hx, nonNil_of_ne hz, hx, overlay_nil_left, overAt]
      · rw [nonNil_of_ne hx]
        by_cases hz : z = .atom K.nil
        · rw [nonNil_eq_none.mpr hz, hz, overlay_nil_right, overAt]
        · rw [nonNil_of_ne hz, overAt]
    rw [hover]
    constructor
    · intro h
      cases h with
      | some heq =>
        refine ⟨?_, heq⟩
        rintro rfl
        exact hnil (overlay_eq_nil (equals_atom_right heq))
    · exact fun h => .some h.2

theorem get_of_mem {es : Entries α} (hes : (keysOf es).Nodup) {e : Value α × Value α}
    (he : e ∈ es) :
    get K es e.1.key = e.2 := by
  rw [get, valueOf_of_mem hes he, Option.getD_some]

theorem exists_shared {es fs : Entries α} (hes : (keysOf es).Nodup) (hfs : (keysOf fs).Nodup)
    {k : Key α} (hk : k ∈ keysOf es) (hk' : k ∈ keysOf fs) :
    ∃ e ∈ es, ∃ f ∈ fs, e.1.key = k ∧ f.1.key = k ∧ get K es k = e.2 ∧ get K fs k = f.2 := by
  obtain ⟨e, he, rfl⟩ := List.mem_map.mp hk
  obtain ⟨f, hf, hkey⟩ := List.mem_map.mp hk'
  exact ⟨e, he, f, hf, rfl, hkey, get_of_mem hes he, hkey ▸ get_of_mem hfs hf⟩

theorem valueOf_eq_get {es : Entries α} {k : Key α} (h : k ∈ keysOf es) :
    valueOf es k = some (get K es k) := by
  obtain ⟨e, -, -, hv⟩ := exists_valueOf h
  rw [get, hv, Option.getD_some]

theorem stored_get {es : Entries α} (hvs : ∀ e ∈ es, Stored H e.2) {k : Key α}
    (hk : k ∈ keysOf es) :
    Equals K.toAtoms (get K es k) (get K es k) := by
  obtain ⟨e, he, -, hv⟩ := exists_valueOf hk
  rw [get, hv, Option.getD_some]
  exact (hvs e he).refl

omit [DecidableEq α] in
theorem Leaves.symm (h : Leaves a b) : Leaves b a := by
  intro hcls
  rw [hcls]
  exact h hcls.symm

omit [DecidableEq α] in
theorem Restorable.symm (h : Restorable K a b) : Restorable K b a := by
  induction h with
  | leaves h => exact .leaves h.symm
  | set hxs hys => exact .set hys hxs
  | dict hes hfs hlist hlist' hleft hright _ ih =>
    exact .dict hfs hes hlist' hlist hright hleft fun f hf e he hkey => ih e he f hf hkey.symm

/-! ## §4 Pairs -/

section Pairs

variable {es fs : Entries α} {k : Key α} {x y z x' y' z' : Option (Value α)}

theorem PartsAt.left (h : PartsAt K fresh es fs (keysOf es) (keysOf fs) k x y z)
    (hshared : k ∈ keysOf es → k ∈ keysOf fs → ∀ p,
      diff K fresh (get K es k) (get K fs k) = some p →
      get K es k ≠ .atom K.nil ∧ Equals K.toAtoms (overlay K fresh p.aOnly p.both) (get K es k))
    (hrefl : k ∈ keysOf es → Equals K.toAtoms (get K es k) (get K es k)) :
    Option.Rel (Equals K.toAtoms) (overAt K fresh x z) (valueOf es k) := by
  cases h with
  | shared hes hfs hp =>
    rw [valueOf_eq_get (K := K) hes]
    exact rel_over_nonNil.mpr (hshared hes hfs _ hp)
  | aOnly hes hfs =>
    rw [valueOf_eq_get (K := K) hes]
    exact .some (hrefl hes)
  | bOnly hes hfs =>
    rw [valueOf_eq_none.mpr hes]
    exact .none
  | dropped hes hfs =>
    rw [valueOf_eq_none.mpr hes]
    exact .none

theorem PartsAt.right (h : PartsAt K fresh es fs (keysOf es) (keysOf fs) k x y z)
    (hshared : k ∈ keysOf es → k ∈ keysOf fs → ∀ p,
      diff K fresh (get K es k) (get K fs k) = some p →
      get K fs k ≠ .atom K.nil ∧ Equals K.toAtoms (overlay K fresh p.bOnly p.both) (get K fs k))
    (hrefl : k ∈ keysOf fs → Equals K.toAtoms (get K fs k) (get K fs k)) :
    Option.Rel (Equals K.toAtoms) (overAt K fresh y z) (valueOf fs k) := by
  cases h with
  | shared hes hfs hp =>
    rw [valueOf_eq_get (K := K) hfs]
    exact rel_over_nonNil.mpr (hshared hes hfs _ hp)
  | aOnly hes hfs =>
    rw [valueOf_eq_none.mpr hfs]
    exact .none
  | bOnly hes hfs =>
    rw [valueOf_eq_get (K := K) hfs]
    exact .some (hrefl hfs)
  | dropped hes hfs =>
    rw [valueOf_eq_none.mpr fun h => hes (hfs h)]
    exact .none

theorem PartsAt.swapped (h : PartsAt K fresh es fs (keysOf es) (keysOf fs) k x y z)
    (h' : PartsAt K fresh fs es (keysOf fs) (keysOf es) k x' y' z')
    (hshared : k ∈ keysOf es → k ∈ keysOf fs → ∀ p q,
      diff K fresh (get K es k) (get K fs k) = some p →
      diff K fresh (get K fs k) (get K es k) = some q → Swapped K p q)
    (hes : k ∈ keysOf es → Equals K.toAtoms (get K es k) (get K es k))
    (hfs : k ∈ keysOf fs → Equals K.toAtoms (get K fs k) (get K fs k)) :
    Option.Rel (Equals K.toAtoms) x' y ∧ Option.Rel (Equals K.toAtoms) y' x ∧
    Option.Rel (Equals K.toAtoms) z' z := by
  cases h with
  | shared hk hk' hp =>
    cases h' with
    | shared _ _ hq =>
      have hswap := hshared hk hk' _ _ hp hq
      exact ⟨rel_nonNil.mpr hswap.aOnly, rel_nonNil.mpr hswap.bOnly, rel_nonNil.mpr hswap.both⟩
    | aOnly _ hn => exact absurd hk hn
    | bOnly hn _ => exact absurd hk' hn
    | dropped hn _ => exact absurd hk' hn
  | aOnly hk hk' =>
    cases h' with
    | shared hn _ _ => exact absurd hn hk'
    | aOnly hn _ => exact absurd hn hk'
    | bOnly _ _ => exact ⟨.none, .some (hes hk), .none⟩
    | dropped _ hn => exact absurd (hn hk) hk'
  | bOnly hk hk' =>
    cases h' with
    | shared _ hn _ => exact absurd hn hk
    | aOnly _ _ => exact ⟨.some (hfs hk'), .none, .none⟩
    | bOnly hn _ => exact absurd hk' hn
    | dropped hn _ => exact absurd hk' hn
  | dropped hk hk' =>
    cases h' with
    | shared hn _ _ => exact absurd (hk' hn) hk
    | aOnly hn _ => exact absurd (hk' hn) hk
    | bOnly _ hn => exact absurd hn hk
    | dropped _ _ => exact ⟨.none, .none, .none⟩

/-- With nothing in one dict only, they have the same keys. -/
theorem PartsAt.mem_iff (h : PartsAt K fresh es fs (keysOf es) (keysOf fs) k x y z)
    (hnone : x = none ∧ y = none) :
    k ∈ keysOf es ↔ k ∈ keysOf fs := by
  cases h with
  | shared hk hk' _ => exact iff_of_true hk hk'
  | aOnly _ _ => exact absurd hnone.1 (Option.some_ne_none _)
  | bOnly _ _ => exact absurd hnone.2 (Option.some_ne_none _)
  | dropped hk hk' => exact iff_of_false hk fun h => hk (hk' h)

theorem PartsAt.nothingOnly (h : PartsAt K fresh es fs (keysOf es) (keysOf fs) k x y z)
    (hk : k ∈ keysOf es) (hk' : k ∈ keysOf fs) (hnone : x = none ∧ y = none) :
    ∃ p, diff K fresh (get K es k) (get K fs k) = some p ∧ NothingOnly K p := by
  cases h with
  | shared _ _ hp => exact ⟨_, hp, nonNil_eq_none.mp hnone.1, nonNil_eq_none.mp hnone.2⟩
  | aOnly _ hn => exact absurd hk' hn
  | bOnly hn _ => exact absurd hk hn
  | dropped hn _ => exact absurd hk hn

theorem PartsAt.eq_none (h : PartsAt K fresh es fs (keysOf es) (keysOf fs) k x y z)
    (hkeys : k ∈ keysOf es ↔ k ∈ keysOf fs) (hshared : k ∈ keysOf es → k ∈ keysOf fs →
      ∀ p, diff K fresh (get K es k) (get K fs k) = some p → NothingOnly K p) :
      x = none ∧ y = none := by
  cases h with
  | shared hk hk' hp =>
    obtain ⟨hx, hy⟩ := hshared hk hk' _ hp
    exact ⟨nonNil_eq_none.mpr hx, nonNil_eq_none.mpr hy⟩
  | aOnly hk hk' => exact absurd (hkeys.mp hk) hk'
  | bOnly hk hk' => exact absurd (hkeys.mpr hk') hk
  | dropped _ _ => exact ⟨rfl, rfl⟩

end Pairs

theorem diff_dicts {i j : Nat} {es fs : Entries α} {p : Parts α} (hlist : Listable K es)
    (hlist' : Listable K fs) (h : diff K fresh (.dict i es) (.dict j fs) = some p) :
    ∃ A B C, (keysOf A).Nodup ∧ (keysOf B).Nodup ∧ (keysOf C).Nodup ∧
      p = ⟨dictOr K fresh A, dictOr K fresh B, dictOr K fresh C⟩ ∧
      ∀ k, PartsAt K fresh es fs (keysOf es) (keysOf fs) k (valueOf A k) (valueOf B k)
      (valueOf C k) := by
  rw [diff] at h
  obtain ⟨ks, ls, A, B, C, hks, hls, hA, hB, hC, hp, hparts⟩ := diffDicts_eq_some h
  rw [keySeq_of_listable hlist] at hks
  rw [keySeq_of_listable hlist'] at hls
  cases hks
  cases hls
  rw [← keysOf_eq, ← keysOf_eq] at hparts
  exact ⟨A, B, C, hA, hB, hC, hp, hparts⟩

/-! ## §5 Sufficiency -/

theorem Restorable.exists_diff (fresh : Nat) (h : Restorable K a b) (ha : Stored H a)
    (hb : Stored H b) :
    ∃ p, diff K fresh a b = some p := by
  induction h with
  | leaves h => exact ⟨_, diff_leaves h⟩
  | set _ _ => exact ⟨_, rfl⟩
  | dict _ _ hlist hlist' _ _ _ ih =>
    cases ha with
    | dict _ _ hvs hes =>
      cases hb with
      | dict _ _ hvs' hfs =>
        refine exists_diffDicts (keySeq_of_listable hlist) (keySeq_of_listable hlist')
          fun k hk hk' => ?_
        obtain ⟨e, he, f, hf, rfl, hkey, hget, hget'⟩ := exists_shared (K := K) hes hfs hk hk'
        rw [hget, hget']
        exact ih e he f hf hkey.symm (hvs e he) (hvs' f hf)

theorem Restorable.restores (h : Restorable K a b) (ha : Stored H a) (hb : Stored H b) {p : Parts α}
    (hp : diff K fresh a b = some p) : Restores K fresh a b p := by
  induction h generalizing p with
  | @leaves a b h =>
    rw [diff_leaves h] at hp
    cases hp
    unfold leafParts
    split
    · next hkey =>
      obtain rfl := ha.eq_of_key hb hkey
      exact ⟨by simpa using ha.refl, by simpa using ha.refl⟩
    · exact ⟨by simpa using ha.refl, by simpa using hb.refl⟩
  | @set i j xs ys hxs hys =>
    cases ha with
    | set _ _ hxs' =>
      cases hb with
      | set _ _ hys' =>
        rw [diff] at hp
        cases hp
        obtain ⟨hleft, hleftMem⟩ := difference_spec ys hxs'
        obtain ⟨hright, hrightMem⟩ := difference_spec xs hys'
        obtain ⟨hboth, hbothMem⟩ := intersection_spec xs ys
        constructor
        · refine (equals_overlay_setOr hleft hboth hxs').mpr ⟨hxs, fun k => ?_⟩
          rw [hleftMem, hbothMem, ← and_or_left]
          exact and_iff_left (em' _)
        · refine (equals_overlay_setOr hright hboth hys').mpr ⟨hys, fun k => ?_⟩
          rw [hrightMem, hbothMem, and_comm (b := k ∈ ys.map Value.key), ← and_or_left]
          exact and_iff_left (em' _)
  | @dict i j es fs hes hfs hlist hlist' hleft hright _ ih =>
    cases ha with
    | dict _ _ hvs hes' =>
      cases hb with
      | dict _ _ hvs' hfs' =>
        obtain ⟨A, B, C, hA, hB, hC, rfl, hparts⟩ := diff_dicts hlist hlist' hp
        have hshared : ∀ k ∈ keysOf es, k ∈ keysOf fs → ∀ p,
          diff K fresh (get K es k) (get K fs k) = some p →
            (get K es k ≠ .atom K.nil ∧ get K fs k ≠ .atom K.nil) ∧
              Restores K fresh (get K es k) (get K fs k) p := by
          intro k hk hk' p hp
          obtain ⟨e, he, f, hf, rfl, hkey, hget, hget'⟩ := exists_shared (K := K) hes' hfs' hk hk'
          rw [hget, hget'] at hp ⊢
          exact ⟨⟨hleft e he hk', hright f hf (hkey ▸ hk)⟩,
            ih e he f hf hkey.symm (hvs e he) (hvs' f hf) hp⟩
        constructor
        · refine (equals_overlay_dictOr hA hC hes').mpr ⟨hes, fun k => (hparts k).left ?_ ?_⟩
          · intro hk hk' p hp
            obtain ⟨hne, hrestores⟩ := hshared k hk hk' p hp
            exact ⟨hne.1, hrestores.left⟩
          · exact fun hk => stored_get hvs hk
        · refine (equals_overlay_dictOr hB hC hfs').mpr ⟨hfs, fun k => (hparts k).right ?_ ?_⟩
          · intro hk hk' p hp
            obtain ⟨hne, hrestores⟩ := hshared k hk hk' p hp
            exact ⟨hne.2, hrestores.right⟩
          · exact fun hk => stored_get hvs' hk

theorem Restorable.swapped (h : Restorable K a b) (ha : Stored H a) (hb : Stored H b)
    {p q : Parts α} (hp : diff K fresh a b = some p) (hq : diff K fresh b a = some q) :
    Swapped K p q := by
  induction h generalizing p q with
  | @leaves a b h =>
    rw [diff_leaves h] at hp
    rw [diff_leaves h.symm] at hq
    cases hp
    cases hq
    unfold leafParts
    by_cases hkey : a.key = b.key
    · obtain rfl := ha.eq_of_key hb hkey
      simp only [if_true]
      exact ⟨by simp, by simp, ha.refl⟩
    · rw [if_neg hkey, if_neg fun h => hkey h.symm]
      exact ⟨hb.refl, ha.refl, by simp⟩
  | @set i j xs ys _ _ =>
    cases ha with
    | set _ _ hxs =>
      cases hb with
      | set _ _ hys =>
        rw [diff] at hp hq
        cases hp
        cases hq
        have hleft := (difference_spec ys hxs).1
        have hright := (difference_spec xs hys).1
        obtain ⟨hboth, hbothMem⟩ := intersection_spec xs ys
        obtain ⟨hboth', hbothMem'⟩ := intersection_spec ys xs
        refine ⟨(equals_setOr hright hright).mpr fun _ => .rfl,
          (equals_setOr hleft hleft).mpr fun _ => .rfl, ?_⟩
        refine (equals_setOr hboth' hboth).mpr fun k => ?_
        rw [hbothMem, hbothMem', and_comm]
  | @dict i j es fs _ _ hlist hlist' _ _ _ ih =>
    cases ha with
    | dict _ _ hvs hes =>
      cases hb with
      | dict _ _ hvs' hfs =>
        obtain ⟨A, B, C, hA, hB, hC, rfl, hparts⟩ := diff_dicts hlist hlist' hp
        obtain ⟨A', B', C', hA', hB', hC', rfl, hparts'⟩ := diff_dicts hlist' hlist hq
        have hrel := fun k => (hparts k).swapped (hparts' k) (fun hk hk' p q hp hq => by
          obtain ⟨e, he, f, hf, rfl, hkey, hget, hget'⟩ := exists_shared (K := K) hes hfs hk hk'
          rw [hget, hget'] at hp hq
          exact ih e he f hf hkey.symm (hvs e he) (hvs' f hf) hp hq) (stored_get hvs)
            (stored_get hvs')
        exact ⟨(equals_dictOr hA' hB).mpr fun k => (hrel k).1, (equals_dictOr hB' hA).mpr fun k =>
          (hrel k).2.1, (equals_dictOr hC' hC).mpr fun k => (hrel k).2.2⟩

/-- Nothing is in one value only exactly when the two are the same. -/
theorem Restorable.nothingOnly_iff (h : Restorable K a b) (ha : Stored H a) (hb : Stored H b)
    {p : Parts α} (hp : diff K fresh a b = some p) : NothingOnly K p ↔ Same a b := by
  induction h generalizing p with
  | @leaves a b h =>
    rw [diff_leaves h] at hp
    cases hp
    have hsame : Same a b ↔ a.key = b.key := by
      constructor
      · intro hs
        cases hs with
        | one _ hkey => exact hkey
        | set _ => exact absurd rfl (h rfl).2
        | dict _ _ => exact absurd rfl (h rfl).1
      · exact .one h
    rw [hsame]
    unfold leafParts NothingOnly
    split
    · next hkey => simp [hkey]
    · next hkey =>
      refine iff_of_false (fun hnil => hkey ?_) hkey
      obtain ⟨ha, hb⟩ : a = .atom K.nil ∧ b = .atom K.nil := hnil
      rw [ha, hb]
  | @set i j xs ys _ _ =>
    cases ha with
    | set _ _ hxs =>
      cases hb with
      | set _ _ hys =>
        rw [diff] at hp
        cases hp
        have hleft := (difference_spec ys hxs).2
        have hright := (difference_spec xs hys).2
        simp only [NothingOnly, diffSets, setOr_eq_nil]
        constructor
        · intro hnil
          refine .set fun k => ⟨fun hk => ?_, fun hk => ?_⟩
          · by_contra hk'
            simpa [hnil.1] using (hleft k).mpr ⟨hk, hk'⟩
          · by_contra hk'
            simpa [hnil.2] using (hright k).mpr ⟨hk, hk'⟩
        · intro hsame
          cases hsame with
          | one h _ => exact absurd rfl (h rfl).2
          | set hkeys =>
            refine ⟨eq_nil_of_keys fun k hk => ?_, eq_nil_of_keys fun k hk => ?_⟩
            · obtain ⟨hk, hk'⟩ := (hleft k).mp hk
              exact hk' ((hkeys k).mp hk)
            · obtain ⟨hk, hk'⟩ := (hright k).mp hk
              exact hk' ((hkeys k).mpr hk)
  | @dict i j es fs _ _ hlist hlist' _ _ _ ih =>
    cases ha with
    | dict _ _ hvs hes =>
      cases hb with
      | dict _ _ hvs' hfs =>
        obtain ⟨A, B, C, hA, hB, hC, rfl, hparts⟩ := diff_dicts hlist hlist' hp
        have hnil : NothingOnly K ⟨dictOr K fresh A, dictOr K fresh B, dictOr K fresh C⟩ ↔
            ∀ k, valueOf A k = none ∧ valueOf B k = none := by
          simp only [NothingOnly, dictOr_eq_nil]
          constructor
          · rintro ⟨rfl, rfl⟩ k
            exact ⟨rfl, rfl⟩
          · exact fun h => ⟨eq_nil_of_valueOf fun k => (h k).1, eq_nil_of_valueOf fun k => (h k).2⟩
        rw [hnil]
        constructor
        · intro hnone
          refine .dict (fun k => (hparts k).mem_iff (hnone k)) fun e he f hf hkey => ?_
          have hk : e.1.key ∈ keysOf es := List.mem_map_of_mem he
          have hk' : e.1.key ∈ keysOf fs := hkey ▸ List.mem_map_of_mem hf
          obtain ⟨p, hp, hnothing⟩ := (hparts e.1.key).nothingOnly hk hk' (hnone e.1.key)
          rw [get_of_mem hes he, hkey, get_of_mem hfs hf] at hp
          exact (ih e he f hf hkey (hvs e he) (hvs' f hf) hp).mp hnothing
        · intro hsame k
          cases hsame with
          | one h _ => exact absurd rfl (h rfl).1
          | dict hkeys hsame =>
            refine (hparts k).eq_none (hkeys k) fun hk hk' p hp => ?_
            obtain ⟨e, he, f, hf, rfl, hkey, hget, hget'⟩ := exists_shared (K := K) hes hfs hk hk'
            rw [hget, hget'] at hp
            exact (ih e he f hf hkey.symm (hvs e he) (hvs' f hf) hp).mpr (hsame e he f hf hkey.symm)

theorem Same.equals (h : Same a b) (ha : Stored H a) (hb : Stored H b) : Equals K.toAtoms a b := by
  induction h with
  | one _ hkey =>
    obtain rfl := ha.eq_of_key hb hkey
    exact ha.refl
  | set hkeys =>
    cases ha with
    | set _ _ hxs =>
      cases hb with
      | set _ _ hys => exact (equals_set_iff hxs hys).mpr hkeys
  | @dict i j es fs hkeys _ ih =>
    cases ha with
    | dict _ _ hvs hes =>
      cases hb with
      | dict _ _ hvs' hfs =>
        refine (equals_dict_iff hes hfs).mpr fun k => ?_
        by_cases hk : k ∈ keysOf es
        · obtain ⟨e, he, f, hf, rfl, hkey, hget, hget'⟩ :=
            exists_shared (K := K) hes hfs hk ((hkeys k).mp hk)
          rw [valueOf_eq_get (K := K) hk, valueOf_eq_get (K := K) ((hkeys _).mp hk), hget, hget']
          exact .some (ih e he f hf hkey.symm (hvs e he) (hvs' f hf))
        · rw [valueOf_eq_none.mpr hk, valueOf_eq_none.mpr fun hk' => hk ((hkeys k).mpr hk')]
          exact .none

/-! ## §6 Necessity -/

theorem Restores.nonempty_set {i j : Nat} {xs ys : List (Value α)} {p : Parts α}
    (ha : Stored H (.set i xs)) (hb : Stored H (.set j ys))
    (hp : diff K fresh (.set i xs) (.set j ys) = some p)
    (h : Restores K fresh (.set i xs) (.set j ys) p) : xs ≠ [] ∧ ys ≠ [] := by
  cases ha with
  | set _ _ hxs =>
    cases hb with
    | set _ _ hys =>
      rw [diff] at hp
      cases hp
      have hboth := (intersection_spec xs ys).1
      exact ⟨((equals_overlay_setOr (difference_spec ys hxs).1 hboth hxs).mp h.left).1,
        ((equals_overlay_setOr (difference_spec xs hys).1 hboth hys).mp h.right).1⟩

section Pairs

variable {es fs : Entries α} {ks ls : List (Key α)} {k : Key α} {x y z : Option (Value α)}

theorem PartsAt.of_over (h : PartsAt K fresh es fs ks ls k x y z)
    (hover : overAt K fresh x z ≠ none) : k ∈ ks := by
  cases h with
  | shared hk _ _ => exact hk
  | aOnly hk _ => exact hk
  | bOnly _ _ => exact absurd rfl hover
  | dropped _ _ => exact absurd rfl hover

/-- What is under a key that is not listed is lost. -/
theorem PartsAt.lost (h : PartsAt K fresh es fs ks ls k x y z) (hes : k ∈ keysOf es) (hk : k ∉ ks) :
    x = none ∧ z = none := by
  cases h with
  | shared hk' _ _ => exact absurd hk' hk
  | aOnly hk' _ => exact absurd hk' hk
  | bOnly hn _ => exact absurd hes hn
  | dropped _ _ => exact ⟨rfl, rfl⟩

theorem PartsAt.of_shared (h : PartsAt K fresh es fs ks ls k x y z) (hes : k ∈ keysOf es)
    (hfs : k ∈ keysOf fs) (hk : k ∈ ks) :
    ∃ p, diff K fresh (get K es k) (get K fs k) = some p ∧
      x = nonNil K p.aOnly ∧ y = nonNil K p.bOnly ∧ z = nonNil K p.both := by
  cases h with
  | shared _ _ hp => exact ⟨_, hp, rfl, rfl, rfl⟩
  | aOnly _ hn => exact absurd hfs hn
  | bOnly hn _ => exact absurd hes hn
  | dropped hn _ => exact absurd hk hn

end Pairs

theorem rel_some {v : Value α} {x : Option (Value α)}
    (h : Option.Rel (Equals K.toAtoms) x (some v)) : x ≠ none :=
  fun hx => Option.some_ne_none v ((rel_none_iff h).mp hx)

theorem restorable_of_decomposed (ha : Stored H a) (hb : Stored H b) {p q : Parts α}
    (hp : diff K fresh a b = some p) (hq : diff K fresh b a = some q) (hswap : Swapped K p q)
    (h : Restores K fresh a b p) : Restorable K a b := by
  induction ha generalizing b p q with
  | atom a => exact .leaves fun _ => by simp [Value.cls]
  | vector _ _ _ => exact .leaves fun _ => by simp [Value.cls]
  | @set i xs hid hxs hkeys _ =>
    cases hb with
    | @set j ys hid' hys hkeys' =>
      obtain ⟨hne, hne'⟩ := h.nonempty_set (.set hid hxs hkeys) (.set hid' hys hkeys') hp
      exact .set hne hne'
    | _ => exact .leaves fun h => by simp [Value.cls] at h
  | @dict i es _ _ hvs hes _ ih =>
    cases hb with
    | @dict j fs _ _ hvs' hfs =>
      rw [diff] at hp hq
      obtain ⟨ks, ls, A, B, C, hks, hls, hA, hB, hC, rfl, hparts⟩ := diffDicts_eq_some hp
      obtain ⟨ls', ks', A', B', C', hls', hks', hA', hB', hC', rfl, hparts'⟩ := diffDicts_eq_some hq
      obtain rfl : ks = ks' := Option.some.inj (hks.symm.trans hks')
      obtain rfl : ls = ls' := Option.some.inj (hls.symm.trans hls')
      obtain ⟨hne, hleft⟩ := (equals_overlay_dictOr hA hC hes).mp h.left
      obtain ⟨hne', hright⟩ := (equals_overlay_dictOr hB hC hfs).mp h.right
      have hswapA := (equals_dictOr hA' hB).mp hswap.aOnly
      have hswapB := (equals_dictOr hB' hA).mp hswap.bOnly
      have hswapC := (equals_dictOr hC' hC).mp hswap.both
      have hlisted : keysOf es ⊆ ks.map Value.key := by
        intro k hk
        have hrel := hleft k
        rw [valueOf_eq_get (K := K) hk] at hrel
        exact (hparts k).of_over (rel_some hrel)
      have hlisted' : keysOf fs ⊆ ls.map Value.key := by
        intro k hk
        by_contra hk'
        obtain ⟨hx, hz⟩ := (hparts' k).lost hk hk'
        have hrel := hright k
        rw [valueOf_eq_get (K := K) hk, (rel_none_iff (hswapA k)).mp hx,
          (rel_none_iff (hswapC k)).mp hz] at hrel
        exact rel_some hrel rfl
      have hshared : ∀ e ∈ es, ∀ f ∈ fs, e.1.key = f.1.key →
        (e.2 ≠ .atom K.nil ∧ f.2 ≠ .atom K.nil) ∧
          Restorable K e.2 f.2 := by
        intro e he f hf hkey
        have hk : e.1.key ∈ keysOf es := List.mem_map_of_mem he
        have hk' : e.1.key ∈ keysOf fs := hkey ▸ List.mem_map_of_mem hf
        obtain ⟨p, hp, hx, hy, hz⟩ := (hparts e.1.key).of_shared hk hk' (hlisted hk)
        obtain ⟨q, hq, hx', hy', hz'⟩ := (hparts' e.1.key).of_shared hk' hk (hlisted' hk')
        have hget : get K fs e.1.key = f.2 := hkey ▸ get_of_mem hfs hf
        rw [get_of_mem hes he, hget] at hp hq
        have hrel := hleft e.1.key
        have hrel' := hright e.1.key
        rw [hx, hz, valueOf_eq_get (K := K) hk, get_of_mem hes he] at hrel
        rw [hy, hz, valueOf_eq_get (K := K) hk', hget] at hrel'
        obtain ⟨hnil, hover⟩ := rel_over_nonNil.mp hrel
        obtain ⟨hnil', hover'⟩ := rel_over_nonNil.mp hrel'
        have hrelA := hswapA e.1.key
        have hrelB := hswapB e.1.key
        have hrelC := hswapC e.1.key
        rw [hx', hy, rel_nonNil] at hrelA
        rw [hy', hx, rel_nonNil] at hrelB
        rw [hz', hz, rel_nonNil] at hrelC
        exact ⟨⟨hnil, hnil'⟩, ih e he (hvs' f hf) hp hq ⟨hrelA, hrelB, hrelC⟩ ⟨hover, hover'⟩⟩
      refine .dict hne hne' (listable_of_subset hks hlisted) (listable_of_subset hls hlisted') ?_ ?_
        fun e he f hf hkey => (hshared e he f hf hkey).2
      · intro e he hk
        obtain ⟨f, hf, hkey⟩ := List.mem_map.mp hk
        exact (hshared e he f hf hkey.symm).1.1
      · intro f hf hk
        obtain ⟨e, he, hkey⟩ := List.mem_map.mp hk
        exact (hshared e he f hf hkey).1.2
    | _ => exact .leaves fun h => by simp [Value.cls] at h

/-! ## §7 Result -/

end

/-- NIL, T, `:eof` and `:initial-element` are 20, 21, 22 and 23; the numbers follow. -/
def words : Keywords Nat where
  nil := 20
  t := 21
  eof := 22
  number n := n + 24
  t_ne_nil := by decide
  eof_ne_nil := by decide
  eof_ne_t := by decide
  number_ne_nil n := by omega
  initialElement := 23
  size a := if a < 24 then none else some (a - 24)
  size_initialElement := rfl

/-- The dict of T and the value. -/
def single (id : Nat) (value : Nat) : Value Nat := .dict id [(.atom 21, .atom value)]

/-- The vector of the value. -/
def cell (id : Nat) (value : Nat) : Value Nat := .seq .vector id [.atom value]

theorem stored_single (H : Nat → Option (Value Nat)) (id value : Nat)
    (hid : H id = some (single id value)) :
    Stored H (single id value) :=
  .dict hid (by simp [Stored.atom]) (by simp [Stored.atom]) (by simp)

/-- The dict of T and the set of the element, and of 0 and the dict of T and the value. -/
def nestedDict (id element value : Nat) : Value Nat :=
  .dict id [(.atom 21, .set (id + 10) [.atom element]), (.atom 24, single (id + 20) value)]

theorem stored_nestedDict {H : Nat → Option (Value Nat)} {id element value : Nat}
    (hid : H id = some (nestedDict id element value))
    (hset : H (id + 10) = some (.set (id + 10) [.atom element]))
    (hsingle : H (id + 20) = some (single (id + 20) value)) :
    Stored H (nestedDict id element value) := by
  refine .dict hid (by simp [Stored.atom]) ?_ (by simp [Value.key])
  rintro e he
  rcases List.mem_pair.mp he with rfl | rfl
  · exact .set hset (by simp [Stored.atom]) (by simp)
  · exact stored_single H _ value hsingle

/-- Two such dicts, each with its own objects. -/
def nestedHeap (id : Nat) : Option (Value Nat) :=
  if id ≤ 2 then some (nestedDict id (id + 24) (id + 26))
  else if id ≤ 12 then some (.set id [.atom (id + 14)])
  else some (single id (id + 6))

end Fol.Values
