/-
Fol.Persistence.Overflow — what a slot reads after one redefinition, overflow included.

The vector of an instance is addressed by index, and a redefinition gives the overflow
slots new indices while the instance keeps its vector. `Stays` says of a slot that the
element at its new index, or the value its alias brings, is its own old value.
-/
import Fol.Lib.Lookup
import Fol.Persistence.Migration

namespace Fol.Persistence

variable {σ α : Type} [DecidableEq σ]

/-! ## §1 The index map -/

theorem lookup_zipIdx {l : List σ} (hl : l.Nodup) (k : Nat) {n : σ} {i : Nat} :
    (l.zipIdx k).lookup n = some i ↔ k ≤ i ∧ l[i - k]? = some n := by
  induction l generalizing k with
  | nil => simp
  | cons m l ih =>
    obtain ⟨hm, hl⟩ := List.nodup_cons.mp hl
    rw [List.zipIdx_cons, List.lookup_cons]
    by_cases hnm : n = m
    · subst hnm
      simp only [BEq.rfl, Option.some.injEq]
      constructor
      · rintro rfl
        simp
      · rintro ⟨hki, hget⟩
        rcases Nat.lt_or_eq_of_le hki with hlt | rfl
        · obtain ⟨d, hd⟩ : ∃ d, i - k = d + 1 := ⟨i - k - 1, by omega⟩
          rw [hd, List.getElem?_cons_succ] at hget
          exact absurd (List.mem_of_getElem? hget) hm
        · rfl
    · have hb : (n == m) = false := by simpa using hnm
      rw [hb, ih hl (k + 1)]
      constructor
      · rintro ⟨hki, hget⟩
        have hd : i - k = i - (k + 1) + 1 := by omega
        exact ⟨by omega, by rw [hd, List.getElem?_cons_succ, hget]⟩
      · rintro ⟨hki, hget⟩
        rcases Nat.lt_or_eq_of_le hki with hlt | rfl
        · have hd : i - k = i - (k + 1) + 1 := by omega
          rw [hd, List.getElem?_cons_succ] at hget
          exact ⟨hlt, hget⟩
        · simp only [Nat.sub_self, List.getElem?_cons_zero, Option.some.injEq] at hget
          exact absurd hget.symm hnm

namespace Layout

variable {l : Layout σ}

omit [DecidableEq σ] in
theorem nodup_overflowNames (l : Layout σ) : l.overflowNames.Nodup :=
  l.nodup.sublist (List.drop_sublist _ _)

theorem lookup_overflowIndices {n : σ} {i : Nat} :
    l.overflowIndices.lookup n = some i ↔ l.overflowNames[i]? = some n := by
  rw [overflowIndices, lookup_zipIdx l.nodup_overflowNames 0]
  simp

theorem overflowIndices_inj {n m : σ} {i : Nat} (hn : l.overflowIndices.lookup n = some i)
    (hm : l.overflowIndices.lookup m = some i) : n = m := by
  rw [lookup_overflowIndices] at hn hm
  exact Option.some.inj (hn.symm.trans hm)

omit [DecidableEq σ] in
theorem length_names (l : Layout σ) : l.names.length = l.slots.length := List.length_map ..

/-- A slot that is not native has an overflow index, and the class is wide. -/
theorem exists_overflowIndex {n : σ} (hn : n ∈ l.names) (hnat : n ∉ l.nativeNames) :
    ¬ l.slots.length ≤ nativeSlotLimit ∧ ∃ i, l.overflowIndices.lookup n = some i := by
  have hwide : ¬ l.slots.length ≤ nativeSlotLimit := by
    intro hsmall
    rw [nativeNames, if_pos hsmall] at hnat
    exact hnat hn
  rw [nativeNames, if_neg hwide] at hnat
  rw [← List.take_append_drop nativeSlotLimit l.names, List.mem_append] at hn
  obtain ⟨i, hi⟩ := List.getElem?_of_mem (hn.resolve_left hnat)
  exact ⟨hwide, i, lookup_overflowIndices.mpr hi⟩

end Layout

/-! ## §2 The new vector -/

/-- An element equal to the `:unbound` mark reads as unbound. -/
def unlessUnbound : Option (Value α) → Option (Value α)
  | some .unbound => none
  | found => found

/-- The element of an instance's vector at an index. -/
def elementAt (x : Instance σ α) (i : Nat) : Option (Value α) := x.persistentVector.bind (·[i]?)

theorem slotMissing_eq {cls : PersistentClass σ} {n : σ} {i : Nat}
    (hi : cls.overflowIndex n = some i) (x : Instance σ α) :
    slotMissing cls x n = unlessUnbound (elementAt x i) := by
  unfold slotMissing elementAt
  rw [hi]
  cases x.persistentVector with
  | none => rfl
  | some vec =>
    simp only [ref, Option.bind_some]
    rcases vec[i]? with _ | _ | _ | a <;> rfl

omit [DecidableEq σ] in
theorem getElem?_preserved {size i : Nat} (hi : i < size) (x : Instance σ α) :
    unlessUnbound (preserved size x.persistentVector)[i]? =
      unlessUnbound (unlessNotFound (elementAt x i)) := by
  unfold preserved elementAt
  cases x.persistentVector with
  | none => simp [hi, unlessUnbound, unlessNotFound]
  | some vec =>
    simp only [List.getElem?_map, List.getElem?_range hi, Option.map_some, ref, Option.bind_some]
    rcases vec[i]? with _ | _ | _ | a <;> rfl

omit [DecidableEq σ] in
theorem length_preserved (size : Nat) (old : Option (List (Value α))) :
    (preserved size old).length = size := by
  cases old <;> simp [preserved]

/-- The recovered values land at the indices of their own slots. -/
theorem getElem?_rebuild {l : Layout σ} {n : σ} {i : Nat} (hi : l.overflowIndices.lookup n = some i)
    {assignments : List (σ × Value α)} (hnodup : (assignments.map Prod.fst).Nodup)
    (arr : List (Value α)) (hlen : i < arr.length) :
    (assignments.foldl (overlay l.overflowIndices) arr)[i]? =
    (assignments.lookup n).or arr[i]? := by
  induction assignments generalizing arr with
  | nil => rfl
  | cons pair assignments ih =>
    obtain ⟨k, v⟩ := pair
    obtain ⟨hk, hrest⟩ := List.nodup_cons.mp hnodup
    rw [List.foldl_cons, List.lookup_cons]
    by_cases hnk : n = k
    · subst hnk
      have hset : overlay l.overflowIndices arr (n, v) = arr.set i v := by simp [overlay, hi]
      simp only [BEq.rfl]
      rw [hset, ih hrest _ (by simpa using hlen), lookup_eq_none_of_not_mem hk]
      simp [hlen]
    · have hb : (n == k) = false := by simpa using hnk
      rw [hb]
      cases hj : l.overflowIndices.lookup k with
      | none =>
        have hsame : overlay l.overflowIndices arr (k, v) = arr := by simp [overlay, hj]
        rw [hsame]
        exact ih hrest arr hlen
      | some j =>
        have hset : overlay l.overflowIndices arr (k, v) = arr.set j v := by simp [overlay, hj]
        have hji : j ≠ i := fun hji => hnk (Layout.overflowIndices_inj hi (hji ▸ hj))
        rw [hset, ih hrest _ (by simpa using hlen), List.getElem?_set_ne hji]

/-! ## §3 One migration -/

section OneMigration

variable (cls : PersistentClass σ) (l : Layout σ) (x : Instance σ α)

/-- The value the alias of `n` brings from a slot that stops being native. -/
def brought (n : σ) : Option (Value α) :=
  (l.aliases.lookup n).bind fun o =>
    unlessNotFound ((propertyList cls.layout.nativeNames l.nativeNames x).lookup o)

/-- Some value is brought into the overflow slots, so that the vector is rebuilt. -/
def rebuilt : Bool :=
  l.names.any fun m => ((cls.redefine l).overflowIndex m).isSome && (brought cls l x m).isSome

variable {cls l x}

/-- The recoveries of the redefinition. -/
def recovered (cls : PersistentClass σ) (l : Layout σ) (x : Instance σ α) : List (σ × Value α) :=
  recoveries l.aliases (propertyList cls.layout.nativeNames l.nativeNames x)

theorem lookup_recovered (n : σ) : (recovered cls l x).lookup n = brought cls l x n :=
  lookup_recoveries (keys_aliases l) _ n

theorem keys_recovered : ((recovered cls l x).map Prod.fst).Nodup := by
  refine (keys_aliases l).sublist ?_
  unfold recovered recoveries
  induction l.aliases with
  | nil => exact List.Sublist.slnil
  | cons entry entries ih =>
    rw [List.filterMap_cons]
    cases unlessNotFound _ with
    | none => exact ih.cons _
    | some v => exact ih.cons_cons _

theorem mem_names_of_recovered {pair : σ × Value α} (h : pair ∈ recovered cls l x) :
    pair.1 ∈ l.names := by
  obtain ⟨entry, he, hpair⟩ := List.mem_filterMap.mp h
  obtain ⟨v, -, rfl⟩ := Option.map_eq_some_iff.mp hpair
  obtain ⟨slot, hslot, halias⟩ := List.mem_filterMap.mp he
  obtain ⟨a, -, rfl⟩ := Option.map_eq_some_iff.mp halias
  exact List.mem_map_of_mem hslot

theorem migrate_redefine (hx : x.schemaVersion = cls.versionCounter) :
    migrate cls (cls.redefine l) x =
      let kept := keepNative cls.layout.nativeNames l.nativeNames x
      let overflowAssignments :=
        (recovered cls l x).filter fun pair => ((cls.redefine l).overflowIndex pair.1).isSome
      let nativeAssignments := (recovered cls l x).filter fun pair =>
        ((cls.redefine l).overflowIndex pair.1).isNone &&
          (slotValue (cls.redefine l) kept pair.1).isNone
      { native := fun name => (nativeAssignments.lookup name).or (kept.native name)
        persistentVector :=
          if overflowAssignments.isEmpty then x.persistentVector
          else some (rebuildVector ((cls.redefine l).overflowIndices.getD []) x.persistentVector
            overflowAssignments)
        schemaVersion := (cls.redefine l).versionCounter } := by
  have hcomposed := composedAliases_redefine cls l
  rw [← hx] at hcomposed
  unfold migrate updateInstance recovered
  simp only [keepNative, hcomposed]
  rfl

theorem slotValue_native (hx : x.schemaVersion = cls.versionCounter) {n : σ}
    (hn : n ∈ l.nativeNames) :
    slotValue (cls.redefine l) (migrate cls (cls.redefine l) x) n =
      (if n ∈ cls.layout.nativeNames then x.native n else none).or
        (if (cls.redefine l).overflowIndex n = none then brought cls l x n else none) := by
  have hread (y : Instance σ α) : slotValue (cls.redefine l) y n = y.native n := if_pos hn
  have hfilter := lookup_filter_fst (recovered cls l x)
    (fun m => ((cls.redefine l).overflowIndex m).isNone && (slotValue (cls.redefine l)
      (keepNative cls.layout.nativeNames l.nativeNames x) m).isNone) n
  rw [hread, migrate_redefine hx]
  simp only [hfilter, hread, lookup_recovered]
  simp only [keepNative, hn, and_true, Bool.and_eq_true, Option.isNone_iff_eq_none]
  cases (if n ∈ cls.layout.nativeNames then x.native n else none) with
  | none => simp
  | some v => simp

theorem rebuilt_iff :
    rebuilt cls l x = true ↔
      ((recovered cls l x).filter fun pair =>
        ((cls.redefine l).overflowIndex pair.1).isSome).isEmpty = false := by
  rw [rebuilt, List.any_eq_true, ← Bool.not_eq_true, List.isEmpty_iff, List.filter_eq_nil_iff]
  push Not
  constructor
  · rintro ⟨m, -, hm⟩
    obtain ⟨hidx, hv⟩ := (Bool.and_eq_true_iff).mp hm
    obtain ⟨v, hv⟩ := Option.isSome_iff_exists.mp hv
    rw [← lookup_recovered] at hv
    obtain ⟨l₁, l₂, heq, -⟩ := List.lookup_eq_some_iff.mp hv
    exact ⟨(m, v), by simp [heq], hidx⟩
  · rintro ⟨pair, hpair, hidx⟩
    refine ⟨pair.1, mem_names_of_recovered hpair, ?_⟩
    rw [← lookup_recovered, Lib.lookup_of_mem keys_recovered hpair, hidx]
    rfl

theorem slotValue_overflow (hx : x.schemaVersion = cls.versionCounter) {n : σ} {i : Nat}
    (hn : n ∉ l.nativeNames) (hwide : ¬ l.slots.length ≤ nativeSlotLimit)
    (hi : l.overflowIndices.lookup n = some i) :
    slotValue (cls.redefine l) (migrate cls (cls.redefine l) x) n =
      unlessUnbound ((brought cls l x n).or
        (if rebuilt cls l x then unlessNotFound (elementAt x i) else elementAt x i)) := by
  have hindices : (cls.redefine l).overflowIndices = some l.overflowIndices := by
    simp [PersistentClass.redefine, PersistentClass.computeSlots, hwide]
  have hidx : (cls.redefine l).overflowIndex n = some i := by
    simpa [PersistentClass.overflowIndex, hindices] using hi
  have hlt : i < l.overflowIndices.length := by
    have hget := Layout.lookup_overflowIndices.mp hi
    rw [Layout.overflowIndices, List.length_zipIdx]
    exact (List.getElem?_eq_some_iff.mp hget).1
  have hread (y : Instance σ α) :
    slotValue (cls.redefine l) y n = slotMissing (cls.redefine l) y n :=
    if_neg hn
  rw [hread, slotMissing_eq hidx, migrate_redefine hx]
  have hfilter := lookup_filter_fst (recovered cls l x)
    (fun m => ((cls.redefine l).overflowIndex m).isSome) n
  rw [hidx, lookup_recovered] at hfilter
  have hfilter : (List.filter _ _).lookup n = brought cls l x n := hfilter
  cases hr : rebuilt cls l x with
  | true =>
    have hne := rebuilt_iff.mp hr
    simp only [hne, hindices, elementAt, Option.getD_some, Option.bind_some, if_true,
      Bool.false_eq_true, if_false, rebuildVector]
    rw [getElem?_rebuild hi ((keys_recovered).sublist (List.filter_sublist.map _)) _
      (by rw [length_preserved]; exact hlt), hfilter]
    cases brought cls l x n with
    | none => exact getElem?_preserved hlt x
    | some v => rfl
  | false =>
    have hnil : ¬ rebuilt cls l x = true := by simp [hr]
    rw [rebuilt_iff, Bool.not_eq_false] at hnil
    have hnone : brought cls l x n = none := by
      rw [← hfilter, List.isEmpty_iff.mp hnil, List.lookup_nil]
    simp [hnil, hnone, elementAt]

/-- After the migration each slot of both versions reads its old value or is unbound, and
never the old value of another slot. -/
structure NeverMoves (cls : PersistentClass σ) (l : Layout σ) (x : Instance σ α) : Prop where
  own_or_unbound : ∀ n ∈ cls.layout.names, n ∈ l.names →
    slotValue (cls.redefine l) (migrate cls (cls.redefine l) x) n = none ∨
      slotValue (cls.redefine l) (migrate cls (cls.redefine l) x) n = slotValue cls x n
  not_anothers : ∀ n ∈ cls.layout.names, n ∈ l.names → ∀ m ∈ cls.layout.names, m ≠ n → ∀ v,
    slotValue cls x m = some v →
      slotValue (cls.redefine l) (migrate cls (cls.redefine l) x) n = some v →
        slotValue cls x n = some v

/-- The slot's place in the new layout holds no value that is not its own. -/
structure Stays (cls : PersistentClass σ) (l : Layout σ) (x : Instance σ α) (n : σ) : Prop where
  native : n ∈ l.nativeNames → ∀ v, brought cls l x n = some v →
    (n ∈ cls.layout.nativeNames ∧ x.native n ≠ none) ∨ (cls.redefine l).overflowIndex n ≠ none ∨
      slotValue cls x n = some v
  overflow : n ∉ l.nativeNames → ∀ v, brought cls l x n = some v →
    v = .unbound ∨ slotValue cls x n = some v
  element : n ∉ l.nativeNames → brought cls l x n = none → ∀ i v,
    l.overflowIndices.lookup n = some i → elementAt x i = some v →
      v = .unbound ∨ (v = .notFound ∧ rebuilt cls l x = true) ∨ slotValue cls x n = some v

omit [DecidableEq σ] in
theorem unlessUnbound_some_iff {v : Value α} {r : Option (Value α)} :
    unlessUnbound (some v) = none ∨ unlessUnbound (some v) = r ↔ v = .unbound ∨ r = some v := by
  rcases v with _ | _ | a <;> simp [unlessUnbound, eq_comm]

theorem stays_iff (hx : x.schemaVersion = cls.versionCounter) {n : σ} (hn : n ∈ l.names) :
    (slotValue (cls.redefine l) (migrate cls (cls.redefine l) x) n = none ∨
      slotValue (cls.redefine l) (migrate cls (cls.redefine l) x) n = slotValue cls x n) ↔
      Stays cls l x n := by
  by_cases hnat : n ∈ l.nativeNames
  · have hstays : Stays cls l x n ↔ ∀ v, brought cls l x n = some v →
        (n ∈ cls.layout.nativeNames ∧ x.native n ≠ none) ∨
          (cls.redefine l).overflowIndex n ≠ none ∨ slotValue cls x n = some v :=
      ⟨fun h => h.native hnat, fun h => ⟨fun _ => h, fun hno => absurd hnat hno,
        fun hno => absurd hnat hno⟩⟩
    rw [slotValue_native hx hnat, hstays]
    by_cases hbound : n ∈ cls.layout.nativeNames ∧ x.native n ≠ none
    · -- the slot keeps its native value
      obtain ⟨v, hv⟩ := Option.ne_none_iff_exists'.mp hbound.2
      have hold : slotValue cls x n = some v := (if_pos hbound.1).trans hv
      simp [hbound, hv, hold]
    · have hkept : (if n ∈ cls.layout.nativeNames then x.native n else none) = none := by
        by_contra hne
        split at hne
        · rename_i hmem
          exact hbound ⟨hmem, hne⟩
        · exact hne rfl
      rw [hkept, Option.none_or]
      by_cases hidx : (cls.redefine l).overflowIndex n = none
      · rw [if_pos hidx]
        cases brought cls l x n with
        | none => simp
        | some v =>
          constructor
          · rintro (h | h) w hw
            · cases h
            · cases hw
              exact Or.inr (Or.inr h.symm)
          · intro h
            rcases h v rfl with h | h | h
            · exact absurd h hbound
            · exact absurd hidx h
            · exact Or.inr h.symm
      · simp [hidx]
  · obtain ⟨hwide, i, hi⟩ := Layout.exists_overflowIndex hn hnat
    rw [slotValue_overflow hx hnat hwide hi]
    cases hb : brought cls l x n with
    | some v =>
      rw [Option.some_or, unlessUnbound_some_iff]
      constructor
      · intro h
        refine ⟨fun hyes => absurd hyes hnat, fun _ w hw => ?_, fun _ hno => ?_⟩
        · rw [hb] at hw
          cases hw
          exact h
        · rw [hb] at hno
          cases hno
      · intro h
        exact h.overflow hnat v hb
    | none =>
      have hstays : Stays cls l x n ↔ ∀ v, elementAt x i = some v →
          v = .unbound ∨ (v = .notFound ∧ rebuilt cls l x = true) ∨ slotValue cls x n = some v := by
        constructor
        · exact fun h v hv => h.element hnat hb i v hi hv
        · intro h
          refine ⟨fun hyes => absurd hyes hnat, fun _ w hw => ?_, fun _ _ j v hj hv => ?_⟩
          · rw [hb] at hw
            cases hw
          · rw [hi] at hj
            cases hj
            exact h v hv
      rw [hstays, Option.none_or]
      cases elementAt x i with
      | none => simp [unlessNotFound, unlessUnbound]
      | some v =>
        simp only [Option.some.injEq, forall_eq']
        rcases v with _ | _ | a <;> cases rebuilt cls l x <;>
          simp [unlessNotFound, unlessUnbound, eq_comm]

end OneMigration

/-- A redefinition moves no value to another slot exactly when the place of every slot of
both versions holds no value but its own. -/
theorem never_moves_iff (cls : PersistentClass σ) (l : Layout σ) (x : Instance σ α)
    (hx : x.schemaVersion = cls.versionCounter) :
    NeverMoves cls l x ↔ ∀ n ∈ cls.layout.names, n ∈ l.names → Stays cls l x n := by
  constructor
  · intro h n hn hnl
    exact (stays_iff hx hnl).mp (h.own_or_unbound n hn hnl)
  · intro h
    have hown (n : σ) (hn : n ∈ cls.layout.names) (hnl : n ∈ l.names) :=
      (stays_iff hx hnl).mpr (h n hn hnl)
    refine ⟨hown, fun n hn hnl m _ _ v _ hnew => ?_⟩
    rcases hown n hn hnl with hnone | hsame
    · rw [hnew] at hnone
      cases hnone
    · exact hsame.symm.trans hnew

/-! Two overflow slots that change places. -/

def wideSlots (overflow : List String) : List (SlotDef String) :=
  (["S0", "S1", "S2", "S3", "S4", "S5", "S6", "S7"] ++ overflow).map fun name => { name }

def wideV0 : Layout String := ⟨wideSlots ["S8", "S9"], by decide⟩

def wideV1 : Layout String := ⟨wideSlots ["S9", "S8"], by decide⟩

/-- An instance with values in the overflow slots only. -/
def wideInstance : Instance String Nat :=
  { native := fun _ => none, persistentVector := some [.other 8, .other 9], schemaVersion := 0 }

theorem never_moves_iff_same_layout :
    NeverMoves (PersistentClass.define wideV0) wideV0 wideInstance ↔
      ∀ n ∈ wideV0.names, n ∈ wideV0.names →
        Stays (PersistentClass.define wideV0) wideV0 wideInstance n :=
  never_moves_iff (PersistentClass.define wideV0) wideV0 wideInstance rfl

/-- After the redefinition `S9` reads the old value of `S8`. -/
theorem swapped_overflow_slots_move :
    ¬ NeverMoves (PersistentClass.define wideV0) wideV1 wideInstance := by
  intro h
  have h9 := h.own_or_unbound "S9" (by decide) (by decide)
  revert h9
  decide

end Fol.Persistence
