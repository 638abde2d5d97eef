/-
Fol.Persistence.RecordRuns — runs over persistent objects that keep to the conditions are runs over
records.

What one write changes is said once (`setfSlotValue_reads`); an update is a fold of writes on a
copy, and a copy reads as the original unless an alias revives an unbound slot (`NoRevival`).

  §1 Slots      — where a slot is read.
  §2 Writes     — `setfSlotValue_reads`, `writePairs_reads`.
  §3 Copies     — `copySlots_reads`, `updateSlots_reads`, `dissocSlots_reads`.
  §4 Conditions — `OpOk`, `Proper`.
  §5 Runs       — `step_refines`, `records_functional`.
-/
import Fol.Persistence.Records

namespace Fol.Persistence.Records

open Construction

variable {σ κ α : Type} [DecidableEq σ] [DecidableEq κ] [DecidableEq α] {K : Symbols σ κ α}
  {c : DefinedClass σ κ α}

/-! ## §1 Slots -/

/-- The vector has an element for each overflow slot. -/
def Wf (c : DefinedClass σ κ α) (x : Record σ α) : Prop :=
  c.Wide → ∃ vec, x.persistentVector = some vec ∧ vec.length = c.cls.layout.overflowNames.length

omit [DecidableEq κ] [DecidableEq α] in
theorem readSlot_native {x : Record σ α} {name : σ} (h : name ∈ c.cls.layout.nativeNames) :
    readSlot c x name = x.native name := if_pos h

omit [DecidableEq κ] [DecidableEq α] in
/-- A slot that is not native has a place in the vector. -/
theorem overflow_of_not_native {s : EffectiveSlot σ κ α} (hs : s ∈ c.slots)
    (h : s.name ∉ c.cls.layout.nativeNames) :
    c.Wide ∧ ∃ idx, c.cls.overflowIndex s.name = some idx ∧ c.cls.layout.overflowNames[idx]? =
    some s.name := by
  have hname : s.name ∈ c.cls.layout.names := by
    rw [names_eq]
    exact List.mem_map_of_mem hs
  obtain ⟨hwide, idx, hidx⟩ := Layout.exists_overflowIndex hname h
  have hW : c.Wide := by
    simpa [DefinedClass.Wide, DefinedClass.cls, PersistentClass.computeSlots] using hwide
  refine ⟨hW, idx, ?_, Layout.lookup_overflowIndices.mp hidx⟩
  rw [PersistentClass.overflowIndex, overflowIndices_of_wide hW]
  exact hidx

omit [DecidableEq κ] [DecidableEq α] in
theorem not_native_of_overflow {name : σ} {idx : Nat} (hwide : c.Wide)
    (h : c.cls.overflowIndex name = some idx) :
    name ∉ c.cls.layout.nativeNames ∧ c.cls.layout.overflowNames[idx]? = some name := by
  rw [PersistentClass.overflowIndex, overflowIndices_of_wide hwide] at h
  have hget := Layout.lookup_overflowIndices.mp h
  refine ⟨fun hnative => ?_, hget⟩
  have hmany : ¬ c.cls.layout.slots.length ≤ nativeSlotLimit := by
    simpa [DefinedClass.Wide, DefinedClass.cls, PersistentClass.computeSlots] using hwide
  rw [Layout.nativeNames, if_neg hmany] at hnative
  have hnodup : c.cls.layout.names.Nodup := c.cls.layout.nodup
  rw [← List.take_append_drop nativeSlotLimit c.cls.layout.names, List.nodup_append] at hnodup
  exact hnodup.2.2 name hnative name (List.mem_of_getElem? hget) rfl

/-- An element of the vector as the value of a slot. -/
def unlessUnbound : Value α → Option (Value α)
  | .unbound => none
  | value => some value

omit [DecidableEq κ] [DecidableEq α] in
theorem readSlot_overflow {x : Record σ α} {name : σ} {idx : Nat} {vec : List (Value α)}
    (h : name ∉ c.cls.layout.nativeNames) (hidx : c.cls.overflowIndex name = some idx)
    (hvec : x.persistentVector = some vec) :
    readSlot c x name = unlessUnbound (vec[idx]?.getD .unbound) := by
  rw [readSlot, slotValue, if_neg h, slotMissing, hidx, hvec]
  simp only [ref]
  cases vec[idx]?.getD .unbound <;> rfl

/-! ## §2 Writes -/

omit [DecidableEq κ] [DecidableEq α] in
/-- What one write changes: the slot it is for. -/
theorem setfSlotValue_reads {x : Record σ α} {s : EffectiveSlot σ κ α} {value : Value α}
    {initializing : Bool} (hx : Wf c x) (hs : s ∈ c.slots)
    (hopen : (initializing || x.owned) = true)
    (hvalue : s.name ∉ c.cls.layout.nativeNames → value ≠ .unbound) :
    ∃ x', setfSlotValue c initializing x s.name value = some x' ∧ Wf c x' ∧ x'.owned = x.owned ∧
      ∀ t ∈ c.slots, readSlot c x' t.name = if t.name = s.name then some value
      else readSlot c x t.name := by
  rw [setfSlotValue]
  split
  · next hnative =>
    refine ⟨_, rfl, hx, rfl, fun t ht => ?_⟩
    by_cases ht' : t.name ∈ c.cls.layout.nativeNames
    · rw [readSlot_native ht', readSlot_native ht']
      rfl
    · have hne : t.name ≠ s.name := fun h => ht' (h ▸ hnative)
      rw [if_neg hne, readSlot, readSlot, slotValue, slotValue, if_neg ht', if_neg ht']
      rfl
  · next hnative =>
    obtain ⟨hwide, idx, hidx, hget⟩ := overflow_of_not_native hs hnative
    obtain ⟨vec, hvec, hlen⟩ := hx hwide
    simp only [hidx, hvec, Option.map_some]
    refine ⟨_, rfl, fun _ => ⟨_, rfl, by simpa using hlen⟩, rfl, fun t ht => ?_⟩
    by_cases ht' : t.name ∈ c.cls.layout.nativeNames
    · have hne : t.name ≠ s.name := fun h => hnative (h ▸ ht')
      rw [if_neg hne, readSlot_native ht', readSlot_native ht']
    · obtain ⟨-, j, hj, hgetj⟩ := overflow_of_not_native ht ht'
      rw [readSlot_overflow ht' hj rfl, readSlot_overflow ht' hj hvec]
      have hlt : idx < vec.length := by
        rw [hlen]
        exact (List.getElem?_eq_some_iff.mp hget).1
      by_cases hij : idx = j
      · subst hij
        have hname : t.name = s.name := Option.some.inj (hgetj.symm.trans hget)
        rw [if_pos hname, List.getElem?_set_self hlt, Option.getD_some]
        have hv := hvalue hnative
        cases value with
        | unbound => exact absurd rfl hv
        | _ => rfl
      · have hne : t.name ≠ s.name := fun h => by
          rw [h, hidx] at hj
          exact hij (Option.some.inj hj)
        rw [if_neg hne, List.getElem?_set_ne hij]

/-- The keys name slots, and the overflow slots are not given the mark `:unbound`. -/
def Writable (K : Symbols σ κ α) (c : DefinedClass σ κ α) (pairs : List (Key σ κ × Value α)) :
    Prop :=
  ∀ p ∈ pairs, ∃ s ∈ c.slots, resolveKey K c p.1 = some s.name ∧
    (s.name ∉ c.cls.layout.nativeNames → p.2 ≠ .unbound)

instance (pairs : List (Key σ κ × Value α)) : Decidable (Writable K c pairs) :=
  inferInstanceAs (Decidable (∀ p ∈ pairs, ∃ s ∈ c.slots, _ ∧ _))

/-- The names that the pairs write. -/
def updated (K : Symbols σ κ α) (c : DefinedClass σ κ α) (pairs : List (Key σ κ × Value α)) :
    List σ :=
  pairs.filterMap fun p => resolveKey K c p.1

omit [DecidableEq α] in
/-- The fields after the updates depend on the old field only where nothing is written. -/
theorem putAll_congr {pairs : List (Key σ κ × Value α)} {f g : σ → Option (Value α)} {name : σ}
    (h : name ∉ updated K c pairs → f name = g name) :
    putAll K c f pairs name = putAll K c g pairs name := by
  induction pairs generalizing f g with
  | nil => exact h (by simp [updated])
  | cons p pairs ih =>
    simp only [putAll, List.foldl_cons]
    apply ih
    intro hrest
    cases hkey : resolveKey K c p.1 with
    | none => exact h (by simpa [updated, hkey] using hrest)
    | some n =>
      by_cases hname : name = n
      · simp [hname]
      · have hall : name ∉ updated K c (p :: pairs) := by
          simpa [updated, hkey, hname] using hrest
        simp [Function.update_of_ne hname, h hall]

omit [DecidableEq α] in
/-- A fold of writes is the update of the fields. -/
theorem writePairs_reads (initializing : Bool) {pairs : List (Key σ κ × Value α)} {x : Record σ α}
    (hx : Wf c x) (hopen : (initializing || x.owned) = true) (hw : Writable K c pairs) :
    ∃ x', pairs.foldlM (writePair K c initializing) x = some x' ∧ Wf c x' ∧ x'.owned = x.owned ∧
      ∀ t ∈ c.slots, readSlot c x' t.name = putAll K c (readSlot c x) pairs t.name := by
  induction pairs generalizing x with
  | nil => exact ⟨x, rfl, hx, rfl, fun t _ => rfl⟩
  | cons p pairs ih =>
    obtain ⟨s, hs, hkey, hvalue⟩ := hw p (by simp)
    obtain ⟨x₁, hset, hx₁, howned, hreads⟩ := setfSlotValue_reads hx hs hopen hvalue
    obtain ⟨x', hrun, hx', howned', hreads'⟩ :=
      ih hx₁ (by rw [howned, hopen]) fun q hq => hw q (List.mem_cons_of_mem p hq)
    have hpair : writePair K c initializing x p = some x₁ := by simp [writePair, hkey, hset]
    refine ⟨x', by simp [hpair, hrun], hx', howned'.trans howned, fun t ht => ?_⟩
    have hput : putAll K c (readSlot c x) (p :: pairs) =
        putAll K c (Function.update (readSlot c x) s.name (some p.2)) pairs := by
      simp [putAll, hkey]
    rw [hreads' t ht, hput]
    apply putAll_congr
    intro _
    rw [hreads t ht, Function.update_apply]

/-! ## §3 Copies -/

/-- The value that the loop over the slots gives a slot. -/
def copied (c : DefinedClass σ κ α) (skip : EffectiveSlot σ κ α → Bool) (x : Record σ α)
    (s : EffectiveSlot σ κ α) : Option (Value α) :=
  if skip s then none else (readSlot c x s.name).or (s.aliasName.bind (readSlot c x))

omit [DecidableEq σ] [DecidableEq κ] [DecidableEq α] in
theorem mem_classSlots {s : EffectiveSlot σ κ α} (hs : s ∈ c.slots)
    (h : s.name ∈ c.cls.layout.nativeNames) :
    s ∈ c.classSlots := by
  rw [nativeNames_eq, List.mem_map] at h
  obtain ⟨s', hs', hsame⟩ := h
  rwa [← List.inj_on_of_nodup_map c.nodup (classSlots_sublist.subset hs') hs hsame]

omit [DecidableEq κ] [DecidableEq α] in
theorem copySlots_native {skip : EffectiveSlot σ κ α → Bool} {x : Record σ α}
    {s : EffectiveSlot σ κ α} (hs : s ∈ c.classSlots) :
    (copySlots c skip x).native s.name = copied c skip x s := by
  have hlookup := lookup_reverse_filterMap EffectiveSlot.name (copied c skip x)
    (c.nodup.sublist (classSlots_sublist.map _)) hs
  unfold copySlots
  refine (native_foldl (w := fun s => (copied c skip x s).map (s.name, ·)) ?_ c.classSlots _
    s.name).trans ?_
  · intro new s
    simp only [copied]
    split
    · rfl
    · cases (readSlot c x s.name).or (s.aliasName.bind (readSlot c x)) <;> rfl
  · rw [hlookup]
    exact Option.or_none

omit [DecidableEq κ] [DecidableEq α] in
/-- The loop leaves the vector to the code after it. -/
theorem copySlots_vector (skip : EffectiveSlot σ κ α → Bool) (x : Record σ α) :
    (copySlots c skip x).persistentVector = none := by
  simp only [copySlots]
  refine List.foldlRecOn (motive := fun new : Instance σ α => new.persistentVector = none) _ _
    rfl ?_
  intro new hnew s _
  split
  · exact hnew
  · split
    · exact hnew
    · exact hnew

/-- The copy with the vector of the original. -/
def copyOf (c : DefinedClass σ κ α) (x : Record σ α) : Record σ α :=
  { copySlots c (fun _ => false) x with
    persistentVector := if c.Wide then x.persistentVector else none }

omit [DecidableEq σ] [DecidableEq κ] [DecidableEq α] in
/-- A fold in a state that another is a part of. -/
theorem foldlM_map {β γ δ : Type} {f : γ → β → Option γ} {g : δ → β → Option δ} {j : γ → δ}
    (h : ∀ st b, (f st b).map j = g (j st) b) (bs : List β) (st : γ) :
    (bs.foldlM f st).map j = bs.foldlM g (j st) := by
  induction bs generalizing st with
  | nil => rfl
  | cons b bs ih =>
    rw [List.foldlM_cons, List.foldlM_cons, ← h st b]
    cases f st b with
    | none => rfl
    | some st' => exact ih st'

/-- The vector put back into its object. -/
def putBack (st : List (Value α) × Record σ α) : Record σ α :=
  { st.2 with persistentVector := some st.1 }

omit [DecidableEq α] in
/-- With the vector as a transient the pairs are written as without. -/
theorem writeWide_eq (hwide : c.Wide) (st : List (Value α) × Record σ α) (p : Key σ κ × Value α) :
    (writeWide K c st p).map putBack = writePair K c true (putBack st) p := by
  simp only [writeWide, writePair, overflowKey]
  cases hkey : resolveKey K c p.1 with
  | none => rfl
  | some name =>
    cases hidx : c.cls.overflowIndex name with
    | some idx =>
      obtain ⟨hnative, -⟩ := not_native_of_overflow hwide hidx
      simp [setfSlotValue, hnative, hidx, putBack]
    | none =>
      by_cases hnative : name ∈ c.cls.layout.nativeNames
      · simp [setfSlotValue, hnative, hidx, putBack, setNative]
      · simp [setfSlotValue, hnative, hidx, putBack]

omit [DecidableEq α] in
/-- An update of a persistent object is a fold of writes on its copy. -/
theorem updateSlots_eq {x : Record σ α} (hx : Wf c x) (howned : x.owned = false)
    (pairs : List (Key σ κ × Value α)) :
    updateSlots K c x pairs = pairs.foldlM (writePair K c true) (copyOf c x) := by
  simp only [updateSlots, howned, Bool.false_eq_true, if_false]
  by_cases hwide : c.Wide
  · obtain ⟨vec, hvec, -⟩ := hx hwide
    have hcopy : copyOf c x = putBack (vec, copySlots c (fun _ => false) x) := by
      simp [copyOf, putBack, hwide, hvec]
    simp only [if_pos hwide, hvec, Option.getD_some]
    split
    · rw [hcopy, ← foldlM_map (writeWide_eq hwide)]
      rfl
    · rw [hcopy]
      rfl
  · have hcopy : copyOf c x = copySlots c (fun _ => false) x := by
      rw [copyOf, if_neg hwide, ← copySlots_vector (fun _ => false) x]
    rw [if_neg hwide, hcopy]

/-- No unbound slot that a copy is to keep unbound has a bound slot for its alias. -/
def NoRevival (c : DefinedClass σ κ α) (x : Record σ α) (kept : EffectiveSlot σ κ α → Prop) :
    Prop :=
  ∀ s ∈ c.classSlots, kept s → readSlot c x s.name = none → ∀ a ∈ s.aliasName, readSlot c x a = none

omit [DecidableEq κ] [DecidableEq α] in
theorem readSlot_copyOf {x : Record σ α} (hx : Wf c x) {t : EffectiveSlot σ κ α}
    (ht : t ∈ c.slots) :
    readSlot c (copyOf c x) t.name =
      if t.name ∈ c.cls.layout.nativeNames then copied c (fun _ => false) x t
      else readSlot c x t.name := by
  split
  · next hnative =>
    rw [readSlot_native hnative]
    exact copySlots_native (mem_classSlots ht hnative)
  · next hnative =>
    obtain ⟨hwide, idx, hidx, -⟩ := overflow_of_not_native ht hnative
    obtain ⟨vec, hvec, -⟩ := hx hwide
    rw [readSlot_overflow hnative hidx hvec,
      readSlot_overflow hnative hidx (by rw [copyOf, if_pos hwide, hvec])]

omit [DecidableEq α] in
/-- `update-slots` of a persistent object makes one that reads as the updated fields. -/
theorem updateSlots_reads {x : Record σ α} (pairs : List (Key σ κ × Value α)) (hx : Wf c x)
    (howned : x.owned = false) (hw : Writable K c pairs)
    (hkept : NoRevival c x fun s => s.name ∉ updated K c pairs) :
    ∃ x', updateSlots K c x pairs = some x' ∧ Wf c x' ∧ x'.owned = false ∧
      ∀ t ∈ c.slots, readSlot c x' t.name = putAll K c (readSlot c x) pairs t.name := by
  have hcopy : Wf c (copyOf c x) := by
    intro hwide
    obtain ⟨vec, hvec, hlen⟩ := hx hwide
    exact ⟨vec, by rw [copyOf, if_pos hwide, hvec], hlen⟩
  obtain ⟨x', hrun, hx', howned', hreads⟩ := writePairs_reads true hcopy rfl hw
  refine ⟨x', by rw [updateSlots_eq hx howned, hrun], hx', howned', fun t ht => ?_⟩
  rw [hreads t ht]
  apply putAll_congr
  intro hfree
  rw [readSlot_copyOf hx ht]
  split
  · next hnative =>
    cases hread : readSlot c x t.name with
    | some value => simp [copied, hread]
    | none =>
      have hunbound := hkept t (mem_classSlots ht hnative) hfree hread
      simpa [copied, hread] using hunbound
  · rfl

/-- The vector cleared at the indices of some entries. -/
def clearAt (p : σ × Nat → Bool) (entries : List (σ × Nat)) (vec : List (Value α)) :
    List (Value α) :=
  entries.foldl (fun vec entry => if p entry then vec.set entry.2 .unbound else vec) vec

omit [DecidableEq σ] [DecidableEq α] in
theorem length_clearAt (p : σ × Nat → Bool) (entries : List (σ × Nat)) (vec : List (Value α)) :
    (clearAt p entries vec).length = vec.length := by
  refine List.foldlRecOn (motive := fun v : List (Value α) => v.length = vec.length) _ _ rfl ?_
  intro v hv entry _
  split
  · rw [List.length_set, hv]
  · exact hv

omit [DecidableEq σ] [DecidableEq α] in
theorem getElem?_clearAt (p : σ × Nat → Bool) (entries : List (σ × Nat)) (vec : List (Value α))
    (i : Nat) :
    (clearAt p entries vec)[i]? =
      if entries.any fun entry => entry.2 == i && p entry then vec[i]?.map fun _ => .unbound
      else vec[i]? := by
  induction entries generalizing vec with
  | nil => simp [clearAt]
  | cons entry entries ih =>
    have hstep : clearAt p (entry :: entries) vec =
        clearAt p entries (if p entry then vec.set entry.2 .unbound else vec) := rfl
    rw [hstep, ih, List.any_cons]
    cases hp : p entry with
    | false => rw [Bool.and_false, Bool.false_or, if_neg Bool.false_ne_true]
    | true =>
      rw [if_pos rfl, Bool.and_true]
      by_cases hi : entry.2 = i
      · subst hi
        cases hget : vec[entry.2]? with
        | none => simp [List.getElem?_eq_none_iff.mp hget]
        | some value => simp [(List.getElem?_eq_some_iff.mp hget).1]
      · rw [beq_false_of_ne hi, Bool.false_or, List.getElem?_set_ne hi]

/-- What `dissoc-slots` is to leave as it is: an unbound slot has no bound alias, and a slot whose
alias is removed is unbound, or in the vector while no element of that is removed. -/
structure RemovesAlone (K : Symbols σ κ α) (c : DefinedClass σ κ α) (x : Record σ α)
    (keys : List (Key σ κ)) : Prop where
  unbound : NoRevival c x fun s => isRemoved (keys.filterMap (resolveKey K c)) s.name s.aliasName =
    false
  aliased : ∀ s ∈ c.slots, ∀ a ∈ s.aliasName, a ∈ keys.filterMap (resolveKey K c) →
    s.name ∉ keys.filterMap (resolveKey K c) →
    (s.name ∈ c.cls.layout.nativeNames ∨
      ∃ name ∈ keys.filterMap (resolveKey K c), (c.cls.overflowIndex name).isSome) →
    readSlot c x s.name = none

omit [DecidableEq κ] [DecidableEq α] in
theorem lookup_slotAliases {s : EffectiveSlot σ κ α} (hs : s ∈ c.slots) :
    c.cls.slotAliases.lookup s.name = s.aliasName := by
  have haliases : c.cls.slotAliases = c.slots.filterMap fun s => s.aliasName.map (s.name, ·) := by
    simp [DefinedClass.cls, PersistentClass.computeSlots, DefinedClass.layout, Layout.aliases,
      List.filterMap_map]
  have hlookup := lookup_filterMap_snd
    (l := c.slots.map fun s => (s.name, s.aliasName)) (by simpa [Function.comp_def] using c.nodup)
    id s.name
  rw [Lib.lookup_of_mem (by simpa [Function.comp_def] using c.nodup)
    (List.mem_map_of_mem (f := fun s => (s.name, s.aliasName)) hs)] at hlookup
  rw [haliases]
  simpa [List.filterMap_map, Function.comp_def] using hlookup

omit [DecidableEq κ] [DecidableEq α] in
theorem isRemoved_iff {removed : List σ} {name : σ} {aliasName : Option σ} :
    isRemoved removed name aliasName = true ↔ name ∈ removed ∨ ∃ a ∈ aliasName, a ∈ removed := by
  cases aliasName with
  | none => simp [isRemoved]
  | some a => simp [isRemoved]

/-- The vector of what `dissoc-slots` makes of a wide object. -/
def dissocVector (c : DefinedClass σ κ α) (removed : List σ) (vec : List (Value α)) :
    List (Value α) :=
  if removed.any fun name => (c.cls.overflowIndex name).isSome then
    clearAt (fun entry => isRemoved removed entry.1 (c.cls.slotAliases.lookup entry.1))
      (c.cls.overflowIndices.getD []) vec
  else vec

omit [DecidableEq α] in
theorem dissocSlots_eq {x : Record σ α} {keys : List (Key σ κ)} {removed : List σ}
    (hremoved : keys.filterMap (resolveKey K c) = removed) (hwide : c.Wide) {vec : List (Value α)}
    (hvec : x.persistentVector = some vec) :
    dissocSlots K c x keys =
      { copySlots c (fun s => isRemoved removed s.name s.aliasName) x with
        persistentVector := some (dissocVector c removed vec) } := by
  subst hremoved
  simp only [dissocSlots, hvec, if_pos hwide, dissocVector]
  split
  · rfl
  · rfl

omit [DecidableEq α] in
theorem dissocSlots_native {x : Record σ α} (keys : List (Key σ κ)) {removed : List σ}
    (hremoved : keys.filterMap (resolveKey K c) = removed) :
    (dissocSlots K c x keys).native =
        (copySlots c (fun s => isRemoved removed s.name s.aliasName) x).native ∧
      (dissocSlots K c x keys).owned = false := by
  subst hremoved
  simp only [dissocSlots]
  split
  · split
    · split
      · exact ⟨rfl, rfl⟩
      · exact ⟨rfl, rfl⟩
    · exact ⟨rfl, rfl⟩
  · exact ⟨rfl, rfl⟩

omit [DecidableEq κ] [DecidableEq α] in
theorem length_dissocVector (removed : List σ) (vec : List (Value α)) :
    (dissocVector c removed vec).length = vec.length := by
  rw [dissocVector]
  split
  · exact length_clearAt _ _ _
  · rfl

omit [DecidableEq κ] [DecidableEq α] in
/-- The element of a slot, while elements are cleared for the removed slots and their aliases. -/
theorem getElem?_dissocVector {removed : List σ} {vec : List (Value α)} {t : EffectiveSlot σ κ α}
    {idx : Nat} (hwide : c.Wide) (ht : t ∈ c.slots)
    (hget : c.cls.layout.overflowNames[idx]? = some t.name) :
    (dissocVector c removed vec)[idx]? =
      if (removed.any fun name => (c.cls.overflowIndex name).isSome) ∧
      isRemoved removed t.name t.aliasName then
        vec[idx]?.map fun _ => .unbound
      else vec[idx]? := by
  rw [dissocVector]
  split
  · next hany =>
    have hentry : (t.name, idx) ∈ c.cls.layout.overflowIndices := by
      rw [Layout.overflowIndices, List.mem_zipIdx_iff_getElem?]
      exact hget
    have hcleared : ((c.cls.overflowIndices.getD []).any fun entry =>
        entry.2 == idx && isRemoved removed entry.1 (c.cls.slotAliases.lookup entry.1)) =
          isRemoved removed t.name t.aliasName := by
      rw [overflowIndices_of_wide hwide, Option.getD_some, Bool.eq_iff_iff, List.any_eq_true]
      constructor
      · rintro ⟨entry, hmem, hentry⟩
        obtain ⟨hidx, hremoved⟩ := Bool.and_eq_true_iff.mp hentry
        rw [Layout.overflowIndices, List.mem_zipIdx_iff_getElem?, eq_of_beq hidx, hget] at hmem
        rw [← Option.some.inj hmem, lookup_slotAliases ht] at hremoved
        exact hremoved
      · intro hremoved
        exact ⟨_, hentry, by simpa [lookup_slotAliases ht] using hremoved⟩
    rw [getElem?_clearAt, hcleared]
    simp [hany]
  · next hany => simp [hany]

omit [DecidableEq α] in
/-- `dissoc-slots` makes a persistent object that reads as the fields without the removed ones. -/
theorem dissocSlots_reads {x : Record σ α} {keys : List (Key σ κ)} (hx : Wf c x)
    (h : RemovesAlone K c x keys) :
    Wf c (dissocSlots K c x keys) ∧ (dissocSlots K c x keys).owned = false ∧
      ∀ t ∈ c.slots, readSlot c (dissocSlots K c x keys) t.name = removeAll K c (readSlot c x) keys
      t.name := by
  obtain ⟨hnative, howned⟩ := dissocSlots_native (K := K) (c := c) (x := x) keys rfl
  refine ⟨fun hwide => ?_, howned, fun t ht => ?_⟩
  · obtain ⟨vec, hvec, hlen⟩ := hx hwide
    rw [dissocSlots_eq rfl hwide hvec]
    exact ⟨_, rfl, by rw [length_dissocVector, hlen]⟩
  · rw [removeAll]
    by_cases ht' : t.name ∈ c.cls.layout.nativeNames
    · have hmem := mem_classSlots ht ht'
      rw [readSlot_native ht', hnative, copySlots_native hmem, copied]
      cases hremoved : isRemoved (keys.filterMap (resolveKey K c)) t.name t.aliasName with
      | true =>
        rw [if_pos rfl]
        split
        · rfl
        · next hout =>
          obtain ⟨a, ha, hin⟩ := (isRemoved_iff.mp hremoved).resolve_left hout
          exact (h.aliased t ht a ha hin hout (.inl ht')).symm
      | false =>
        have hout : t.name ∉ keys.filterMap (resolveKey K c) := fun hin => by
          rw [isRemoved_iff.mpr (.inl hin)] at hremoved
          cases hremoved
        rw [if_neg Bool.false_ne_true, if_neg hout]
        cases hread : readSlot c x t.name with
        | some value => rfl
        | none => simpa using h.unbound t hmem hremoved hread
    · obtain ⟨hwide, idx, hidx, hget⟩ := overflow_of_not_native ht ht'
      obtain ⟨vec, hvec, -⟩ := hx hwide
      have hread := readSlot_overflow ht' hidx hvec
      rw [dissocSlots_eq rfl hwide hvec, readSlot_overflow ht' hidx rfl,
        getElem?_dissocVector hwide ht hget]
      split
      · next hcleared =>
        have hnone : ∀ value : Option (Value α),
            unlessUnbound ((value.map fun _ => (.unbound : Value α)).getD .unbound) = none := by
          intro value
          cases value with
          | none => rfl
          | some _ => rfl
        rw [hnone]
        split
        · rfl
        · next hout =>
          obtain ⟨a, ha, hin⟩ := (isRemoved_iff.mp hcleared.2).resolve_left hout
          exact (h.aliased t ht a ha hin hout (.inr (List.any_eq_true.mp hcleared.1))).symm
      · next hkept =>
        have hout : t.name ∉ keys.filterMap (resolveKey K c) := fun hin =>
          hkept ⟨List.any_eq_true.mpr ⟨t.name, hin, by rw [hidx]; rfl⟩,
            isRemoved_iff.mpr (.inl hin)⟩
        rw [if_neg hout, hread]

/-! ## §4 Conditions -/

/-- `make-instance` finds for each slot the argument that is for it: the resolved arguments have it,
and for a slot in the vector it is no mark and an initform does not matter. -/
def Given (K : Symbols σ κ α) (c : DefinedClass σ κ α) (initargs : Initargs κ α) : Prop :=
  ∀ s ∈ c.slots,
    if s.name ∈ c.cls.layout.nativeNames then
      ((resolveAliases K c initargs).find? fun p => p.1 ∈ s.initargs).map Prod.snd =
      argument K initargs s
    else
      overflowInitarg K c (resolveAliases K c initargs) s.name =
      (argument K initargs s).getD .notFound ∧
        argument K initargs s ≠ some .notFound ∧ argument K initargs s ≠ some .unbound ∧
        (argument K initargs s = none → s.initform = none)

/-- The object takes the updates. -/
def Updatable (K : Symbols σ κ α) (c : DefinedClass σ κ α) (heap : Heap σ α) (i : Nat)
    (pairs : List (Key σ κ × Value α)) : Prop :=
  ∃ x, heap[i]? = some x ∧ Writable K c pairs ∧
    (x.owned = false → NoRevival c x fun s => s.name ∉ updated K c pairs)

/-- The operation is on an object obtained before, and away from the defects. -/
def OpOk (K : Symbols σ κ α) (c : DefinedClass σ κ α) (heap : Heap σ α) : Op σ κ α → Prop
  | .makeInstance initargs => Given K c initargs
  | .updateSlot i key value => Updatable K c heap i [(key, value)]
  | .updateSlots i pairs => Updatable K c heap i pairs
  | .dissocSlots i keys => ∃ x, heap[i]? = some x ∧ RemovesAlone K c x keys
  | .transient i => ∃ x, heap[i]? = some x ∧ x.owned = false ∧ NoRevival c x fun _ => True
  | .assocBang i key value => Updatable K c heap i [(key, value)]
  | .persistentBang i => ∃ x, heap[i]? = some x

/-- Each operation of the run is. -/
def Proper (K : Symbols σ κ α) (c : DefinedClass σ κ α) (heap : Heap σ α) : List (Op σ κ α) → Prop
  | [] => True
  | op :: ops => OpOk K c heap op ∧ ∀ r, step K c heap op = some r → Proper K c r.1 ops

/-! ## §5 Runs -/

/-- The object stands for the record. -/
structure Stands (c : DefinedClass σ κ α) (x : Record σ α) (r : AbsRecord σ α) : Prop where
  wf : Wf c x
  reads : Reads c x r

omit [DecidableEq σ] [DecidableEq κ] [DecidableEq α] in
theorem forall₂_set {β γ : Type} {R : β → γ → Prop} {l : List β} {m : List γ}
    (h : List.Forall₂ R l m) {a : β} {b : γ} (hab : R a b) (i : Nat) :
    List.Forall₂ R (l.set i a) (m.set i b) := by
  induction h generalizing i with
  | nil => exact .nil
  | cons hcd h ih =>
    cases i with
    | zero => exact .cons hab h
    | succ i => exact .cons hcd (ih i)

omit [DecidableEq σ] [DecidableEq κ] [DecidableEq α] in
theorem forall₂_getElem? {β γ : Type} {R : β → γ → Prop} {l : List β} {m : List γ}
    (h : List.Forall₂ R l m) {a : β} {i : Nat} (hi : l[i]? = some a) :
    ∃ b, m[i]? = some b ∧ R a b := by
  induction h generalizing i with
  | nil => simp at hi
  | cons hcd h ih =>
    cases i with
    | zero =>
      cases hi
      exact ⟨_, rfl, hcd⟩
    | succ i => exact ih hi

omit [DecidableEq σ] [DecidableEq κ] [DecidableEq α] in
theorem forall₂_append_singleton {β γ : Type} {R : β → γ → Prop} {l : List β} {m : List γ}
    (h : List.Forall₂ R l m) {a : β} {b : γ} (hab : R a b) : List.Forall₂ R (l ++ [a]) (m ++ [b]) :=
  List.rel_append h (.cons hab .nil)

/-- What a step keeps of the objects that are no transients. -/
def Preserves (heap heap' : Heap σ α) : Prop :=
  ∀ (i : Nat) (x : Record σ α), heap[i]? = some x → x.owned = false → heap'[i]? = some x

omit [DecidableEq σ] [DecidableEq κ] [DecidableEq α] in
theorem preserves_append (heap : Heap σ α) (new : Record σ α) : Preserves heap (heap ++ [new]) := by
  intro i x hi _
  rw [List.getElem?_append_left (List.getElem?_eq_some_iff.mp hi).1, hi]

omit [DecidableEq σ] [DecidableEq κ] [DecidableEq α] in
/-- A write in place of a transient. -/
theorem preserves_set {heap : Heap σ α} {i : Nat} {x : Record σ α} (hi : heap[i]? = some x)
    (howned : x.owned = true) (new : Record σ α) : Preserves heap (heap.set i new) := by
  intro j y hj hy
  have hne : i ≠ j := by
    rintro rfl
    rw [hi] at hj
    cases hj
    rw [howned] at hy
    cases hy
  rw [List.getElem?_set_ne hne, hj]

omit [DecidableEq α] in
theorem described_eq {s : EffectiveSlot σ κ α} (hs : s ∈ c.slots) (initargs : Initargs κ α) :
    described K c initargs s.name = (argument K initargs s).or s.initform := by
  have hfind : c.slots.find? (·.name = s.name) = some s := by
    obtain ⟨s', hs'⟩ : ∃ s', c.slots.find? (·.name = s.name) = some s' := by
      rw [← Option.isSome_iff_exists, List.find?_isSome]
      exact ⟨s, hs, by simp⟩
    have hname : s'.name = s.name := by simpa using List.find?_some hs'
    rw [hs', List.inj_on_of_nodup_map c.nodup (List.mem_of_find?_eq_some hs') hs hname]
  rw [described, hfind, Option.bind_some]

/-- The result of `make-instance` has the described fields. -/
theorem makeInstance_stands {initargs : Initargs κ α} (h : Given K c initargs) :
    Stands c { toInstance := Construction.makeInstance K c initargs }
    { fields := described K c initargs } := by
  refine ⟨fun hwide => ⟨_, makeInstance_vector hwide, List.length_map ..⟩, fun s hs => ?_, rfl⟩
  have hs' := h s hs
  have hslot : readSlot c { toInstance := Construction.makeInstance K c initargs } s.name =
      taken K c initargs s := slotValue_makeInstance hs
  simp only [hslot, taken, described_eq hs]
  by_cases hnative : s.name ∈ c.cls.layout.nativeNames
  · rw [if_pos hnative] at hs'
    rw [if_pos hnative, ← hs', initialValue]
    cases (resolveAliases K c initargs).find? fun p => p.1 ∈ s.initargs with
    | none => rfl
    | some p => rfl
  · rw [if_neg hnative] at hs'
    obtain ⟨hinitarg, hfound, hbound, hform⟩ := hs'
    rw [if_neg hnative, hinitarg]
    cases hargument : argument K initargs s with
    | none => simp [hform hargument]
    | some value =>
      rw [hargument] at hfound hbound
      cases value with
      | unbound => exact absurd rfl hbound
      | notFound => exact absurd rfl hfound
      | other a => rfl

omit [DecidableEq α] in
/-- An update of the object is one of the record. -/
theorem updateAt_refines {heap : Heap σ α} {records : List (AbsRecord σ α)}
    (hr : List.Forall₂ (Stands c) heap records) {i : Nat} {pairs : List (Key σ κ × Value α)}
    (hok : Updatable K c heap i pairs) :
    ∃ heap' a, updateAt K c heap i pairs = some (heap', a) ∧
      List.Forall₂ (Stands c) heap' (absUpdate K c records i pairs) ∧ Preserves heap heap' := by
  obtain ⟨x, hi, hw, hkept⟩ := hok
  obtain ⟨r, hri, hstands⟩ := forall₂_getElem? hr hi
  have hput : ∀ t ∈ c.slots,
    putAll K c (readSlot c x) pairs t.name = putAll K c r.fields pairs t.name := by
    intro t ht
    apply putAll_congr
    intro _
    exact hstands.reads.fields t ht
  cases howned : x.owned with
  | true =>
    obtain ⟨new, hrun, hnew, hnewOwned, hreads⟩ :=
      writePairs_reads false hstands.wf (by rw [howned]; rfl) hw
    have hup : updateSlots K c x pairs = some new := by rw [updateSlots, if_pos howned, hrun]
    have habs : r.transient = true := by rw [← hstands.reads.transient, howned]
    refine ⟨heap.set i new, i, by simp [updateAt, hi, hup, howned], ?_, preserves_set hi howned new⟩
    rw [absUpdate, hri]
    simp only [habs, if_true]
    refine forall₂_set hr ⟨hnew, fun t ht => ?_, ?_⟩ i
    · rw [hreads t ht, hput t ht]
    · rw [hnewOwned, howned]
  | false =>
    obtain ⟨new, hup, hnew, hnewOwned, hreads⟩ :=
      updateSlots_reads pairs hstands.wf howned hw (hkept howned)
    have habs : r.transient = false := by rw [← hstands.reads.transient, howned]
    refine ⟨heap ++ [new], heap.length, by simp [updateAt, hi, hup, howned], ?_,
      preserves_append heap new⟩
    rw [absUpdate, hri]
    simp only [habs, Bool.false_eq_true, if_false]
    refine forall₂_append_singleton hr ⟨hnew, fun t ht => ?_, hnewOwned⟩
    rw [hreads t ht, hput t ht]

omit [DecidableEq α] in
theorem dissocSlots_refines {heap : Heap σ α} {records : List (AbsRecord σ α)}
    (hr : List.Forall₂ (Stands c) heap records) {i : Nat} {keys : List (Key σ κ)} {x : Record σ α}
    (hi : heap[i]? = some x) (hok : RemovesAlone K c x keys) :
    List.Forall₂ (Stands c) (heap ++ [dissocSlots K c x keys])
    (absStep K c records (.dissocSlots i keys)) := by
  obtain ⟨r, hri, hstands⟩ := forall₂_getElem? hr hi
  obtain ⟨hwf, howned, hreads⟩ := dissocSlots_reads hstands.wf hok
  rw [absStep, hri]
  refine forall₂_append_singleton hr ⟨hwf, fun t ht => ?_, howned⟩
  simp only [hreads t ht, removeAll, hstands.reads.fields t ht]

/-- `transient` copies a persistent object. -/
theorem transient_refines {heap : Heap σ α} {records : List (AbsRecord σ α)}
    (hr : List.Forall₂ (Stands c) heap records) {i : Nat} {x : Record σ α} (hi : heap[i]? = some x)
    (howned : x.owned = false) (hkept : NoRevival c x fun _ => True) :
    ∃ heap' a, step K c heap (.transient i) = some (heap', a) ∧
      List.Forall₂ (Stands c) heap' (absStep K c records (.transient i)) ∧
      Preserves heap heap' := by
  obtain ⟨r, hri, hstands⟩ := forall₂_getElem? hr hi
  obtain ⟨copy, hup, hcopy, hcopyOwned, hreads⟩ := updateSlots_reads (K := K) [] hstands.wf howned
    (by simp [Writable]) fun s hs _ => hkept s hs trivial
  refine ⟨heap ++ [{ copy with owned := true }], heap.length, ?_, ?_, preserves_append heap _⟩
  · simp [step, updateAt, hi, hup, howned]
  · rw [absStep, hri]
    refine forall₂_append_singleton hr ⟨hcopy, fun t ht => ?_, rfl⟩
    exact (hreads t ht).trans (hstands.reads.fields t ht)

/-- One step. -/
theorem step_refines {heap : Heap σ α} {records : List (AbsRecord σ α)}
    (hr : List.Forall₂ (Stands c) heap records) {op : Op σ κ α} (hok : OpOk K c heap op) :
    ∃ heap' a, step K c heap op = some (heap', a) ∧
      List.Forall₂ (Stands c) heap' (absStep K c records op) ∧ Preserves heap heap' := by
  cases op with
  | makeInstance initargs =>
    exact ⟨_, _, rfl, forall₂_append_singleton hr (makeInstance_stands hok),
      preserves_append heap _⟩
  | updateSlot i key value => exact updateAt_refines hr hok
  | updateSlots i pairs => exact updateAt_refines hr hok
  | dissocSlots i keys =>
    obtain ⟨x, hi, halone⟩ := hok
    exact ⟨heap ++ [dissocSlots K c x keys], heap.length, by simp [step, hi],
      dissocSlots_refines hr hi halone, preserves_append heap _⟩
  | transient i =>
    obtain ⟨x, hi, howned, hkept⟩ := hok
    exact transient_refines hr hi howned hkept
  | assocBang i key value => exact updateAt_refines hr hok
  | persistentBang i =>
    obtain ⟨x, hi⟩ := hok
    obtain ⟨r, hri, hstands⟩ := forall₂_getElem? hr hi
    refine ⟨heap.set i { x with owned := false }, i, by simp [step, hi], ?_, ?_⟩
    · have hfrozen : Stands c { x with owned := false } { r with transient := false } :=
        ⟨hstands.wf, hstands.reads.fields, rfl⟩
      rw [absStep, hri]
      exact forall₂_set hr hfrozen i
    · intro j y hj hy
      by_cases hij : i = j
      · -- freezing what is frozen changes nothing
        subst hij
        rw [hi] at hj
        cases hj
        rw [List.getElem?_set_self (List.getElem?_eq_some_iff.mp hi).1, ← hy]
      · rw [List.getElem?_set_ne hij, hj]

/-- A run. -/
theorem run_refines {ops : List (Op σ κ α)} {heap : Heap σ α} {records : List (AbsRecord σ α)}
    (hr : List.Forall₂ (Stands c) heap records) (hok : Proper K c heap ops) :
    ∃ final, run K c heap ops = some final ∧
    List.Forall₂ (Stands c) final (absRun K c records ops) ∧
      Preserves heap final := by
  induction ops generalizing heap records with
  | nil => exact ⟨heap, rfl, hr, fun i x hi _ => hi⟩
  | cons op ops ih =>
    obtain ⟨heap', a, hstep, hr', hkept⟩ := step_refines hr hok.1
    obtain ⟨final, hrun, hfinal, hkept'⟩ := ih hr' (hok.2 _ hstep)
    refine ⟨final, by rw [run, hstep]; exact hrun, hfinal, fun i x hi hx => ?_⟩
    exact hkept' i x (hkept i x hi hx) hx

theorem Proper.append {before after : List (Op σ κ α)} {heap : Heap σ α}
    (h : Proper K c heap (before ++ after)) :
    Proper K c heap before ∧ ∀ heap', run K c heap before = some heap' →
    Proper K c heap' after := by
  induction before generalizing heap with
  | nil =>
    refine ⟨trivial, fun heap' hrun => ?_⟩
    cases hrun
    exact h
  | cons op before ih =>
    refine ⟨⟨h.1, fun r hr => (ih (h.2 r hr)).1⟩, fun heap' hrun => ?_⟩
    obtain ⟨r, hr, hrest⟩ := Option.bind_eq_some_iff.mp hrun
    exact (ih (h.2 r hr)).2 heap' hrest

omit [DecidableEq κ] [DecidableEq α] in
/-- A slot of an object without an owner is not written. -/
theorem frozen_of_not_owned {x : Record σ α} (howned : x.owned = false) : FrozenIn c x := by
  intro s hs
  by_cases hnative : s.name ∈ c.cls.layout.nativeNames
  · simp [setfSlotValue, slotMakunbound, hnative, howned]
  · obtain ⟨-, idx, hidx, -⟩ := overflow_of_not_native hs hnative
    simp [setfSlotValue, slotMakunbound, hnative, hidx, howned]

/-- A class of nine slots. -/
def nineSlots : DefinedClass Nat Nat Nat where
  slots := (List.range 9).map fun n => ⟨n, none, [n], some (.other 42)⟩
  nodup := by decide
  slotInfos := []
  slotInfos_nodup := by simp
  slotInfos_slots := by simp
  before := ⟨⟨[], .nil⟩, 0, none, [], 0, []⟩

/-- An update of the ninth slot, and a session on the first object. -/
def nineRun : List (Op Nat Nat Nat) :=
  [.makeInstance [(8, .other 7)], .updateSlot 0 (.keyword 8) (.other 5), .transient 0,
    .assocBang 2 (.symbol 8) (.other 9), .persistentBang 2]

end Fol.Persistence.Records
