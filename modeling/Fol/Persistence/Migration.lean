/-
Fol.Persistence.Migration — when migrating once is migrating after every redefinition.

A class without overflow slots is followed through redefinitions from the version at
which an instance was born. `composedAliases` looks a slot's birth name up in one go;
each single redefinition looks one hop back. `HandsOn` says, of one redefinition and of
slot names only, that the hop draws every slot from the very birth slot the composed map
leads to.

  §1 Association lists — lookups in what the migration builds.
  §2 One migration     — `slotValue_migrate`.
  §3 Histories         — the step lemma and `path_independent_iff`.
-/
import Fol.Persistence.Schema
import Mathlib.Data.List.Induction

namespace Fol.Persistence

variable {σ α : Type} [DecidableEq σ]

/-! ## §1 Association lists -/

section Lookups

variable {β γ : Type}

theorem lookup_eq_none_of_not_mem {l : List (σ × β)} {n : σ} (h : n ∉ l.map Prod.fst) :
    l.lookup n = none := by
  rw [List.lookup_eq_none_iff]
  intro entry he
  have hne : n ≠ entry.1 := fun heq => h (heq ▸ List.mem_map_of_mem he)
  simpa using hne

theorem lookup_filterMap_snd {l : List (σ × β)} (hl : (l.map Prod.fst).Nodup) (f : β → Option γ)
    (n : σ) :
    (l.filterMap fun e => (f e.2).map (e.1, ·)).lookup n = (l.lookup n).bind f := by
  induction l with
  | nil => rfl
  | cons e l ih =>
    obtain ⟨k, b⟩ := e
    obtain ⟨hk, hl⟩ := List.nodup_cons.mp hl
    have ih := ih hl
    rw [List.lookup_cons]
    by_cases hkn : n = k
    · subst hkn
      cases hf : f b with
      | none =>
        rw [lookup_eq_none_of_not_mem hk] at ih
        simpa [List.filterMap_cons, hf] using ih
      | some c => simp [hf]
    · have hb : (n == k) = false := by simpa using hkn
      cases hf : f b with
      | none => simpa [List.filterMap_cons, hf, hb] using ih
      | some c => simpa [List.filterMap_cons, hf, hb, List.lookup_cons] using ih

theorem lookup_filter_fst (l : List (σ × β)) (p : σ → Bool) (n : σ) :
    (l.filter fun e => p e.1).lookup n = if p n then l.lookup n else none := by
  induction l with
  | nil => simp
  | cons e l ih =>
    obtain ⟨k, b⟩ := e
    by_cases hkn : n = k
    · subst hkn
      cases hp : p n with
      | true => simp [hp]
      | false => simpa [List.filter_cons, hp] using ih
    · have hb : (n == k) = false := by simpa using hkn
      cases hp : p k with
      | true => simpa [List.filter_cons, hp, List.lookup_cons, hb] using ih
      | false => simpa [List.filter_cons, hp, List.lookup_cons, hb] using ih

end Lookups

/-! The property list. -/

theorem lookup_propertyList (old new : List σ) (x : Instance σ α) (o : σ) :
    (propertyList old new x).lookup o = if o ∈ old ∧ o ∉ new then x.native o else none := by
  unfold propertyList
  induction old with
  | nil => simp
  | cons k old ih =>
    by_cases hko : o = k
    · subst hko
      by_cases hnew : o ∈ new
      · simpa [List.filterMap_cons, hnew] using ih
      · cases hv : x.native o with
        | none => simpa [List.filterMap_cons, hnew, hv] using ih
        | some v => simp [hnew, hv]
    · have hb : (o == k) = false := by simpa using hko
      have hmem : o ∈ k :: old ↔ o ∈ old := by simp [hko]
      simp only [hmem]
      rw [← ih, List.filterMap_cons]
      by_cases hnew : k ∈ new
      · simp [hnew]
      · cases hv : x.native k <;> simp [hnew, List.lookup_cons, hb]

/-! The alias maps. -/

omit [DecidableEq σ] in
theorem keys_aliases (l : Layout σ) : (l.aliases.map Prod.fst).Nodup := by
  refine l.nodup.sublist ?_
  have hkeys : l.aliases.map Prod.fst =
      (l.slots.filter fun slot => slot.aliasName.isSome).map SlotDef.name := by
    unfold Layout.aliases
    induction l.slots with
    | nil => rfl
    | cons slot slots ih => cases hs : slot.aliasName <;> simp [hs, ih]
  rw [hkeys]
  exact List.filter_sublist.map _

theorem keys_chase (snapAliases composed : List (σ × σ)) :
    (chase snapAliases composed).map Prod.fst = composed.map Prod.fst := by
  unfold chase
  rw [List.map_map]
  refine List.map_congr_left fun entry _ => ?_
  simp only [Function.comp]
  split <;> rfl

/-- Every class has the alias map of its layout. -/
def PersistentClass.Computed (cls : PersistentClass σ) : Prop :=
  cls.slotAliases = cls.layout.aliases

theorem keys_composedAliases {cls : PersistentClass σ} (h : cls.Computed) (birth : Nat) :
    ((composedAliases cls birth).map Prod.fst).Nodup := by
  have hfold (snaps : List (ClassVersion σ)) (composed : List (σ × σ)) :
      (snaps.foldl (fun composed snap => chase snap.aliasMap composed) composed).map Prod.fst =
        composed.map Prod.fst := by
    induction snaps generalizing composed with
    | nil => rfl
    | cons snap snaps ih => rw [List.foldl_cons, ih, keys_chase]
  unfold composedAliases
  rw [hfold, h]
  exact keys_aliases _

/-- A redefinition stops at its own snapshot for an instance of the version before it. -/
theorem composedAliases_redefine (cls : PersistentClass σ) (l : Layout σ) :
    composedAliases (cls.redefine l) cls.versionCounter = l.aliases := by
  simp [composedAliases, PersistentClass.redefine, PersistentClass.computeSlots,
    PersistentClass.snapshot]

/-! ## §2 One migration -/

theorem lookup_recoveries {composed : List (σ × σ)} (h : (composed.map Prod.fst).Nodup)
    (plist : List (σ × Value α)) (n : σ) :
    (recoveries composed plist).lookup n =
      (composed.lookup n).bind fun o => unlessNotFound (plist.lookup o) :=
  lookup_filterMap_snd h (fun o => unlessNotFound (plist.lookup o)) n

theorem native_updateInstance {cls : PersistentClass σ} (h : cls.Computed) (x : Instance σ α)
    (plist : List (σ × Value α)) (n : σ) :
    (updateInstance cls x plist).native n =
      (if cls.overflowIndex n = none ∧ slotValue cls x n = none then
        ((composedAliases cls x.schemaVersion).lookup n).bind
          fun o => unlessNotFound (plist.lookup o)
      else none).or (x.native n) := by
  have hfilter := lookup_filter_fst
    (recoveries (composedAliases cls x.schemaVersion) plist)
    (fun n => (cls.overflowIndex n).isNone && (slotValue cls x n).isNone) n
  rw [lookup_recoveries (keys_composedAliases h x.schemaVersion)] at hfilter
  simp only [updateInstance, hfilter, Bool.and_eq_true, Option.isNone_iff_eq_none]

/-- A class whose slots are all native and that never knew overflow slots. -/
structure AllNative (cls : PersistentClass σ) : Prop where
  computed : cls.Computed
  noIndices : cls.overflowIndices = none
  small : cls.layout.slots.length ≤ nativeSlotLimit

namespace AllNative

variable {cls : PersistentClass σ}

omit [DecidableEq σ] in
theorem define {l : Layout σ} (h : l.slots.length ≤ nativeSlotLimit) :
    AllNative (PersistentClass.define l) :=
  ⟨rfl, by simp [PersistentClass.define, PersistentClass.computeSlots, h], h⟩

omit [DecidableEq σ] in
theorem redefine (hc : AllNative cls) {l : Layout σ} (h : l.slots.length ≤ nativeSlotLimit) :
    AllNative (cls.redefine l) := by
  refine ⟨rfl, ?_, h⟩
  simp [PersistentClass.redefine, PersistentClass.computeSlots, PersistentClass.snapshot, h,
    hc.noIndices]

omit [DecidableEq σ] in
theorem redefineAll (hc : AllNative cls) {ls : List (Layout σ)}
    (h : ∀ l ∈ ls, l.slots.length ≤ nativeSlotLimit) : AllNative (cls.redefineAll ls) := by
  induction ls generalizing cls with
  | nil => exact hc
  | cons l ls ih =>
    exact ih (hc.redefine (h l List.mem_cons_self)) fun l' hl => h l' (List.mem_cons_of_mem _ hl)

omit [DecidableEq σ] in
theorem nativeNames (hc : AllNative cls) : cls.layout.nativeNames = cls.layout.names :=
  if_pos hc.small

theorem overflowIndex (hc : AllNative cls) (n : σ) : cls.overflowIndex n = none := by
  simp [PersistentClass.overflowIndex, hc.noIndices]

theorem slotValue (hc : AllNative cls) (x : Instance σ α) {n : σ} (hn : n ∈ cls.layout.names) :
    slotValue cls x n = x.native n :=
  if_pos (hc.nativeNames ▸ hn)

end AllNative

/-- What a slot `o` of the old class hands to a slot aliased to it: its value, when CLOS
discards the slot and the value is not the mark. -/
def handedBy (old cls : PersistentClass σ) (x : Instance σ α) (o : σ) : Option (Value α) :=
  if o ∈ old.layout.names ∧ o ∉ cls.layout.names then unlessNotFound (x.native o) else none

theorem slotValue_migrate {old cls : PersistentClass σ} (hold : AllNative old)
    (hc : AllNative cls) (x : Instance σ α) {n : σ} (hn : n ∈ cls.layout.names) :
    slotValue cls (migrate old cls x) n =
      (if n ∈ old.layout.names then x.native n else none).or
        (((composedAliases cls x.schemaVersion).lookup n).bind (handedBy old cls x)) := by
  rw [hc.slotValue _ hn]
  unfold migrate
  rw [native_updateInstance hc.computed, hold.nativeNames, hc.nativeNames, hc.overflowIndex,
    hc.slotValue _ hn]
  have hhanded :
    (fun o => unlessNotFound ((propertyList old.layout.names cls.layout.names x).lookup o)) =
      handedBy old cls x := by
    funext o
    rw [lookup_propertyList, handedBy]
    split <;> rfl
  simp only [hhanded, keepNative, hn, and_true, true_and]
  cases (if n ∈ old.layout.names then x.native n else none) <;> simp

/-! ## §3 Histories -/

/-- The birth slot the one migration fills `n` from when `n` has no value of its own: a
dropped slot that the composed map leads to. -/
def recalled (birth cls : PersistentClass σ) (n : σ) : Option σ :=
  ((composedAliases cls birth.versionCounter).lookup n).bind fun o =>
    if o ∈ birth.layout.names ∧ o ∉ cls.layout.names then some o else none

/-- The birth slot is the slot itself or the one recalled for it. -/
def Source (birth cls : PersistentClass σ) (i c : σ) : Prop :=
  (i ∈ birth.layout.names ∧ c = i) ∨ recalled birth cls i = some c

/-- The birth slots from which the redefinition of `cls` to `l` fills `n`: the one `n` was
filled from before, or a source of the slot that `n` renames. -/
def Drawn (birth cls : PersistentClass σ) (l : Layout σ) (n c : σ) : Prop :=
  (n ∈ cls.layout.names ∧ recalled birth cls n = some c) ∨
    ∃ i, l.aliases.lookup n = some i ∧ i ∈ cls.layout.names ∧ i ∉ l.names ∧ Source birth cls i c

/-- The redefinition of `cls` to `l` keeps in step with the composed map. -/
structure HandsOn (birth cls : PersistentClass σ) (l : Layout σ) : Prop where
  no_return : ∀ n ∈ l.names, n ∈ birth.layout.names → n ∈ cls.layout.names
  drawn_iff : ∀ n ∈ l.names, ∀ c, Drawn birth cls l n c ↔ recalled birth (cls.redefine l) n = some c

/-- Every instance of the class reads the same after one migration to the last of the
redefinitions and after a migration at each of them. -/
def PathIndependent (α : Type) (birth : PersistentClass σ) (ls : List (Layout σ)) : Prop :=
  ∀ x : Instance σ α, x.schemaVersion = birth.versionCounter →
    ∀ n ∈ (birth.redefineAll ls).layout.names,
      slotValue (birth.redefineAll ls) (migrateOnce birth x ls) n =
        slotValue (birth.redefineAll ls) (migrateEach birth x ls) n

/-- What the one migration reads in slot `n`. -/
def onceValue (birth cls : PersistentClass σ) (x : Instance σ α) (n : σ) : Option (Value α) :=
  (if n ∈ birth.layout.names then x.native n else none).or
    ((recalled birth cls n).bind fun o => unlessNotFound (x.native o))

/-- What a redefinition of `cls` to `l` makes of slot values `v`. -/
def hopValue (cls : PersistentClass σ) (l : Layout σ) (v : σ → Option (Value α)) (n : σ) :
    Option (Value α) :=
  (if n ∈ cls.layout.names then v n else none).or
    ((l.aliases.lookup n).bind fun i =>
      if i ∈ cls.layout.names ∧ i ∉ l.names then unlessNotFound (v i) else none)

section Steps

variable {birth cls : PersistentClass σ}

theorem slotValue_migrateOnce (hb : AllNative birth) {ls : List (Layout σ)}
    (hc : AllNative (birth.redefineAll ls)) {x : Instance σ α}
    (hx : x.schemaVersion = birth.versionCounter) {n : σ}
    (hn : n ∈ (birth.redefineAll ls).layout.names) :
    slotValue (birth.redefineAll ls) (migrateOnce birth x ls) n =
      onceValue birth (birth.redefineAll ls) x n := by
  unfold migrateOnce onceValue recalled
  rw [slotValue_migrate hb hc x hn, hx, Option.bind_assoc]
  congr 2
  funext o
  unfold handedBy
  split <;> rfl

theorem slotValue_hop (hc : AllNative cls) {l : Layout σ} (hl : AllNative (cls.redefine l))
    {y : Instance σ α} (hy : y.schemaVersion = cls.versionCounter) {n : σ} (hn : n ∈ l.names) :
    slotValue (cls.redefine l) (migrate cls (cls.redefine l) y) n =
      hopValue cls l (slotValue cls y) n := by
  have hlayout : (cls.redefine l).layout = l := rfl
  rw [slotValue_migrate hc hl y (by rwa [hlayout]), hy, composedAliases_redefine]
  unfold hopValue
  congr 1
  · split
    · rename_i hmem
      rw [hc.slotValue _ hmem]
    · rfl
  · congr 1
    funext i
    unfold handedBy
    rw [hlayout]
    split
    · rename_i hmem
      rw [hc.slotValue _ hmem.1]
    · rfl

omit [DecidableEq σ] in
theorem redefineAll_concat (cls : PersistentClass σ) (ls : List (Layout σ)) (l : Layout σ) :
    cls.redefineAll (ls ++ [l]) = (cls.redefineAll ls).redefine l := by
  simp [PersistentClass.redefineAll]

theorem migrateEach_concat (x : Instance σ α) (ls : List (Layout σ)) (l : Layout σ) :
    migrateEach cls x (ls ++ [l]) =
      migrate (cls.redefineAll ls) ((cls.redefineAll ls).redefine l) (migrateEach cls x ls) := by
  induction ls generalizing cls x with
  | nil => rfl
  | cons l' ls ih => exact ih _

theorem schemaVersion_migrateEach {x : Instance σ α} (hx : x.schemaVersion = cls.versionCounter)
    (ls : List (Layout σ)) :
    (migrateEach cls x ls).schemaVersion = (cls.redefineAll ls).versionCounter := by
  induction ls generalizing cls x with
  | nil => exact hx
  | cons l ls ih => exact ih rfl

theorem recalled_spec {n c : σ} (h : recalled birth cls n = some c) :
    c ∈ birth.layout.names ∧ c ∉ cls.layout.names := by
  unfold recalled at h
  obtain ⟨o, -, ho⟩ := Option.bind_eq_some_iff.mp h
  split at ho
  · rename_i hmem
    cases ho
    exact hmem
  · cases ho

@[simp] theorem unlessNotFound_idem (v : Option (Value α)) :
    unlessNotFound (unlessNotFound v) = unlessNotFound v := by
  rcases v with _ | _ | _ | a <;> rfl

/-- A slot without a value of its own reads what the slot recalled for it hands over. -/
theorem onceValue_of_unbound {x : Instance σ α} {n : σ}
    (h : n ∈ birth.layout.names → x.native n = none) :
    onceValue birth cls x n = (recalled birth cls n).bind fun o => unlessNotFound (x.native o) := by
  unfold onceValue
  split
  · rename_i hmem
    rw [h hmem, Option.none_or]
  · rw [Option.none_or]

theorem onceValue_of_bound {x : Instance σ α} {n : σ} {v : Value α}
    (hn : n ∈ birth.layout.names) (h : x.native n = some v) : onceValue birth cls x n = some v := by
  simp [onceValue, hn, h]

/-- A renamed slot hands over the value of its only source. -/
theorem renamed_of_source {x : Instance σ α} {i c : σ} (hi : i ∈ cls.layout.names)
    (hc : Source birth cls i c) (huniq : ∀ c', Source birth cls i c' → c' = c) :
    unlessNotFound (onceValue birth cls x i) = unlessNotFound (x.native c) := by
  unfold onceValue
  cases hr : recalled birth cls i with
  | none =>
    obtain ⟨hib, rfl⟩ | hrc := hc
    · simp [hib]
    · rw [hr] at hrc
      cases hrc
  | some c' =>
    have hcc := huniq c' (Or.inr hr)
    have hib : i ∉ birth.layout.names := by
      intro hib
      have hci := huniq i (Or.inl ⟨hib, rfl⟩)
      exact (recalled_spec hr).2 (hcc ▸ hci ▸ hi)
    simp [hib, hcc]

theorem onceValue_of_no_source {x : Instance σ α} {i : σ} (h : ∀ c, ¬ Source birth cls i c) :
    onceValue birth cls x i = none := by
  have hib : i ∉ birth.layout.names := fun hib => h i (Or.inl ⟨hib, rfl⟩)
  rw [onceValue_of_unbound fun hmem => absurd hmem hib]
  cases hr : recalled birth cls i with
  | none => rfl
  | some c => exact absurd (Or.inr hr) (h c)

section Hop

variable {l : Layout σ} {x : Instance σ α} {n : σ}

/-- What the hop reads under the name `n`. -/
def keptPart (birth cls : PersistentClass σ) (x : Instance σ α) (n : σ) : Option (Value α) :=
  if n ∈ cls.layout.names then onceValue birth cls x n else none

/-- What the hop reads through the alias of `n`. -/
def renamedPart (birth cls : PersistentClass σ) (l : Layout σ) (x : Instance σ α) (n : σ) :
    Option (Value α) :=
  (l.aliases.lookup n).bind fun i =>
    if i ∈ cls.layout.names ∧ i ∉ l.names then unlessNotFound (onceValue birth cls x i) else none

theorem keptPart_of_drawn (hown : n ∈ birth.layout.names → x.native n = none) {c : σ}
    (huniq : ∀ c', Drawn birth cls l n c' → c' = c) :
    keptPart birth cls x n = none ∨ keptPart birth cls x n = unlessNotFound (x.native c) := by
  unfold keptPart
  split
  · rename_i hnc
    rw [onceValue_of_unbound hown]
    cases hr : recalled birth cls n with
    | none => exact Or.inl rfl
    | some c' =>
      right
      rw [huniq c' (Or.inl ⟨hnc, hr⟩)]
      rfl
  · exact Or.inl rfl

theorem renamedPart_of_drawn {c : σ} (huniq : ∀ c', Drawn birth cls l n c' → c' = c) :
    renamedPart birth cls l x n = none ∨
      renamedPart birth cls l x n = unlessNotFound (x.native c) := by
  unfold renamedPart
  cases hi : l.aliases.lookup n with
  | none => exact Or.inl rfl
  | some i =>
    rw [Option.bind_some]
    split
    · rename_i hmem
      have hdrawn (c' : σ) (hc' : Source birth cls i c') : c' = c :=
        huniq c' (Or.inr ⟨i, hi, hmem.1, hmem.2, hc'⟩)
      by_cases hs : ∃ c', Source birth cls i c'
      · obtain ⟨c', hs⟩ := hs
        right
        have hcc := hdrawn c' hs
        exact renamed_of_source hmem.1 (hcc ▸ hs) hdrawn
      · left
        rw [onceValue_of_no_source (not_exists.mp hs)]
        rfl
    · exact Or.inl rfl

theorem HandsOn.hopValue_eq (h : HandsOn birth cls l) (x : Instance σ α) (hn : n ∈ l.names) :
    onceValue birth (cls.redefine l) x n = hopValue cls l (onceValue birth cls x) n := by
  change _ = (keptPart birth cls x n).or (renamedPart birth cls l x n)
  by_cases hown : n ∈ birth.layout.names → x.native n = none
  · rw [onceValue_of_unbound hown]
    cases hr : recalled birth (cls.redefine l) n with
    | none =>
      -- nothing is drawn: both parts are empty
      have hnone (c : σ) : ¬ Drawn birth cls l n c := by
        simp [h.drawn_iff n hn c, hr]
      have hk : keptPart birth cls x n = none := by
        unfold keptPart
        split
        · rename_i hnc
          rw [onceValue_of_unbound hown]
          cases hc : recalled birth cls n with
          | none => rfl
          | some c => exact absurd (Or.inl ⟨hnc, hc⟩) (hnone c)
        · rfl
      have hren : renamedPart birth cls l x n = none := by
        unfold renamedPart
        cases hi : l.aliases.lookup n with
        | none => rfl
        | some i =>
          rw [Option.bind_some]
          split
          · rename_i hmem
            rw [onceValue_of_no_source fun c hs => hnone c (Or.inr ⟨i, hi, hmem.1, hmem.2, hs⟩)]
            rfl
          · rfl
      rw [hk, hren]
      rfl
    | some c =>
      have huniq (c' : σ) (hc' : Drawn birth cls l n c') : c' = c := by
        have hc'' := (h.drawn_iff n hn c').mp hc'
        rw [hr] at hc''
        exact (Option.some.inj hc'').symm
      rcases (h.drawn_iff n hn c).mpr hr with ⟨hnc, hc⟩ | ⟨i, hi, hic, hil, hs⟩
      · have hk : keptPart birth cls x n = unlessNotFound (x.native c) := by
          rw [keptPart, if_pos hnc, onceValue_of_unbound hown, hc, Option.bind_some]
        rcases renamedPart_of_drawn (x := x) huniq with hren | hren <;> simp [hk, hren]
      · have hren : renamedPart birth cls l x n = unlessNotFound (x.native c) := by
          rw [renamedPart, hi, Option.bind_some, if_pos ⟨hic, hil⟩]
          exact renamed_of_source hic hs fun c' hc' => huniq c' (Or.inr ⟨i, hi, hic, hil, hc'⟩)
        rcases keptPart_of_drawn hown huniq with hk | hk <;> simp [hk, hren]
  · push Not at hown
    obtain ⟨hnb, hne⟩ := hown
    obtain ⟨v, hv⟩ := Option.ne_none_iff_exists'.mp hne
    rw [onceValue_of_bound hnb hv, keptPart, if_pos (h.no_return n hn hnb),
      onceValue_of_bound hnb hv, Option.some_or]

end Hop

/-! A redefinition that does not keep in step shows in an instance with one bound slot. -/

/-- The instance whose only bound slot is `c`. -/
def onlySlot (birth : PersistentClass σ) (c : σ) (v : Value α) : Instance σ α :=
  { native := fun m => if m = c then some v else none, schemaVersion := birth.versionCounter }

theorem isSome_unlessNotFound_onlySlot (c o : σ) :
    (unlessNotFound ((onlySlot birth c (.unbound : Value α)).native o)).isSome = true ↔ o = c := by
  unfold onlySlot
  by_cases hoc : o = c <;> simp [hoc, unlessNotFound]

theorem isSome_onceValue_onlySlot (c i : σ) :
    (onceValue birth cls (onlySlot birth c (.unbound : Value α)) i).isSome = true ↔
      Source birth cls i c := by
  unfold onceValue Source
  rw [Option.isSome_or, Bool.or_eq_true]
  refine or_congr ?_ ?_
  · by_cases hi : i ∈ birth.layout.names <;> by_cases hic : i = c <;>
      simp [hi, hic, onlySlot, Ne.symm]
  · cases recalled birth cls i with
    | none => simp
    | some o =>
      rw [Option.bind_some, isSome_unlessNotFound_onlySlot, Option.some.injEq]

theorem unlessNotFound_eq_self {v : Option (Value α)} (h : v ≠ some .notFound) :
    unlessNotFound v = v := by
  rcases v with _ | _ | _ | a
  · rfl
  · rfl
  · exact absurd rfl h
  · rfl

theorem unlessNotFound_ne (v : Option (Value α)) : unlessNotFound v ≠ some .notFound := by
  rcases v with _ | _ | _ | a <;> simp [unlessNotFound]

theorem onceValue_onlySlot_ne (c i : σ) :
    onceValue birth cls (onlySlot birth c (.unbound : Value α)) i ≠ some .notFound := by
  intro h
  rcases Option.or_eq_some_iff.mp h with h | ⟨-, h⟩
  · by_cases hi : i ∈ birth.layout.names <;> by_cases hic : i = c <;> simp [hi, hic, onlySlot] at h
  · obtain ⟨o, -, ho⟩ := Option.bind_eq_some_iff.mp h
    exact unlessNotFound_ne _ ho

theorem handsOn_of_hopValue_eq {l : Layout σ}
    (h : ∀ x : Instance σ α, x.schemaVersion = birth.versionCounter → ∀ n ∈ l.names,
      onceValue birth (cls.redefine l) x n = hopValue cls l (onceValue birth cls x) n) :
    HandsOn birth cls l := by
  have hreturn (n : σ) (hn : n ∈ l.names) (hb : n ∈ birth.layout.names) : n ∈ cls.layout.names := by
    by_contra hnc
    have heq := h (onlySlot birth n .notFound) rfl n hn
    rw [onceValue_of_bound hb (v := .notFound) (by simp [onlySlot]), hopValue, if_neg hnc,
      Option.none_or] at heq
    obtain ⟨i, -, hi⟩ := Option.bind_eq_some_iff.mp heq.symm
    split at hi
    · exact unlessNotFound_ne _ hi
    · cases hi
  refine ⟨hreturn, fun n hn c => ?_⟩
  have hlayout : (cls.redefine l).layout = l := rfl
  have heq := congrArg Option.isSome (h (onlySlot birth c .unbound) rfl n hn)
  rw [Bool.eq_iff_iff, isSome_onceValue_onlySlot] at heq
  have hhop : (hopValue cls l (onceValue birth cls (onlySlot birth c (.unbound : Value α)))
    n).isSome =
      true ↔ (n ∈ cls.layout.names ∧ Source birth cls n c) ∨
        ∃ i, l.aliases.lookup n = some i ∧ i ∈ cls.layout.names ∧ i ∉ l.names ∧
          Source birth cls i c := by
    unfold hopValue
    rw [Option.isSome_or, Bool.or_eq_true]
    refine or_congr ?_ ?_
    · by_cases hnc : n ∈ cls.layout.names <;> simp [hnc, isSome_onceValue_onlySlot]
    · cases l.aliases.lookup n with
      | none => simp
      | some i =>
        by_cases hi : i ∈ cls.layout.names ∧ i ∉ l.names
        · simp [hi, unlessNotFound_eq_self (onceValue_onlySlot_ne c i), isSome_onceValue_onlySlot]
        · simp only [Option.bind_some, if_neg hi, Option.isSome_none, Bool.false_eq_true, false_iff]
          rintro ⟨i', hi', hic, hil, -⟩
          cases hi'
          exact hi ⟨hic, hil⟩
  rw [hhop] at heq
  by_cases hcn : c = n
  · -- the slot's own name is recalled for no slot of the new layout
    subst hcn
    constructor
    · rintro (⟨hnc, hr⟩ | ⟨i, -, hic, hil, ⟨-, rfl⟩ | hr⟩)
      · exact absurd hnc (recalled_spec hr).2
      · exact absurd hn hil
      · exact absurd (hreturn c hn (recalled_spec hr).1) (recalled_spec hr).2
    · intro hr
      exact absurd hn (recalled_spec hr).2
  · have hsource (d : PersistentClass σ) : Source birth d n c ↔ recalled birth d n = some c := by
      simp [Source, hcn]
    rw [hsource, hsource] at heq
    exact heq.symm

theorem hopValue_congr {l : Layout σ} {v w : σ → Option (Value α)}
    (h : ∀ n ∈ cls.layout.names, v n = w n) (n : σ) : hopValue cls l v n = hopValue cls l w n := by
  unfold hopValue
  congr 1
  · split
    · rename_i hn
      exact h n hn
    · rfl
  · congr 1
    funext i
    split
    · rename_i hi
      rw [h i hi.1]
    · rfl

end Steps

theorem pathIndependent_iff_onceValue {birth : PersistentClass σ} (hb : AllNative birth)
    {ls : List (Layout σ)} (hc : AllNative (birth.redefineAll ls)) :
    PathIndependent α birth ls ↔
      ∀ x : Instance σ α, x.schemaVersion = birth.versionCounter →
        ∀ n ∈ (birth.redefineAll ls).layout.names,
          onceValue birth (birth.redefineAll ls) x n =
            slotValue (birth.redefineAll ls) (migrateEach birth x ls) n := by
  refine forall₄_congr fun x hx n hn => ?_
  rw [slotValue_migrateOnce hb hc hx hn]

/-- The step lemma: given path independence up to `done`, one more redefinition keeps it
exactly when it keeps in step with the composed map. -/
theorem pathIndependent_concat_iff {birth : PersistentClass σ} (hb : AllNative birth)
    {done : List (Layout σ)} {l : Layout σ} (hc : AllNative (birth.redefineAll done))
    (hl : AllNative ((birth.redefineAll done).redefine l))
    (hdone : PathIndependent α birth done) :
    PathIndependent α birth (done ++ [l]) ↔ HandsOn birth (birth.redefineAll done) l := by
  have hcat := redefineAll_concat birth done l
  rw [pathIndependent_iff_onceValue hb hc] at hdone
  rw [pathIndependent_iff_onceValue hb (hcat ▸ hl)]
  simp only [hcat, migrateEach_concat]
  have hhop (x : Instance σ α) (hx : x.schemaVersion = birth.versionCounter) (n : σ)
      (hn : n ∈ l.names) :
      slotValue ((birth.redefineAll done).redefine l)
          (migrate (birth.redefineAll done) ((birth.redefineAll done).redefine l)
            (migrateEach birth x done)) n =
        hopValue (birth.redefineAll done) l (onceValue birth (birth.redefineAll done) x) n := by
    rw [slotValue_hop hc hl (schemaVersion_migrateEach hx done) hn]
    exact hopValue_congr (fun m hm => (hdone x hx m hm).symm) n
  constructor
  · intro h
    refine handsOn_of_hopValue_eq (α := α) fun x hx n hn => ?_
    rw [h x hx n hn, hhop x hx n hn]
  · intro h x hx n hn
    rw [hhop x hx n hn]
    exact h.hopValue_eq x hn

theorem pathIndependent_nil {birth : PersistentClass σ} (hb : AllNative birth) :
    PathIndependent α birth [] := by
  refine (pathIndependent_iff_onceValue hb (show AllNative (birth.redefineAll []) from hb)).mpr ?_
  intro x _ n hn
  have hn : n ∈ birth.layout.names := hn
  have hr : recalled birth birth n = none := by
    cases h : recalled birth birth n with
    | none => rfl
    | some c => exact absurd (recalled_spec h).1 (recalled_spec h).2
  change onceValue birth birth x n = slotValue birth x n
  rw [hb.slotValue x hn, onceValue, hr, if_pos hn, Option.bind_none, Option.or_none]

/-- In every history without overflow slots, an instance born at any version reads the
same at every later version, however it got there, exactly when each redefinition since
then draws every slot from the birth slot the composed alias map leads to. -/
theorem path_independent_iff (α : Type) (first : Layout σ) (pre post : List (Layout σ))
    (hsmall : ∀ l ∈ first :: (pre ++ post), l.slots.length ≤ nativeSlotLimit) :
    (∀ done, done <+: post →
        PathIndependent α ((PersistentClass.define first).redefineAll pre) done) ↔
      ∀ done l, done ++ [l] <+: post →
        HandsOn ((PersistentClass.define first).redefineAll pre)
          (((PersistentClass.define first).redefineAll pre).redefineAll done) l := by
  have hb : AllNative ((PersistentClass.define first).redefineAll pre) :=
    (AllNative.define (hsmall first List.mem_cons_self)).redefineAll fun l hl =>
      hsmall l (List.mem_cons_of_mem _ (List.mem_append_left _ hl))
  have hpost (l : Layout σ) (hl : l ∈ post) : l.slots.length ≤ nativeSlotLimit :=
    hsmall l (List.mem_cons_of_mem _ (List.mem_append_right _ hl))
  have hstep (done : List (Layout σ)) (l : Layout σ) (hpre : done ++ [l] <+: post) :=
    pathIndependent_concat_iff (α := α) (l := l) hb
      (hb.redefineAll fun l' hl' => hpost l' (hpre.subset (List.mem_append_left _ hl')))
      ((hb.redefineAll fun l' hl' => hpost l' (hpre.subset (List.mem_append_left _ hl'))).redefine
        (hpost l (hpre.subset (by simp))))
  constructor
  · intro h done l hpre
    exact (hstep done l hpre (h done ((List.prefix_append _ _).trans hpre))).mp (h _ hpre)
  · intro h done
    induction done using List.reverseRecOn with
    | nil => exact fun _ => pathIndependent_nil hb
    | append_singleton done l ih =>
      intro hpre
      exact (hstep done l hpre (ih ((List.prefix_append _ _).trans hpre))).mpr (h done l hpre)

/-! A slot renamed once and left untouched afterwards. -/

def sensorV0 : Layout String := ⟨[{ name := "a" }], by decide⟩

def sensorV1 : Layout String := ⟨[{ name := "b", aliasName := some "a" }], by decide⟩

def sensorV2 : Layout String := ⟨[{ name := "b" }], by decide⟩

theorem path_independent_iff_renamed :
    (∀ done, done <+: [sensorV1, sensorV2] →
      PathIndependent Nat (PersistentClass.define sensorV0) done) ↔
      ∀ done l, done ++ [l] <+: [sensorV1, sensorV2] →
        HandsOn (PersistentClass.define sensorV0)
          ((PersistentClass.define sensorV0).redefineAll done) l :=
  path_independent_iff Nat sensorV0 [] [sensorV1, sensorV2] (by decide)

/-- The single migration to the third version forgets the rename of the second. -/
theorem rename_forgotten :
    ¬ PathIndependent Nat (PersistentClass.define sensorV0) [sensorV1, sensorV2] := by
  intro h
  have hb := h { native := fun n => if n = "a" then some (.other 5) else none, schemaVersion := 0 }
    rfl "b" (by decide)
  revert hb
  decide

end Fol.Persistence
