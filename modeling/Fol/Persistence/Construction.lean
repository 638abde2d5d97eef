/-
Fol.Persistence.Construction — the three ways to construct an instance of a `defclass`:
`make-instance`, `%make-persistent`, and the constructor `emit-defclass` writes when
`*optimize-constructors*` is on.

`make-instance` runs initforms, matches initargs by their names and, for the overflow slots of a
wide class, by the slots' names. `%make-persistent` goes by the slots' names alone and runs no
initform. The emitted constructor has one keyword parameter for each slot of the form, `nil` when it
is not given.
-/
import Fol.Persistence.Overflow

namespace Fol.Persistence.Construction

variable {σ κ α : Type}

/-! ## §1 Classes -/

/-- The symbols: `(intern (string name) :keyword)`, `:allow-other-keys` and the object `nil`. -/
structure Symbols (σ κ α : Type) where
  keyword : σ → κ
  allowOtherKeys : κ
  nil : α

/-- A user slot of the finalized class: the initargs are those of all its definitions, the initform
the value that it evaluates to. -/
structure EffectiveSlot (σ κ α : Type) where
  name : σ
  aliasName : Option σ
  initargs : List κ
  initform : Option (Value α)

/-- A class that `emit-defclass` defines: all its slots, inherited ones included, and the slots of
the form with the initarg each has there. `before` is the class object before `compute-slots`. -/
structure DefinedClass (σ κ α : Type) where
  slots : List (EffectiveSlot σ κ α)
  nodup : (slots.map EffectiveSlot.name).Nodup
  slotInfos : List (σ × κ)
  slotInfos_nodup : (slotInfos.map Prod.fst).Nodup
  slotInfos_slots : ∀ info ∈ slotInfos, ∃ s ∈ slots, s.name = info.1 ∧ info.2 ∈ s.initargs
  before : PersistentClass σ

namespace DefinedClass

def layout (c : DefinedClass σ κ α) : Layout σ where
  slots := c.slots.map fun s => ⟨s.name, s.aliasName⟩
  nodup := by simpa [Function.comp_def] using c.nodup

/-- The class, finalized. -/
def cls (c : DefinedClass σ κ α) : PersistentClass σ := c.before.computeSlots c.layout

/-- More than `+native-slot-limit+` slots. -/
def Wide (c : DefinedClass σ κ α) : Prop := c.cls.slotCount > nativeSlotLimit

instance (c : DefinedClass σ κ α) : Decidable c.Wide := inferInstanceAs (Decidable (_ > _))

/-- `class-slots`, the internal slots apart. -/
def classSlots (c : DefinedClass σ κ α) : List (EffectiveSlot σ κ α) :=
  if c.Wide then c.slots.take nativeSlotLimit else c.slots

/-- The slots of the form. -/
def ownNames (c : DefinedClass σ κ α) : List σ := c.slotInfos.map Prod.fst

end DefinedClass

section

variable [DecidableEq σ] [DecidableEq κ] [DecidableEq α] (K : Symbols σ κ α)

/-! ## §2 Initargs -/

/-- A property list of initargs. -/
abbrev Initargs (κ α : Type) := List (κ × Value α)

/-- `(getf initargs key :not-found)`. -/
def getf (initargs : Initargs κ α) (key : κ) : Value α := (initargs.lookup key).getD .notFound

/-- `(setf (getf initargs key) value)`. -/
def putf (initargs : Initargs κ α) (key : κ) (value : Value α) : Initargs κ α :=
  match initargs.findIdx? fun p => p.1 = key with
  | some i => initargs.set i (key, value)
  | none => (key, value) :: initargs

/-- The initarg of a slot's alias as one of the slot. -/
def resolveAlias (initargs : Initargs κ α) (entry : σ × σ) : Initargs κ α :=
  if getf initargs (K.keyword entry.1) = .notFound ∧ getf initargs (K.keyword entry.2) ≠
  .notFound then
    putf initargs (K.keyword entry.1) (getf initargs (K.keyword entry.2))
  else initargs

/-- The `:around` method of `initialize-instance`. Without aliases it passes the initargs on. -/
def resolveAliases (c : DefinedClass σ κ α) (initargs : Initargs κ α) : Initargs κ α :=
  c.cls.slotAliases.foldl (resolveAlias K) initargs

/-- `%keyword-to-slot`, the newest entry of a key first: every slot's name, and its alias unless it
is there. -/
def keywordToSlot (c : DefinedClass σ κ α) : List (κ × σ) :=
  c.slots.foldl (fun table s =>
    let table := (K.keyword s.name, s.name) :: table
    match s.aliasName with
    | some a => if (table.lookup (K.keyword a)).isSome then table
        else (K.keyword a, s.name) :: table
    | none => table) []

/-- `slot-name-from-keyword`; its cache holds an entry of the table. -/
def slotNameFromKeyword (c : DefinedClass σ κ α) (key : κ) : Option σ :=
  (keywordToSlot K c).lookup key

/-! ## §3 Instances -/

/-- `allocate-instance`. -/
def allocate : Instance σ α := { native := fun _ => none, schemaVersion := 0 }

/-- `(setf slot-value)` of a native slot during initialization. -/
def setNative (x : Instance σ α) (name : σ) (value : Value α) : Instance σ α :=
  { x with native := fun n => if n = name then some value else x.native n }

/-- The first initarg of the slot, else its initform. -/
def initialValue (initargs : Initargs κ α) (s : EffectiveSlot σ κ α) : Option (Value α) :=
  match initargs.find? fun p => p.1 ∈ s.initargs with
  | some p => some p.2
  | none => s.initform

/-- `shared-initialize` on the slots that CLOS knows. -/
def sharedInitialize (c : DefinedClass σ κ α) (initargs : Initargs κ α) (x : Instance σ α) :
    Instance σ α :=
  c.classSlots.foldl (fun x s =>
    match initialValue initargs s with
    | some value => setNative x s.name value
    | none => x) x

/-- The initarg of an overflow slot: that of its name, else of its alias. -/
def overflowInitarg (c : DefinedClass σ κ α) (initargs : Initargs κ α) (name : σ) : Value α :=
  match getf initargs (K.keyword name), c.cls.slotAliases.lookup name with
  | .notFound, some a => getf initargs (K.keyword a)
  | value, _ => value

/-- One slot of the array. -/
def fillOverflow (initarg : σ → Value α) (arr : List (Value α)) (entry : σ × Nat) :
    List (Value α) :=
  match initarg entry.1 with
  | .notFound => arr
  | value => arr.set entry.2 value

/-- The `:after` method of `initialize-instance`. -/
def populateOverflow (c : DefinedClass σ κ α) (initargs : Initargs κ α) (x : Instance σ α) :
    Instance σ α :=
  let x := if c.Wide then
      { x with persistentVector := some ((c.cls.overflowIndices.getD []).foldl
          (fillOverflow (overflowInitarg K c initargs))
          (List.replicate (c.cls.slotCount - nativeSlotLimit) .unbound)) }
    else x
  { x with schemaVersion := c.cls.versionCounter }

/-- `make-instance`. The methods have `&allow-other-keys`, so it accepts every property list. -/
def makeInstance (c : DefinedClass σ κ α) (initargs : Initargs κ α) : Instance σ α :=
  let initargs := resolveAliases K c initargs
  populateOverflow K c initargs (sharedInitialize c initargs allocate)

/-- `%make-persistent`. -/
def makePersistent (c : DefinedClass σ κ α) (initargs : Initargs κ α) : Instance σ α :=
  if c.Wide then makeInstance K c initargs
  else initargs.foldl (fun x p =>
      match slotNameFromKeyword K c p.1 with
      | some name => setNative x name p.2
      | none => x)
    { (allocate : Instance σ α) with schemaVersion := c.cls.versionCounter }

inductive ConstructorError where
  | unknownKeyArgument
deriving DecidableEq

/-- The keyword parameters accept the arguments. -/
def Accepted (c : DefinedClass σ κ α) (initargs : Initargs κ α) : Prop :=
  (∀ p ∈ initargs, p.1 ∈ c.ownNames.map K.keyword ∨ p.1 = K.allowOtherKeys) ∨
    ∃ value ∈ initargs.lookup K.allowOtherKeys, value ≠ .other K.nil

instance (c : DefinedClass σ κ α) (initargs : Initargs κ α) : Decidable (Accepted K c initargs) :=
  inferInstanceAs (Decidable (_ ∨ _))

/-- The keyword parameter of a slot. -/
def parameter (initargs : Initargs κ α) (name : σ) : Value α :=
  (initargs.lookup (K.keyword name)).getD (.other K.nil)

/-- What the constructor of a wide class passes to `make-instance`. -/
def passedOn (c : DefinedClass σ κ α) (initargs : Initargs κ α) : Initargs κ α :=
  c.slotInfos.map fun info => (info.2, parameter K initargs info.1)

/-- The constructor emitted when `*optimize-constructors*` is on. -/
def optimizedConstructor (c : DefinedClass σ κ α) (initargs : Initargs κ α) :
    Except ConstructorError (Instance σ α) :=
  if Accepted K c initargs then
    if c.Wide then .ok (makeInstance K c (passedOn K c initargs))
    else .ok (c.slotInfos.foldl (fun x info => setNative x info.1 (parameter K initargs info.1))
      { (allocate : Instance σ α) with schemaVersion := c.cls.versionCounter })
  else .error .unknownKeyArgument

/-! ## §4 Reads -/

variable {K} {c : DefinedClass σ κ α} {initargs : Initargs κ α}

omit [DecidableEq σ] [DecidableEq κ] [DecidableEq α] in
theorem nativeNames_eq : c.cls.layout.nativeNames = c.classSlots.map EffectiveSlot.name := by
  have hlen : c.cls.layout.slots.length = c.slots.length := by
    simp [DefinedClass.cls, PersistentClass.computeSlots, DefinedClass.layout]
  have hcount : c.cls.slotCount = c.slots.length := by
    simp [DefinedClass.cls, PersistentClass.computeSlots, DefinedClass.layout]
  have hnames : c.cls.layout.names = c.slots.map EffectiveSlot.name := by
    simp [DefinedClass.cls, PersistentClass.computeSlots, DefinedClass.layout, Layout.names,
      Function.comp_def]
  rw [Layout.nativeNames, hlen, hnames, DefinedClass.classSlots]
  by_cases hwide : c.Wide
  · have hlt : ¬ c.slots.length ≤ nativeSlotLimit := by
      rw [DefinedClass.Wide, hcount] at hwide
      omega
    rw [if_neg hlt, if_pos hwide, List.map_take]
  · have hle : c.slots.length ≤ nativeSlotLimit := by
      rw [DefinedClass.Wide, hcount] at hwide
      omega
    rw [if_pos hle, if_neg hwide]

omit [DecidableEq κ] [DecidableEq α] in
/-- A fold of writes to native slots: the last write to the name. -/
theorem native_foldl {β : Type} {f : Instance σ α → β → Instance σ α} {w : β → Option (σ × Value α)}
    (hf : ∀ x b, f x b = match w b with | some e => setNative x e.1 e.2 | none => x)
    (bs : List β) (x : Instance σ α) (name : σ) :
    (bs.foldl f x).native name = ((bs.reverse.filterMap w).lookup name).or (x.native name) := by
  induction bs using List.reverseRecOn with
  | nil => rfl
  | append_singleton bs b ih =>
    rw [List.foldl_append, List.reverse_append, List.reverse_singleton, List.singleton_append,
      List.filterMap_cons, List.foldl_cons, List.foldl_nil, hf]
    cases w b with
    | none => simpa using ih
    | some e =>
      rw [List.lookup_cons]
      by_cases hname : name = e.1
      · simp [setNative, hname]
      · have hset : ∀ y : Instance σ α, (setNative y e.1 e.2).native name = y.native name :=
          fun y =>
          if_neg hname
        simp only [hset, ih, beq_eq_false_iff_ne.mpr hname]

omit [DecidableEq κ] [DecidableEq α] in
/-- The values at distinct names. -/
theorem lookup_reverse_filterMap {β : Type} (name : β → σ) (value : β → Option (Value α))
    {bs : List β} (hnodup : (bs.map name).Nodup) {b : β} (hb : b ∈ bs) :
    (bs.reverse.filterMap fun b => (value b).map (name b, ·)).lookup (name b) = value b := by
  have hrev : (bs.reverse.map name).Nodup := by
    rw [List.map_reverse]
    exact List.nodup_reverse.mpr hnodup
  have hmem : b ∈ bs.reverse := List.mem_reverse.mpr hb
  generalize bs.reverse = cs at hrev hmem
  clear hnodup hb
  induction cs with
  | nil => cases hmem
  | cons d cs ih =>
    rw [List.map_cons, List.nodup_cons] at hrev
    rw [List.filterMap_cons]
    rcases List.mem_cons.mp hmem with rfl | hmem'
    · cases hvalue : value b with
      | none =>
        refine lookup_eq_none_of_not_mem fun hin => hrev.1 ?_
        obtain ⟨e, he, hname⟩ := List.mem_map.mp hin
        obtain ⟨d, hd, hmap⟩ := List.mem_filterMap.mp he
        obtain ⟨v, -, rfl⟩ := Option.map_eq_some_iff.mp hmap
        exact List.mem_map.mpr ⟨d, hd, hname⟩
      | some v => simp
    · have hne : name b ≠ name d := fun heq => hrev.1 (heq ▸ List.mem_map_of_mem hmem')
      cases hvalue : value d with
      | none => simpa [hvalue] using ih hrev.2 hmem'
      | some v =>
        simp only [Option.map_some, List.lookup_cons, beq_eq_false_iff_ne.mpr hne]
        exact ih hrev.2 hmem'

omit [DecidableEq σ] [DecidableEq κ] in
/-- The array that the loop over the overflow slots fills. -/
theorem foldl_fillOverflow (initarg : σ → Value α) (names : List σ) (arr : List (Value α)) :
    (names.zipIdx arr.length).foldl (fillOverflow initarg)
    (arr ++ List.replicate names.length .unbound) =
      arr ++ names.map fun n => if initarg n = .notFound then .unbound else initarg n := by
  induction names generalizing arr with
  | nil => simp
  | cons n names ih =>
    have hset : fillOverflow initarg (arr ++ List.replicate (n :: names).length .unbound) (n,
      arr.length) =
        (arr ++ [if initarg n = .notFound then .unbound else initarg n]) ++
          List.replicate names.length .unbound := by
      rw [List.length_cons, List.replicate_succ, fillOverflow]
      cases initarg n <;> simp
    have hlen : arr.length + 1 =
      (arr ++ [if initarg n = .notFound then .unbound else initarg n]).length := by
      simp
    rw [List.zipIdx_cons, List.foldl_cons, hset, hlen, ih]
    simp

/-- The value that `make-instance` takes for a slot from the initargs it ends up with. -/
def taken (K : Symbols σ κ α) (c : DefinedClass σ κ α) (initargs : Initargs κ α)
    (s : EffectiveSlot σ κ α) :
    Option (Value α) :=
  if s.name ∈ c.cls.layout.nativeNames then initialValue (resolveAliases K c initargs) s
  else
    match overflowInitarg K c (resolveAliases K c initargs) s.name with
    | .notFound => none
    | .unbound => none
    | value => some value

omit [DecidableEq σ] [DecidableEq κ] [DecidableEq α] in
theorem names_eq : c.cls.layout.names = c.slots.map EffectiveSlot.name := by
  simp [DefinedClass.cls, PersistentClass.computeSlots, DefinedClass.layout, Layout.names,
    Function.comp_def]

omit [DecidableEq σ] [DecidableEq κ] [DecidableEq α] in
theorem classSlots_sublist : c.classSlots.Sublist c.slots := by
  rw [DefinedClass.classSlots]
  split
  · exact List.take_sublist _ _
  · exact List.Sublist.refl _

omit [DecidableEq σ] [DecidableEq κ] [DecidableEq α] in
theorem overflowIndices_of_wide (h : c.Wide) :
    c.cls.overflowIndices = some c.cls.layout.overflowIndices := by
  have hwide : ¬ c.layout.slots.length ≤ nativeSlotLimit := by
    simpa [DefinedClass.Wide, DefinedClass.cls, PersistentClass.computeSlots] using h
  simp only [DefinedClass.cls, PersistentClass.computeSlots, if_neg hwide]

/-- The vector of a wide instance. -/
theorem makeInstance_vector (h : c.Wide) :
    (makeInstance K c initargs).persistentVector = some (c.cls.layout.overflowNames.map fun n =>
      if overflowInitarg K c (resolveAliases K c initargs) n = .notFound then .unbound
      else overflowInitarg K c (resolveAliases K c initargs) n) := by
  have hlen : c.cls.slotCount - nativeSlotLimit = c.cls.layout.overflowNames.length := by
    rw [Layout.overflowNames, List.length_drop, Layout.length_names]
    rfl
  have hfold := foldl_fillOverflow (overflowInitarg K c (resolveAliases K c initargs))
    c.cls.layout.overflowNames []
  rw [List.nil_append, List.nil_append] at hfold
  simp only [makeInstance, populateOverflow, if_pos h, overflowIndices_of_wide h, Option.getD_some,
    hlen]
  exact congrArg some hfold

theorem slotValue_makeInstance {s : EffectiveSlot σ κ α} (hs : s ∈ c.slots) :
    slotValue c.cls (makeInstance K c initargs) s.name = taken K c initargs s := by
  have hname : s.name ∈ c.cls.layout.names := by
    rw [names_eq]
    exact List.mem_map_of_mem hs
  rw [slotValue, taken]
  split
  · next hnative =>
    -- the loop over the native slots
    have hmem : s ∈ c.classSlots := by
      rw [nativeNames_eq, List.mem_map] at hnative
      obtain ⟨s', hs', hsame⟩ := hnative
      rwa [← List.inj_on_of_nodup_map c.nodup (classSlots_sublist.subset hs') hs hsame]
    have hfold :=
      native_foldl (f := fun x s => match initialValue (resolveAliases K c initargs) s with
        | some value => setNative x s.name value
        | none => x) (w := fun s => (initialValue (resolveAliases K c initargs) s).map (s.name, ·))
      (fun x s => by cases initialValue (resolveAliases K c initargs) s <;> rfl) c.classSlots
        allocate s.name
    rw [lookup_reverse_filterMap EffectiveSlot.name _ (c.nodup.sublist (classSlots_sublist.map _))
      hmem] at hfold
    have hpop : (makeInstance K c initargs).native =
        (sharedInitialize c (resolveAliases K c initargs) allocate).native := by
      simp only [makeInstance, populateOverflow]
      split <;> rfl
    rw [hpop, sharedInitialize, hfold]
    exact Option.or_none
  · next hnative =>
    obtain ⟨hwide, i, hi⟩ := Layout.exists_overflowIndex hname hnative
    have hget := Layout.lookup_overflowIndices.mp hi
    have hW : c.Wide := by
      simpa [DefinedClass.Wide, DefinedClass.cls, PersistentClass.computeSlots] using hwide
    have hi' : c.cls.overflowIndex s.name = some i := by
      rw [PersistentClass.overflowIndex, overflowIndices_of_wide hW]
      exact hi
    rw [slotMissing, hi', makeInstance_vector hW]
    simp only [ref, List.getElem?_map, hget, Option.map_some, Option.getD_some]
    cases overflowInitarg K c (resolveAliases K c initargs) s.name <;> rfl

/-! The slots of a class that is not wide are all native. -/

omit [DecidableEq σ] [DecidableEq κ] [DecidableEq α] in
theorem mem_nativeNames (hnarrow : ¬ c.Wide) {s : EffectiveSlot σ κ α} (hs : s ∈ c.slots) :
    s.name ∈ c.cls.layout.nativeNames := by
  rw [nativeNames_eq, DefinedClass.classSlots, if_neg hnarrow]
  exact List.mem_map_of_mem hs

/-- The last argument that names the slot, by its own or its alias's keyword. -/
def lastNamed (K : Symbols σ κ α) (c : DefinedClass σ κ α) (initargs : Initargs κ α) (name : σ) :
    Option (Value α) :=
  (initargs.reverse.find? fun p => slotNameFromKeyword K c p.1 = some name).map Prod.snd

theorem slotValue_makePersistent (hnarrow : ¬ c.Wide) {s : EffectiveSlot σ κ α} (hs : s ∈ c.slots) :
    slotValue c.cls (makePersistent K c initargs) s.name = lastNamed K c initargs s.name := by
  have hfold := native_foldl (f := fun x p => match slotNameFromKeyword K c p.1 with
      | some name => setNative x name p.2
      | none => x) (w := fun p : κ × Value α => (slotNameFromKeyword K c p.1).map (·, p.2))
    (fun x p => by cases slotNameFromKeyword K c p.1 <;> rfl) initargs
    { (allocate : Instance σ α) with schemaVersion := c.cls.versionCounter } s.name
  have hlast : ∀ ps : List (κ × Value α),
      (ps.filterMap fun p => (slotNameFromKeyword K c p.1).map (·, p.2)).lookup s.name =
        (ps.find? fun p => slotNameFromKeyword K c p.1 = some s.name).map Prod.snd := by
    intro ps
    induction ps with
    | nil => rfl
    | cons p ps ih =>
      rw [List.filterMap_cons, List.find?_cons]
      cases hslot : slotNameFromKeyword K c p.1 with
      | none => simpa using ih
      | some name =>
        by_cases hname : s.name = name
        · simp [hname]
        · simp only [Option.map_some, List.lookup_cons, beq_eq_false_iff_ne.mpr hname, ih,
            Option.some.injEq, Ne.symm hname, decide_false]
  rw [slotValue, if_pos (mem_nativeNames hnarrow hs), makePersistent, if_neg hnarrow, hfold, hlast,
    lastNamed]
  exact Option.or_none

/-- The constructor's instance has the parameters in the slots of the form, and no other slot
bound. -/
theorem slotValue_optimizedConstructor (hnarrow : ¬ c.Wide) {x : Instance σ α}
    (hx : optimizedConstructor K c initargs = .ok x) {s : EffectiveSlot σ κ α} (hs : s ∈ c.slots) :
    slotValue c.cls x s.name =
      if s.name ∈ c.ownNames then some (parameter K initargs s.name) else none := by
  rw [optimizedConstructor] at hx
  split at hx
  · cases hx
    have hfold := native_foldl (f := fun x info => setNative x info.1 (parameter K initargs info.1))
      (w := fun info : σ × κ => some (info.1, parameter K initargs info.1)) (fun _ _ => rfl)
      c.slotInfos
      { (allocate : Instance σ α) with schemaVersion := c.cls.versionCounter } s.name
    rw [slotValue, if_pos (mem_nativeNames hnarrow hs), hfold]
    split
    · next hown =>
      obtain ⟨info, hinfo, hname⟩ := List.mem_map.mp hown
      have hlookup := lookup_reverse_filterMap Prod.fst
        (fun info => some (parameter K initargs info.1)) c.slotInfos_nodup hinfo
      rw [← hname]
      simp only [Option.map_some] at hlookup
      rw [hlookup]
      rfl
    · next hown =>
      rw [lookup_eq_none_of_not_mem]
      · rfl
      · intro hin
        obtain ⟨e, he, hname⟩ := List.mem_map.mp hin
        obtain ⟨info, hinfo, hmap⟩ := List.mem_filterMap.mp he
        cases hmap
        exact hown (List.mem_map.mpr ⟨info, List.mem_reverse.mp hinfo, hname⟩)
  · cases hx

/-! ## §5 Agreement -/

/-- The emitted constructor returns an instance that has the same slots bound, to the same values,
as the one of `%make-persistent` and the one of `make-instance`. -/
def Agree (K : Symbols σ κ α) (c : DefinedClass σ κ α) (initargs : Initargs κ α) : Prop :=
  ∃ x, optimizedConstructor K c initargs = .ok x ∧ ∀ s ∈ c.slots,
    slotValue c.cls x s.name = slotValue c.cls (makePersistent K c initargs) s.name ∧
      slotValue c.cls x s.name = slotValue c.cls (makeInstance K c initargs) s.name

/-- What the arguments say of a slot of the form: the last that names it, and the first of its
initargs, or else its initform, are the keyword parameter. -/
def OwnSupplied (K : Symbols σ κ α) (c : DefinedClass σ κ α) (initargs : Initargs κ α)
    (s : EffectiveSlot σ κ α) : Prop :=
  lastNamed K c initargs s.name = some (parameter K initargs s.name) ∧
    initialValue (resolveAliases K c initargs) s = some (parameter K initargs s.name)

/-- An inherited slot has no argument and no initform. -/
def NotSupplied (K : Symbols σ κ α) (c : DefinedClass σ κ α) (initargs : Initargs κ α)
    (s : EffectiveSlot σ κ α) : Prop :=
  (∀ p ∈ initargs, slotNameFromKeyword K c p.1 ≠ some s.name) ∧
    (∀ p ∈ resolveAliases K c initargs, p.1 ∉ s.initargs) ∧ s.initform = none

/-- The condition on the arguments. -/
def Supplied (K : Symbols σ κ α) (c : DefinedClass σ κ α) (initargs : Initargs κ α) : Prop :=
  if c.Wide then ∀ s ∈ c.slots, taken K c (passedOn K c initargs) s = taken K c initargs s
  else ∀ s ∈ c.slots, (s.name ∈ c.ownNames → OwnSupplied K c initargs s) ∧
    (s.name ∉ c.ownNames → NotSupplied K c initargs s)

omit [DecidableEq α] in
theorem lastNamed_eq_none {name : σ} :
    lastNamed K c initargs name = none ↔ ∀ p ∈ initargs,
    slotNameFromKeyword K c p.1 ≠ some name := by
  simp [lastNamed]

omit [DecidableEq σ] [DecidableEq α] in
theorem initialValue_eq_none {s : EffectiveSlot σ κ α} :
    initialValue initargs s = none ↔ (∀ p ∈ initargs, p.1 ∉ s.initargs) ∧ s.initform = none := by
  rw [initialValue]
  cases hfind : initargs.find? fun p => p.1 ∈ s.initargs with
  | none => simpa using fun _ => hfind
  | some p =>
    have hp := List.find?_some hfind
    have hmem := List.mem_of_find?_eq_some hfind
    refine iff_of_false (by simp) fun h => h.1 p hmem (by simpa using hp)

/-- The three constructors agree exactly when the emitted one accepts the arguments and they supply
the slots alike. -/
theorem constructors_agree_iff (K : Symbols σ κ α) (c : DefinedClass σ κ α)
    (initargs : Initargs κ α) :
    Agree K c initargs ↔ Accepted K c initargs ∧ Supplied K c initargs := by
  by_cases hacc : Accepted K c initargs
  · rw [and_iff_right hacc, Supplied]
    by_cases hwide : c.Wide
    · have hok :
        optimizedConstructor K c initargs = .ok (makeInstance K c (passedOn K c initargs)) := by
        rw [optimizedConstructor, if_pos hacc, if_pos hwide]
      have hmake : makePersistent K c initargs = makeInstance K c initargs := if_pos hwide
      simp only [Agree, hok, Except.ok.injEq, exists_eq_left', if_pos hwide, hmake, and_self]
      refine forall₂_congr fun s hs => ?_
      rw [slotValue_makeInstance hs, slotValue_makeInstance hs]
    · obtain ⟨x, hok⟩ : ∃ x, optimizedConstructor K c initargs = .ok x := by
        rw [optimizedConstructor, if_pos hacc, if_neg hwide]
        exact ⟨_, rfl⟩
      simp only [Agree, hok, Except.ok.injEq, exists_eq_left', if_neg hwide]
      refine forall₂_congr fun s hs => ?_
      have hnative := mem_nativeNames hwide hs
      rw [slotValue_optimizedConstructor hwide hok hs, slotValue_makePersistent hwide hs,
        slotValue_makeInstance hs, taken, if_pos hnative]
      by_cases hown : s.name ∈ c.ownNames
      · simp only [hown, true_implies, not_true_eq_false, false_implies, and_true, OwnSupplied]
        exact and_congr eq_comm eq_comm
      · simp only [hown, false_implies, true_and, not_false_eq_true, true_implies, NotSupplied,
          ← lastNamed_eq_none, ← initialValue_eq_none]
        exact and_congr eq_comm eq_comm
  · refine iff_of_false ?_ fun h => hacc h.1
    rintro ⟨x, hx, -⟩
    rw [optimizedConstructor, if_neg hacc] at hx
    cases hx

end

/-- The slots of a class of defaults. -/
inductive Sample where
  | value
  | label
  | allowOtherKeys
deriving DecidableEq

def sampleSymbols : Symbols Sample Sample Nat where
  keyword := id
  allowOtherKeys := .allowOtherKeys
  nil := 0

/-- `[value :initform 42] [label :initform 1]`. -/
def sampleDefaults : DefinedClass Sample Sample Nat where
  slots := [⟨.value, none, [.value], some (.other 42)⟩, ⟨.label, none, [.label], some (.other 1)⟩]
  nodup := by decide
  slotInfos := [(.value, .value), (.label, .label)]
  slotInfos_nodup := by decide
  slotInfos_slots := by simp
  before := ⟨⟨[], .nil⟩, 0, none, [], 0, []⟩

/-- `(make-<defaults> :value 77)`: the label is `nil`, unbound or 1. -/
theorem partialOverride_not_agree : ¬ Agree sampleSymbols sampleDefaults [(.value, .other 77)] := by
  rintro ⟨x, hx, hagree⟩
  have hlabel := hagree ⟨.label, none, [.label], some (.other 1)⟩ (by simp [sampleDefaults])
  cases hx
  exact absurd hlabel.1 (by decide)

end Fol.Persistence.Construction
