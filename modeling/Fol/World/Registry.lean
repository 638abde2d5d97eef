/-
Fol.World.Registry — the validity cells of `world.lisp`.

`register-region` allocates a cell and lists it in `*region-deps*` under every name its
region assumed; `note-redefinition` invalidates what is listed under a name and removes
the list; `invalidate-all-regions` invalidates what is listed under any name and clears
the table. Names are listed in upper case (`upcase` is `string-upcase`). A cell is known
by its place in `cells`.
-/
import Fol.Escape.Summaries

namespace Fol.Regions

open Fol.Escape (Symbol EscapeSummary)

/-! ## §1 World -/

/-- A region's cell: `(valid-p . assumption-names)`. -/
structure Cell where
  valid : Bool
  assumed : List String
deriving DecidableEq

structure World where
  /-- All cells allocated so far. -/
  cells : List Cell := []
  /-- `*region-deps*` -/
  deps : List (String × List Nat) := []
  /-- `*inferred-summaries*` -/
  inferred : Symbol → Option EscapeSummary := fun _ => none
  /-- `*regions-registered*` -/
  registered : Nat := 0
  /-- `*regions-invalidated*` -/
  invalidated : Nat := 0
  /-- `*redefinitions-noted*` -/
  noted : Nat := 0
  /-- `*redefinitions-invalidating*` -/
  invalidating : Nat := 0

/-- `(push cell (gethash key *region-deps*))`. -/
def pushDep (key : String) (id : Nat) : List (String × List Nat) → List (String × List Nat)
  | [] => [(key, [id])]
  | (k, ids) :: rest => if k = key then (k, id :: ids) :: rest else (k, ids) :: pushDep key id rest

/-- `(remhash key *region-deps*)`. -/
def removeDep (key : String) (deps : List (String × List Nat)) : List (String × List Nat) :=
  deps.filter (·.1 ≠ key)

namespace World

/-- `region-valid-p`. -/
def validP (w : World) (id : Nat) : Bool := (w.cells[id]?).any (·.valid)

/-- The names the region of a cell assumed. -/
def assumed (w : World) (id : Nat) : List String := ((w.cells[id]?).map (·.assumed)).getD []

/-- The body of the loops over cells: a valid cell is set to NIL and counted. -/
def invalidateCell (w : World) (id : Nat) : World :=
  if w.validP id then
    { w with
      cells := w.cells.modify id fun c => { c with valid := false }
      invalidated := w.invalidated + 1 }
  else w

def invalidateCells (w : World) (ids : List Nat) : World := ids.foldl invalidateCell w

section Operations

variable (upcase : String → String)

/-- `register-region`. The cell returned is the last one. -/
def registerRegion (w : World) (names : List String) : World :=
  { w with
    cells := w.cells ++ [{ valid := true, assumed := names }]
    deps := names.foldl (fun deps name => pushDep (upcase name) w.cells.length deps) w.deps
    registered := w.registered + 1 }

/-- `note-redefinition`. -/
def noteRedefinition (w : World) (name : Symbol) : World :=
  let key := upcase name.name
  let w := { w with
    noted := w.noted + 1
    inferred := fun s => if s = name then none else w.inferred s }
  match w.deps.lookup key with
  | none => w
  | some ids =>
    let w := { w with invalidating := w.invalidating + 1 }
    let w := w.invalidateCells ids
    { w with deps := removeDep key w.deps }

/-- `invalidate-all-regions`. -/
def invalidateAllRegions (w : World) : World :=
  let w := w.invalidateCells (w.deps.flatMap (·.2))
  { w with inferred := fun _ => none, deps := [] }

end Operations

end World

/-- The calls of the world machinery. -/
inductive Op where
  | register (names : List String)
  | redefine (name : Symbol)
  | invalidateAll
deriving DecidableEq

section Runs

variable (upcase : String → String)

def step (w : World) : Op → World
  | .register names => w.registerRegion upcase names
  | .redefine name => w.noteRedefinition upcase name
  | .invalidateAll => w.invalidateAllRegions

def run (w : World) (ops : List Op) : World := ops.foldl (step upcase) w

end Runs

/-! ## §2 Cells -/

namespace World

variable {w : World}

@[simp] theorem assumed_invalidateCell (id id' : Nat) :
    (w.invalidateCell id).assumed id' = w.assumed id' := by
  unfold invalidateCell assumed
  split
  · rw [List.getElem?_modify]
    by_cases h : id = id' <;> simp [h, Function.comp_def]
  · rfl

@[simp] theorem length_invalidateCell (id : Nat) :
    (w.invalidateCell id).cells.length = w.cells.length := by
  unfold invalidateCell
  split <;> simp

@[simp] theorem deps_invalidateCell (id : Nat) : (w.invalidateCell id).deps = w.deps := by
  unfold invalidateCell
  split <;> rfl

theorem validP_invalidateCell (id id' : Nat) :
    (w.invalidateCell id).validP id' = (w.validP id' && id' ≠ id) := by
  unfold invalidateCell
  by_cases hv : w.validP id = true
  · rw [if_pos hv]
    simp only [validP, List.getElem?_modify]
    by_cases h : id = id'
    · cases w.cells[id']? <;> simp [h]
    · cases w.cells[id']? <;> simp [h, Ne.symm h]
  · rw [if_neg hv]
    by_cases h : id' = id
    · subst h
      simp [hv]
    · simp [h]

variable {ids : List Nat}

@[simp] theorem assumed_invalidateCells (id : Nat) :
    (w.invalidateCells ids).assumed id = w.assumed id := by
  induction ids generalizing w with
  | nil => rfl
  | cons i ids ih => exact (ih (w := w.invalidateCell i)).trans (assumed_invalidateCell i id)

@[simp] theorem length_invalidateCells :
    (w.invalidateCells ids).cells.length = w.cells.length := by
  induction ids generalizing w with
  | nil => rfl
  | cons i ids ih => exact (ih (w := w.invalidateCell i)).trans (length_invalidateCell i)

@[simp] theorem deps_invalidateCells : (w.invalidateCells ids).deps = w.deps := by
  induction ids generalizing w with
  | nil => rfl
  | cons i ids ih => exact (ih (w := w.invalidateCell i)).trans (deps_invalidateCell i)

/-- Exactly the listed cells become invalid. -/
theorem validP_invalidateCells (id : Nat) :
    (w.invalidateCells ids).validP id = true ↔ w.validP id = true ∧ id ∉ ids := by
  induction ids generalizing w with
  | nil => simp [invalidateCells]
  | cons i ids ih =>
    rw [invalidateCells, List.foldl_cons, ← invalidateCells, ih, validP_invalidateCell]
    simp [and_assoc]

end World

/-! ## §3 Index -/

/-- Is the cell listed under the key? -/
def Listed (deps : List (String × List Nat)) (key : String) (id : Nat) : Prop :=
  ∃ ids, deps.lookup key = some ids ∧ id ∈ ids

section Deps

variable {deps : List (String × List Nat)} {key k : String} {id id' : Nat}

theorem lookup_pushDep_self :
    (pushDep key id deps).lookup key = some (id :: (deps.lookup key).getD []) := by
  induction deps with
  | nil => simp [pushDep]
  | cons entry rest ih =>
    obtain ⟨k, ids⟩ := entry
    by_cases h : k = key
    · simp [pushDep, h]
    · have hk : (key == k) = false := by simpa using Ne.symm h
      simp [pushDep, h, List.lookup_cons, hk, ih]

theorem lookup_pushDep_of_ne (h : k ≠ key) : (pushDep key id deps).lookup k = deps.lookup k := by
  induction deps with
  | nil =>
    have hk : (k == key) = false := by simpa using h
    simp [pushDep, List.lookup_cons, hk]
  | cons entry rest ih =>
    obtain ⟨k', ids⟩ := entry
    by_cases hk : k' = key
    · have hkk : (k == key) = false := by simpa using h
      simp [pushDep, hk, List.lookup_cons, hkk]
    · simp [pushDep, hk, List.lookup_cons, ih]

theorem listed_pushDep : Listed (pushDep key id deps) k id' ↔
    Listed deps k id' ∨ (k = key ∧ id' = id) := by
  by_cases h : k = key
  · subst h
    unfold Listed
    rw [lookup_pushDep_self]
    cases deps.lookup k <;> simp [or_comm]
  · simp [Listed, lookup_pushDep_of_ne h, h]

theorem mem_of_lookup {ids : List Nat} (h : deps.lookup key = some ids) : (key, ids) ∈ deps := by
  induction deps with
  | nil => simp at h
  | cons entry rest ih =>
    obtain ⟨k, ids'⟩ := entry
    by_cases hk : key = k
    · subst hk
      have hids : ids' = ids := by simpa using h
      rw [hids]
      exact List.mem_cons_self
    · have hk : (key == k) = false := by simpa using hk
      rw [List.lookup_cons, hk] at h
      exact List.mem_cons_of_mem _ (ih h)

/-- What is in the table after a push. -/
theorem mem_pushDep {entry : String × List Nat} (h : entry ∈ pushDep key id deps)
    (hid : id' ∈ entry.2) :
    (∃ old ∈ deps, old.1 = entry.1 ∧ id' ∈ old.2) ∨ (entry.1 = key ∧ id' = id) := by
  induction deps with
  | nil =>
    have he : entry = (key, [id]) := by simpa [pushDep] using h
    subst he
    exact Or.inr ⟨rfl, by simpa using hid⟩
  | cons head rest ih =>
    obtain ⟨k, ids⟩ := head
    by_cases hk : k = key
    · rw [pushDep, if_pos hk, List.mem_cons] at h
      rcases h with rfl | h
      · rcases List.mem_cons.mp hid with rfl | hid
        · exact Or.inr ⟨hk, rfl⟩
        · exact Or.inl ⟨(k, ids), List.mem_cons_self, rfl, hid⟩
      · exact Or.inl ⟨entry, List.mem_cons_of_mem _ h, rfl, hid⟩
    · rw [pushDep, if_neg hk, List.mem_cons] at h
      rcases h with rfl | h
      · exact Or.inl ⟨(k, ids), List.mem_cons_self, rfl, hid⟩
      · rcases ih h with ⟨old, hold, hrest⟩ | hnew
        · exact Or.inl ⟨old, List.mem_cons_of_mem _ hold, hrest⟩
        · exact Or.inr hnew

theorem listed_removeDep (h : k ≠ key) (hl : Listed deps k id) :
    Listed (removeDep key deps) k id := by
  obtain ⟨ids, hids, hid⟩ := hl
  refine ⟨ids, ?_, hid⟩
  unfold removeDep
  induction deps with
  | nil => exact hids
  | cons entry rest ih =>
    obtain ⟨k', ids'⟩ := entry
    rw [List.lookup_cons] at hids
    by_cases hk : k' = key
    · have hkk : (k == k') = false := by simpa [hk] using h
      rw [hkk] at hids
      simpa [hk] using ih hids
    · rw [List.filter_cons_of_pos (by simpa using hk), List.lookup_cons]
      split at hids
      · exact hids
      · exact ih hids

end Deps

/-- Every valid cell is listed under all its names, and every cell is listed under its
names only. -/
structure Indexed (upcase : String → String) (w : World) : Prop where
  complete : ∀ id, w.validP id = true → ∀ n ∈ w.assumed id, Listed w.deps (upcase n) id
  sound : ∀ entry ∈ w.deps, ∀ id ∈ entry.2,
    id < w.cells.length ∧ ∃ n ∈ w.assumed id, upcase n = entry.1

section Steps

variable {upcase : String → String} {w : World}

theorem listed_registerDeps {names : List String} {new : Nat} {deps : List (String × List Nat)}
    {k : String} {id : Nat} :
    Listed (names.foldl (fun deps name => pushDep (upcase name) new deps) deps) k id ↔
      Listed deps k id ∨ ((∃ n ∈ names, upcase n = k) ∧ id = new) := by
  induction names generalizing deps with
  | nil => simp
  | cons n names ih =>
    rw [List.foldl_cons, ih, listed_pushDep]
    simp only [List.exists_mem_cons_iff, or_and_right, or_assoc, eq_comm (a := k)]

theorem mem_registerDeps {names : List String} {new : Nat} {deps : List (String × List Nat)}
    {entry : String × List Nat} {id : Nat}
    (h : entry ∈ names.foldl (fun deps name => pushDep (upcase name) new deps) deps)
    (hid : id ∈ entry.2) :
    (∃ old ∈ deps, old.1 = entry.1 ∧ id ∈ old.2) ∨
      ((∃ n ∈ names, upcase n = entry.1) ∧ id = new) := by
  induction names generalizing deps with
  | nil => exact Or.inl ⟨entry, h, rfl, hid⟩
  | cons n names ih =>
    rcases ih h with ⟨old, hold, hkey, hid⟩ | ⟨⟨m, hm, hkey⟩, hnew⟩
    · rcases mem_pushDep hold hid with ⟨old', hold', hkey', hid'⟩ | ⟨hkey', hnew⟩
      · exact Or.inl ⟨old', hold', hkey'.trans hkey, hid'⟩
      · exact Or.inr ⟨⟨n, List.mem_cons_self, hkey'.symm.trans hkey⟩, hnew⟩
    · exact Or.inr ⟨⟨m, List.mem_cons_of_mem _ hm, hkey⟩, hnew⟩

/-! Registration. -/

theorem validP_registerRegion {names : List String} {id : Nat} (h : id < w.cells.length) :
    (w.registerRegion upcase names).validP id = w.validP id := by
  simp [World.registerRegion, World.validP, List.getElem?_append_left h]

theorem assumed_registerRegion {names : List String} {id : Nat} (h : id < w.cells.length) :
    (w.registerRegion upcase names).assumed id = w.assumed id := by
  simp [World.registerRegion, World.assumed, List.getElem?_append_left h]

theorem validP_registerRegion_new (names : List String) :
    (w.registerRegion upcase names).validP w.cells.length = true := by
  simp [World.registerRegion, World.validP]

theorem assumed_registerRegion_new (names : List String) :
    (w.registerRegion upcase names).assumed w.cells.length = names := by
  simp [World.registerRegion, World.assumed]

theorem lt_of_validP {id : Nat} (h : w.validP id = true) : id < w.cells.length := by
  by_contra hlt
  rw [World.validP, List.getElem?_eq_none (Nat.le_of_not_lt hlt)] at h
  simp at h

theorem Indexed.registerRegion (hw : Indexed upcase w) (names : List String) :
    Indexed upcase (w.registerRegion upcase names) := by
  have hlen : (w.registerRegion upcase names).cells.length = w.cells.length + 1 := by
    simp [World.registerRegion]
  constructor
  · intro id hv n hn
    refine listed_registerDeps.mpr ?_
    rcases Nat.lt_succ_iff_lt_or_eq.mp (hlen ▸ lt_of_validP hv) with hlt | rfl
    · rw [validP_registerRegion hlt] at hv
      rw [assumed_registerRegion hlt] at hn
      exact Or.inl (hw.complete id hv n hn)
    · rw [assumed_registerRegion_new] at hn
      exact Or.inr ⟨⟨n, hn, rfl⟩, rfl⟩
  · intro entry he id hid
    rcases mem_registerDeps he hid with ⟨old, hold, hkey, hid⟩ | ⟨⟨n, hn, hkey⟩, rfl⟩
    · obtain ⟨hlt, n, hn, hk⟩ := hw.sound old hold id hid
      refine ⟨by rw [hlen]; omega, n, ?_, hk.trans hkey⟩
      rwa [assumed_registerRegion hlt]
    · refine ⟨by rw [hlen]; omega, n, ?_, hkey⟩
      rwa [assumed_registerRegion_new]

/-! Redefinition. -/

theorem validP_noteRedefinition_lookup (name : Symbol) (id : Nat) :
    (w.noteRedefinition upcase name).validP id = true ↔
      w.validP id = true ∧ ¬ Listed w.deps (upcase name.name) id := by
  unfold World.noteRedefinition Listed
  cases h : w.deps.lookup (upcase name.name) with
  | none => simp [h, World.validP]
  | some ids =>
    simp only [h, Option.some.injEq, exists_eq_left']
    exact World.validP_invalidateCells id

theorem assumed_noteRedefinition (name : Symbol) (id : Nat) :
    (w.noteRedefinition upcase name).assumed id = w.assumed id := by
  unfold World.noteRedefinition
  cases h : w.deps.lookup (upcase name.name) with
  | none => simp [h, World.assumed]
  | some ids =>
    simp only [h]
    exact World.assumed_invalidateCells id

theorem length_noteRedefinition (name : Symbol) :
    (w.noteRedefinition upcase name).cells.length = w.cells.length := by
  unfold World.noteRedefinition
  cases h : w.deps.lookup (upcase name.name) with
  | none => simp [h]
  | some ids => simp [h]

theorem deps_noteRedefinition (upcase : String → String) (w : World) (name : Symbol) :
    (w.noteRedefinition upcase name).deps = w.deps ∨
      (w.noteRedefinition upcase name).deps = removeDep (upcase name.name) w.deps := by
  unfold World.noteRedefinition
  cases h : w.deps.lookup (upcase name.name) with
  | none => simp [h]
  | some ids => simp [h]

theorem Indexed.noteRedefinition (hw : Indexed upcase w) (name : Symbol) :
    Indexed upcase (w.noteRedefinition upcase name) := by
  constructor
  · intro id hv n hn
    rw [assumed_noteRedefinition] at hn
    obtain ⟨hv, hnot⟩ := (validP_noteRedefinition_lookup name id).mp hv
    have hl := hw.complete id hv n hn
    rcases deps_noteRedefinition upcase w name with hd | hd
    · rwa [hd]
    · rw [hd]
      refine listed_removeDep (fun hkey => hnot ?_) hl
      rwa [← hkey]
  · intro entry he id hid
    have he : entry ∈ w.deps := by
      rcases deps_noteRedefinition upcase w name with hd | hd
      · rwa [hd] at he
      · rw [hd] at he
        exact List.mem_of_mem_filter he
    rw [length_noteRedefinition, assumed_noteRedefinition]
    exact hw.sound entry he id hid

/-- A redefinition invalidates exactly the valid regions that assumed its name. -/
theorem Indexed.validP_noteRedefinition (hw : Indexed upcase w) (name : Symbol) (id : Nat) :
    (w.noteRedefinition upcase name).validP id = true ↔
      w.validP id = true ∧ ∀ n ∈ w.assumed id, upcase n ≠ upcase name.name := by
  rw [validP_noteRedefinition_lookup]
  refine and_congr_right fun hv => ⟨?_, ?_⟩
  · intro hnot n hn hkey
    exact hnot (hkey ▸ hw.complete id hv n hn)
  · rintro hno ⟨ids, hids, hid⟩
    obtain ⟨-, n, hn, hkey⟩ := hw.sound _ (mem_of_lookup hids) id hid
    exact hno n hn hkey

/-! Invalidation of everything. -/

theorem assumed_invalidateAllRegions (id : Nat) :
    w.invalidateAllRegions.assumed id = w.assumed id :=
  World.assumed_invalidateCells id

theorem length_invalidateAllRegions : w.invalidateAllRegions.cells.length = w.cells.length :=
  World.length_invalidateCells

theorem Indexed.invalidateAllRegions (hw : Indexed upcase w) :
    Indexed upcase w.invalidateAllRegions := by
  constructor
  · intro id hv n hn
    rw [assumed_invalidateAllRegions] at hn
    obtain ⟨hv, hnot⟩ := (World.validP_invalidateCells id).mp hv
    obtain ⟨ids, hids, hid⟩ := hw.complete id hv n hn
    exact absurd (List.mem_flatMap.mpr ⟨_, mem_of_lookup hids, hid⟩) hnot
  · intro entry he
    exact absurd he List.not_mem_nil

/-- A region that assumed no name is listed nowhere: the panic switch does not find it. -/
theorem Indexed.validP_invalidateAllRegions (hw : Indexed upcase w) (id : Nat) :
    w.invalidateAllRegions.validP id = true ↔ w.validP id = true ∧ w.assumed id = [] := by
  refine (World.validP_invalidateCells id).trans (and_congr_right fun hv => ⟨?_, ?_⟩)
  · intro hnot
    by_contra hne
    obtain ⟨n, hn⟩ := List.exists_mem_of_ne_nil _ hne
    obtain ⟨ids, hids, hid⟩ := hw.complete id hv n hn
    exact hnot (List.mem_flatMap.mpr ⟨_, mem_of_lookup hids, hid⟩)
  · intro hnil hmem
    obtain ⟨entry, he, hid⟩ := List.mem_flatMap.mp hmem
    obtain ⟨-, n, hn, -⟩ := hw.sound entry he id hid
    rw [hnil] at hn
    exact absurd hn List.not_mem_nil

end Steps

/-! ## §4 Runs -/

/-- Does the call concern a region that assumed these names? -/
def Op.Touches (upcase : String → String) (names : List String) : Op → Prop
  | .register _ => False
  | .redefine name => ∃ n ∈ names, upcase n = upcase name.name
  | .invalidateAll => True

section Runs

variable {upcase : String → String} {w : World}

theorem Indexed.after_step (hw : Indexed upcase w) (op : Op) :
    Indexed upcase (step upcase w op) := by
  cases op with
  | register names => exact hw.registerRegion names
  | redefine name => exact hw.noteRedefinition name
  | invalidateAll => exact hw.invalidateAllRegions

theorem Indexed.after_run (hw : Indexed upcase w) (ops : List Op) :
    Indexed upcase (run upcase w ops) := by
  induction ops generalizing w with
  | nil => exact hw
  | cons op ops ih => exact ih (hw.after_step op)

theorem indexed_empty : Indexed upcase {} :=
  ⟨fun id hv => by simp [World.validP] at hv, fun _ he => absurd he List.not_mem_nil⟩

theorem assumed_step {id : Nat} (hid : id < w.cells.length) (op : Op) :
    (step upcase w op).assumed id = w.assumed id := by
  cases op with
  | register names => exact assumed_registerRegion hid
  | redefine name => exact assumed_noteRedefinition name id
  | invalidateAll => exact assumed_invalidateAllRegions id

theorem length_step (op : Op) : w.cells.length ≤ (step upcase w op).cells.length := by
  cases op with
  | register names => simp [step, World.registerRegion]
  | redefine name => exact Nat.le_of_eq (length_noteRedefinition name).symm
  | invalidateAll => exact Nat.le_of_eq length_invalidateAllRegions.symm

/-- The step lemma: a cell stays valid unless the call touches its region; only the
panic switch misses one, if it assumed nothing. -/
theorem Indexed.validP_step (hw : Indexed upcase w) {id : Nat} (hid : id < w.cells.length)
    (op : Op) :
    (step upcase w op).validP id = true ↔ w.validP id = true ∧
      (op.Touches upcase (w.assumed id) → w.assumed id = [] ∧ op = .invalidateAll) := by
  cases op with
  | register names => simp [step, validP_registerRegion hid, Op.Touches]
  | redefine name =>
    rw [step, hw.validP_noteRedefinition]
    simp [Op.Touches]
  | invalidateAll =>
    rw [step, hw.validP_invalidateAllRegions]
    simp [Op.Touches]

theorem Indexed.validP_run (hw : Indexed upcase w) {id : Nat} (hid : id < w.cells.length)
    (ops : List Op) :
    (run upcase w ops).validP id = true ↔ w.validP id = true ∧
      ∀ op ∈ ops, op.Touches upcase (w.assumed id) → w.assumed id = [] ∧ op = .invalidateAll := by
  induction ops generalizing w with
  | nil => simp [run]
  | cons op ops ih =>
    have hrest := ih (hw.after_step op) (Nat.lt_of_lt_of_le hid (length_step op))
    rw [run, List.foldl_cons, ← run, hrest, hw.validP_step hid, assumed_step hid]
    simp only [List.forall_mem_cons, and_assoc]

/-- The world after `pre`, the registration of a region that assumed `names`, and `post`. -/
def worldAfter (upcase : String → String) (pre : List Op) (names : List String) (post : List Op) :
    World :=
  run upcase {} (pre ++ .register names :: post)

/-- The cell of that region. -/
def cellAfter (upcase : String → String) (pre : List Op) : Nat := (run upcase {} pre).cells.length

/-- The region is valid exactly when nothing has touched it since it was registered. -/
structure ValidityFollows (upcase : String → String) (pre : List Op) (names : List String)
    (post : List Op) : Prop where
  valid_iff : (worldAfter upcase pre names post).validP (cellAfter upcase pre) = true ↔
    ∀ op ∈ post, ¬ op.Touches upcase names
  stays_invalid : (worldAfter upcase pre names post).validP (cellAfter upcase pre) = false →
    ∀ later, (worldAfter upcase pre names (post ++ later)).validP (cellAfter upcase pre) = false
  spares_others : ∀ name, (∀ n ∈ names, upcase n ≠ upcase name.name) →
    (worldAfter upcase pre names (post ++ [.redefine name])).validP (cellAfter upcase pre) =
      (worldAfter upcase pre names post).validP (cellAfter upcase pre)

theorem validP_worldAfter (upcase : String → String) (pre : List Op) (names : List String)
    (post : List Op) :
    (worldAfter upcase pre names post).validP (cellAfter upcase pre) = true ↔
      ∀ op ∈ post, op.Touches upcase names → names = [] ∧ op = .invalidateAll := by
  have hpre : Indexed upcase (run upcase {} pre) := indexed_empty.after_run pre
  have hreg := hpre.registerRegion names
  have hlt : cellAfter upcase pre <
    ((run upcase {} pre).registerRegion upcase names).cells.length := by
    simp [World.registerRegion, cellAfter]
  have hrun := hreg.validP_run hlt post
  rw [cellAfter, assumed_registerRegion_new, validP_registerRegion_new] at hrun
  simpa [worldAfter, cellAfter, run, List.foldl_append, step] using hrun

/-- In every run, a region's validity follows the redefinitions of its names and the
panic switch, unless it assumed no name at all and the switch was used. -/
theorem region_validity_iff (upcase : String → String) (pre : List Op) (names : List String)
    (post : List Op) :
    ValidityFollows upcase pre names post ↔ (names = [] → .invalidateAll ∉ post) := by
  constructor
  · intro hf hnil hall
    have hv := (validP_worldAfter upcase pre names post).mpr fun op _ ht => by
      subst hnil
      cases op with
      | register => exact ht.elim
      | redefine name =>
        obtain ⟨n, hn, -⟩ := ht
        exact absurd hn List.not_mem_nil
      | invalidateAll => exact ⟨rfl, rfl⟩
    exact hf.valid_iff.mp hv _ hall trivial
  · intro hno
    refine ⟨?_, ?_, ?_⟩
    · rw [validP_worldAfter]
      refine forall₂_congr fun op hop => ⟨fun h ht => ?_, fun h ht => absurd ht h⟩
      obtain ⟨hnil, rfl⟩ := h ht
      exact hno hnil hop
    · intro hv later
      rw [← Bool.not_eq_true, validP_worldAfter] at hv ⊢
      exact fun h => hv fun op hop => h op (List.mem_append_left _ hop)
    · intro name hname
      rw [Bool.eq_iff_iff, validP_worldAfter, validP_worldAfter, List.forall_mem_append]
      refine and_iff_left (List.forall_mem_singleton.mpr ?_)
      rintro ⟨n, hn, hk⟩
      exact absurd hk (hname n hn)

/-- A region without assumptions survives the panic switch. -/
theorem region_without_names_survives :
    ¬ ValidityFollows String.toUpper [] [] [.invalidateAll] := by
  intro hf
  have hv : (worldAfter String.toUpper [] [] [.invalidateAll]).validP 0 = true := by rfl
  exact hf.valid_iff.mp hv _ List.mem_cons_self trivial

end Runs

end Fol.Regions
