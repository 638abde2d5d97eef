/-
Fol.Persistence.KeywordCache — `slot-name-from-keyword` of persistence.lisp and its cache of
one entry, while other threads redefine the class.

Every read or write of a slot of the class is a step. `compute-slots` clears the cache before it
installs its keyword map, and a lookup that missed fills the cache with what it found in a map that
may have been replaced in between. Nothing empties the cache after that.
-/
import Fol.Lib.Runs
import Fol.Persistence.Construction

namespace Fol.Persistence.KeywordCache

open Lib Construction

variable {T κ σ : Type}

/-! ## §1 Class -/

section Maps

variable [DecidableEq κ]

/-- One round of the loop of `compute-slots` over the user slots; the newest entry of a key is
first. -/
def mapSlot (keyword : σ → κ) (table : List (κ × σ)) (s : SlotDef σ) : List (κ × σ) :=
  let table := (keyword s.name, s.name) :: table
  match s.aliasName with
  | some a => if (table.lookup (keyword a)).isSome then table else (keyword a, s.name) :: table
  | none => table

def keywordMap (keyword : σ → κ) (slots : List (SlotDef σ)) : List (κ × σ) :=
  slots.foldl (mapSlot keyword) []

end Maps

/-- The slots of the class that a redefinition writes. A cached pair may have NIL for its name. -/
structure ClassSlots (κ σ : Type) where
  slotCount : Nat
  lastKeywordLookup : Option (κ × Option σ)
  slotAliases : List (σ × σ)
  keywordToSlot : List (κ × σ)
  overflowIndices : Option (List (σ × Nat))

/-- The write of `compute-slots` that is next. -/
inductive Stage where
  | slotCount
  | lastKeywordLookup
  | slotAliases
  | keywordToSlot
  | overflowIndices
deriving DecidableEq

/-- Where a thread is: outside, before the read of the cache, before the read of the map, before the
write of the cache, or in `compute-slots` for a layout. -/
inductive Phase (κ σ : Type) where
  | idle
  | looking (keyword : κ)
  | missed (keyword : κ)
  | filling (keyword : κ) (slotName : Option σ)
  | redefining (layout : Layout σ) (stage : Stage)

structure State (T κ σ : Type) where
  cls : ClassSlots κ σ
  phase : T → Phase κ σ := fun _ => .idle

inductive Label (T κ σ : Type) where
  | lookup (t : T) (keyword : κ)
  | redefine (t : T) (layout : Layout σ)
  | advance (t : T)

/-! ## §2 Steps -/

section Steps

variable [DecidableEq T] [DecidableEq κ] (keyword : σ → κ)

/-- The thread goes on to another phase, and the class is as given. -/
def State.goes (s : State T κ σ) (t : T) (p : Phase κ σ) (cls : ClassSlots κ σ) : State T κ σ :=
  { cls := cls, phase := Function.update s.phase t p }

/-- The next write of `compute-slots`. -/
def compute (s : State T κ σ) (t : T) (l : Layout σ) : Stage → State T κ σ
  | .slotCount =>
    s.goes t (.redefining l .lastKeywordLookup) { s.cls with slotCount := l.slots.length }
  | .lastKeywordLookup =>
    s.goes t (.redefining l .slotAliases) { s.cls with lastKeywordLookup := none }
  | .slotAliases => s.goes t (.redefining l .keywordToSlot) { s.cls with slotAliases := l.aliases }
  | .keywordToSlot =>
    s.goes t (if l.slots.length ≤ nativeSlotLimit then .idle else .redefining l .overflowIndices)
      { s.cls with keywordToSlot := keywordMap keyword l.slots }
  | .overflowIndices => s.goes t .idle { s.cls with overflowIndices := some l.overflowIndices }

/-- The cached pair is of the keyword. -/
def hit (cls : ClassSlots κ σ) (k : κ) : Option (Option σ) :=
  match cls.lastKeywordLookup with
  | some (cached, slotName) => if cached = k then some slotName else none
  | none => none

/-- The next step of a thread. -/
def advance (s : State T κ σ) (t : T) : Option (State T κ σ) :=
  match s.phase t with
  | .idle => none
  | .looking k =>
    match hit s.cls k with
    | some _ => some (s.goes t .idle s.cls)
    | none => some (s.goes t (.missed k) s.cls)
  | .missed k => some (s.goes t (.filling k (s.cls.keywordToSlot.lookup k)) s.cls)
  | .filling k slotName =>
      some (s.goes t .idle { s.cls with lastKeywordLookup := some (k, slotName) })
  | .redefining l stage => some (compute keyword s t l stage)

/-- A thread outside of both begins a lookup or a redefinition; one that is in one goes on. -/
def step (s : State T κ σ) : Label T κ σ → Option (State T κ σ)
  | .lookup t k =>
    match s.phase t with
    | .idle => some (s.goes t (.looking k) s.cls)
    | _ => none
  | .redefine t l =>
    match s.phase t with
    | .idle => some (s.goes t (.redefining l .slotCount) s.cls)
    | _ => none
  | .advance t => advance keyword s t

/-- The keyword of a lookup and what it will return, at the step that reads this from the class. -/
def answer (s : State T κ σ) : Label T κ σ → Option (κ × Option σ)
  | .advance t =>
    match s.phase t with
    | .looking k => (hit s.cls k).map (k, ·)
    | .missed k => some (k, s.cls.keywordToSlot.lookup k)
    | _ => none
  | _ => none

/-! ## §3 Runs -/

/-- What the step reads for its answer is what the class's keyword map gives. -/
def UpToDate [DecidableEq σ] (s : State T κ σ) (l : Label T κ σ) : Prop :=
  (answer s l).all fun a => s.cls.keywordToSlot.lookup a.1 == a.2

instance [DecidableEq σ] (s : State T κ σ) (l : Label T κ σ) : Decidable (UpToDate s l) :=
  inferInstanceAs (Decidable (_ = true))

/-- A redefinition has cleared the cache and is still to install its map. -/
def Pending (s : State T κ σ) (t : T) (l : Layout σ) : Prop :=
  s.phase t = .redefining l .slotAliases ∨ s.phase t = .redefining l .keywordToSlot

/-- The map of the class gives the name for the keyword, and so does every map that is pending. -/
def Agreed (s : State T κ σ) (k : κ) (slotName : Option σ) : Prop :=
  s.cls.keywordToSlot.lookup k = slotName ∧
    ∀ t l, Pending s t l → (keywordMap keyword l.slots).lookup k = slotName

/-- A lookup fills the cache only with a name on which the maps agree. -/
def FillsAgreed (s : State T κ σ) : Label T κ σ → Prop
  | .advance t =>
    match s.phase t with
    | .filling k slotName => Agreed keyword s k slotName
    | _ => True
  | _ => True

/-- The cached pair is one on which the maps agree. -/
def Inv (s : State T κ σ) : Prop :=
  ∀ k slotName, s.cls.lastKeywordLookup = some (k, slotName) → Agreed keyword s k slotName

variable {keyword}

omit [DecidableEq κ] in
theorem pending_goes {s : State T κ σ} {t u : T} {p : Phase κ σ} {cls : ClassSlots κ σ}
    {l : Layout σ} (h : Pending (s.goes t p cls) u l) :
    Pending s u l ∨
    (u = t ∧ (p = .redefining l .slotAliases ∨ p = .redefining l .keywordToSlot)) := by
  simp only [Pending, State.goes] at h
  by_cases hu : u = t
  · subst hu
    simp only [Function.update_self] at h
    exact .inr ⟨rfl, h⟩
  · simp only [Function.update_of_ne hu] at h
    exact .inl h

/-- A step that changes neither the map nor the cache, and brings no map that is not pending. -/
theorem Inv.goes {s : State T κ σ} (h : Inv keyword s) {t : T} {p : Phase κ σ}
    {cls : ClassSlots κ σ} (hmap : cls.keywordToSlot = s.cls.keywordToSlot)
    (hcache : cls.lastKeywordLookup = s.cls.lastKeywordLookup)
    (hp : ∀ l, (p = .redefining l .slotAliases ∨ p = .redefining l .keywordToSlot) →
      Pending s t l) :
    Inv keyword (s.goes t p cls) := by
  intro k slotName hk
  have hold : s.cls.lastKeywordLookup = some (k, slotName) := hcache.symm.trans hk
  obtain ⟨hlookup, hpending⟩ := h k slotName hold
  refine ⟨?_, fun u l hu => ?_⟩
  · show cls.keywordToSlot.lookup k = slotName
    rw [hmap, hlookup]
  · rcases pending_goes hu with hold | ⟨rfl, hnew⟩
    · exact hpending u l hold
    · exact hpending u l (hp l hnew)

/-- A write of `compute-slots`. -/
theorem Inv.compute {s : State T κ σ} (h : Inv keyword s) {t : T} {l : Layout σ} {stage : Stage}
    (hphase : s.phase t = .redefining l stage) : Inv keyword (compute keyword s t l stage) := by
  cases stage with
  | slotCount => exact h.goes rfl rfl (by simp)
  | lastKeywordLookup =>
    intro k slotName hk
    cases hk
  | slotAliases =>
    refine h.goes rfl rfl fun l' hl' => .inl ?_
    simp only [Phase.redefining.injEq, reduceCtorEq, and_false, and_true, false_or] at hl'
    rw [hphase, hl']
  | keywordToSlot =>
    intro k slotName hk
    obtain ⟨-, hpending⟩ := h k slotName hk
    refine ⟨hpending t l (.inr hphase), fun u l' hu => ?_⟩
    rcases pending_goes hu with hu | ⟨-, hu⟩
    · exact hpending u l' hu
    · split at hu
      · simp at hu
      · simp at hu
  | overflowIndices => exact h.goes rfl rfl (by simp)

/-- The step lemma. -/
theorem Inv.step {s s' : State T κ σ} {a : Label T κ σ} (h : Inv keyword s)
    (hfills : FillsAgreed keyword s a) (hstep : step keyword s a = some s') : Inv keyword s' := by
  cases a with
  | lookup t k =>
    simp only [KeywordCache.step] at hstep
    split at hstep
    · cases hstep
      exact h.goes rfl rfl (by simp)
    · cases hstep
  | redefine t l =>
    simp only [KeywordCache.step] at hstep
    split at hstep
    · cases hstep
      exact h.goes rfl rfl (by simp)
    · cases hstep
  | advance t =>
    simp only [KeywordCache.step, KeywordCache.advance] at hstep
    cases hphase : s.phase t with
    | idle => simp [hphase] at hstep
    | looking k =>
      simp only [hphase] at hstep
      split at hstep
      · cases hstep
        exact h.goes rfl rfl (by simp)
      · cases hstep
        exact h.goes rfl rfl (by simp)
    | missed k =>
      simp only [hphase, Option.some.injEq] at hstep
      subst hstep
      exact h.goes rfl rfl (by simp)
    | filling k slotName =>
      simp only [hphase, Option.some.injEq] at hstep
      subst hstep
      simp only [FillsAgreed, hphase] at hfills
      intro k' slotName' hk'
      cases hk'
      refine ⟨hfills.1, fun u l hu => ?_⟩
      rcases pending_goes hu with hu | ⟨-, hu⟩
      · exact hfills.2 u l hu
      · simp at hu
    | redefining l stage =>
      simp only [hphase, Option.some.injEq] at hstep
      subst hstep
      exact h.compute hphase

omit [DecidableEq T] in
/-- Under the invariant, a hit answers what the map gives. -/
theorem Inv.upToDate [DecidableEq σ] {s : State T κ σ} (h : Inv keyword s) (a : Label T κ σ) :
    UpToDate s a := by
  cases a with
  | lookup t k => rfl
  | redefine t l => rfl
  | advance t =>
    cases hphase : s.phase t with
    | looking k =>
      cases hcache : s.cls.lastKeywordLookup with
      | none => simp [UpToDate, answer, hphase, hit, hcache]
      | some pair =>
        obtain ⟨cached, slotName⟩ := pair
        by_cases hk : cached = k
        · subst hk
          have hlookup := (h cached slotName hcache).1
          simp [UpToDate, answer, hphase, hit, hcache, hlookup]
        · simp [UpToDate, answer, hphase, hit, hcache, hk]
    | _ => simp [UpToDate, answer, hphase]

/-! ## §4 Result -/

/-- In a run from a class with an empty cache, if no lookup fills the cache with a name other than
what the class's map and every map about to be installed give, every lookup answers what the class's
map gives when it reads its answer. -/
theorem cache_never_stale [DecidableEq σ] {cls : ClassSlots κ σ}
    (hempty : cls.lastKeywordLookup = none)
    {run : List (Label T κ σ × State T κ σ)}
    (hrun : IsRun (fun s a s' => step keyword s a = some s') { cls := cls } run)
    (hfills : EachStep (FillsAgreed keyword) { cls := cls } run) :
    EachStep (UpToDate (σ := σ)) { cls := cls } run := by
  have hall : ∀ (run : List (Label T κ σ × State T κ σ)) (s : State T κ σ), Inv keyword s →
      IsRun (fun s a s' => step keyword s a = some s') s run →
      EachStep (FillsAgreed keyword) s run → EachStep (UpToDate (σ := σ)) s run := by
    intro run
    induction run with
    | nil => exact fun _ _ _ _ => trivial
    | cons p run ih =>
      intro s hs hrun hfills
      exact ⟨hs.upToDate p.1, ih p.2 (hs.step hfills.1 hrun.1) hrun.2 hfills.2⟩
  refine hall run _ (fun k slotName hk => ?_) hrun hfills
  rw [hempty] at hk
  cases hk

end Steps

/-- A class with the one slot `a`. -/
def singleSlot : ClassSlots Char Char where
  slotCount := 1
  lastKeywordLookup := none
  slotAliases := []
  keywordToSlot := keywordMap id [⟨'a', none⟩]
  overflowIndices := none

/-- The slot is renamed to `b`, with `a` for an alias. -/
def renamed : Layout Char where
  slots := [⟨'b', some 'a'⟩]
  nodup := by decide

/-- The steps of `compute-slots` for a class without overflow slots. -/
def redefinition (t : Bool) (l : Layout Char) : List (Label Bool Char Char) :=
  [.redefine t l, .advance t, .advance t, .advance t, .advance t]

/-- A lookup fills the cache before the redefinition, which clears it, and another one reads the new
map. -/
theorem cache_never_stale_renamed :
    EachStep UpToDate { cls := singleSlot } (trace (step id) { cls := singleSlot }
      ([.lookup true 'a', .advance true, .advance true, .advance true] ++
        redefinition false renamed ++
        [.lookup true 'a', .advance true, .advance true])) := by
  refine cache_never_stale rfl (trace_isRun (step id) _ _) ?_
  refine ⟨trivial, trivial, trivial, ⟨rfl, fun t l hl => ?_⟩, trivial, trivial, trivial, trivial,
    trivial, trivial, trivial, trivial, trivial⟩
  cases t with
  | false => rcases hl with hl | hl <;> cases hl
  | true => rcases hl with hl | hl <;> cases hl

/-- A lookup reads the map, the class is redefined, and the lookup fills the cache with what it
read. -/
def refilled : List (Label Bool Char Char) :=
  [.lookup true 'a', .advance true, .advance true] ++ redefinition false renamed ++ [.advance true]

/-- No thread is in a lookup or in a redefinition any more. -/
def afterRefill : State Bool Char Char :=
  final { cls := singleSlot } (trace (step id) { cls := singleSlot } refilled)

/-- A lookup that begins then returns a slot that the class no longer has. -/
theorem removed_slot_found :
    (trace (step id) { cls := singleSlot } refilled).length = refilled.length ∧
      (∀ t, afterRefill.phase t = .idle) ∧ afterRefill.cls.keywordToSlot.lookup 'a' = some 'b' ∧
      (trace (step id) afterRefill [.lookup true 'a', .advance true]).length = 2 ∧
      ¬ EachStep UpToDate afterRefill
      (trace (step id) afterRefill [.lookup true 'a', .advance true]) := by
  refine ⟨rfl, fun t => ?_, rfl, rfl, by decide⟩
  cases t with
  | false => rfl
  | true => rfl

end Fol.Persistence.KeywordCache
