/-
Fol.Stm.Transaction — refs and transactions of `mutable.lisp`.

A transaction buffers its writes and commutes and remembers the versions it read; `%try-commit`
validates the versions, replays the commutes on the write set, asks the validators, and then
writes ref after ref, calling the watches of each before the next is written.

User code (functions given to `alter` and `commute`, validators, watches) is arbitrary and may
signal an error instead of returning.
-/
import Fol.Lib.Table

namespace Fol.Stm

open Fol.Lib

/-! ## §1 Refs -/

/-- The slots of a `<ref>` that transactions change. -/
structure Ref (V : Type) where
  value : V
  version : Nat := 0
deriving DecidableEq

abbrev Store (R V : Type) := R → Ref V

/-- The functions of a `<ref>`. The key and the ref a watch is called with are its own. -/
structure Hooks (V E : Type) where
  validator : Option (V → Except E Bool) := none
  watches : List (V → V → Except E Unit) := []

/-- The argument of `alter` and `commute`, with its further arguments. -/
abbrev Fn (V E : Type) := V → Except E V

/-- `transaction`. -/
structure Txn (R V E : Type) [DecidableEq R] where
  readSet : Table R Nat := {}
  writeSet : Table R V := {}
  commuteSet : Table R (List (Fn V E)) := {}
  ensureSet : Table R Nat := {}

section

variable {R V E : Type} [DecidableEq R]

/-! ## §2 Operations -/

section

variable (σ : Store R V) (t : Txn R V E) (r : R)

/-- The version is remembered at the first access. -/
def noteVersion (table : Table R Nat) : Table R Nat :=
  if (table.get r).isSome then table else table.set r (σ r).version

def deref : V × Txn R V E :=
  match t.writeSet.get r with
  | some v => (v, t)
  | none => ((σ r).value, { t with readSet := noteVersion σ r t.readSet })

def refSet (v : V) : V × Txn R V E := (v, { t with writeSet := t.writeSet.set r v })

def alter (f : Fn V E) : Except E (V × Txn R V E) := do
  let (current, t) := deref σ t r
  let v ← f current
  pure (v, { t with writeSet := t.writeSet.set r v })

/-- The function is pushed, so the last commute of a ref comes first. -/
def commute (f : Fn V E) : Except E (V × Txn R V E) := do
  let t := { t with commuteSet := t.commuteSet.set r (f :: (t.commuteSet.get r).getD []) }
  let (current, t) := deref σ t r
  let v ← f current
  pure (v, t)

def ensure : V × Txn R V E := deref σ { t with ensureSet := noteVersion σ r t.ensureSet } r

end

/-! ## §3 Commit -/

inductive Failure (V E : Type) where
  | signalled (e : E)
  | rejected (v : V)
deriving DecidableEq

/-- `%try-commit` returns `t`, returns `nil`, or exits by an error. -/
inductive Outcome (V E : Type) where
  | committed
  | conflict
  | failed (e : Failure V E)
deriving DecidableEq

/-- Phases 2 and 3: every version is the one remembered. -/
def unchanged (σ : Store R V) (table : Table R Nat) : Bool :=
  table.entries.all fun p => p.2 = (σ p.1).version

def unchangedAll (σ : Store R V) (t : Txn R V E) : Bool :=
  unchanged σ t.readSet && unchanged σ t.ensureSet

/-- The functions of one ref, the oldest first. -/
def replay (fs : List (Fn V E)) (v : V) : Except E V := fs.reverse.foldlM (fun v f => f v) v

/-- Phase 4 for one ref. -/
def applyCommute (σ : Store R V) (writes : Table R V) (p : R × List (Fn V E)) :
    Except E (Table R V) := do
  let v ← replay p.2 ((writes.get p.1).getD (σ p.1).value)
  pure (writes.set p.1 v)

/-- Phase 4. -/
def applyCommutes (σ : Store R V) (t : Txn R V E) : Except E (Table R V) :=
  t.commuteSet.entries.foldlM (applyCommute σ) t.writeSet

def checkValue (hooks : Hooks V E) (v : V) : Except (Failure V E) Unit :=
  match hooks.validator with
  | none => .ok ()
  | some p =>
    match p v with
    | .error e => .error (.signalled e)
    | .ok true => .ok ()
    | .ok false => .error (.rejected v)

/-- Phase 5. -/
def validate (refs : R → Hooks V E) (writes : Table R V) : Except (Failure V E) Unit :=
  writes.entries.forM fun p => checkValue (refs p.1) p.2

def notifyWatches (hooks : Hooks V E) (old new : V) : Except E Unit :=
  hooks.watches.forM fun w => w old new

def write (σ : Store R V) (r : R) (v : V) : Store R V :=
  fun r' => if r' = r then { value := v, version := (σ r).version + 1 } else σ r'

/-- Phase 6. -/
def writeAll (refs : R → Hooks V E) : List (R × V) → Store R V → Store R V × Except E Unit
  | [], σ => (σ, .ok ())
  | (r, v) :: ws, σ =>
    match notifyWatches (refs r) (σ r).value v with
    | .error e => (write σ r v, .error e)
    | .ok () => writeAll refs ws (write σ r v)

/-- `%try-commit`, under all its locks. -/
def tryCommit (refs : R → Hooks V E) (σ : Store R V) (t : Txn R V E) : Store R V × Outcome V E :=
  if unchangedAll σ t then
    match applyCommutes σ t with
    | .error e => (σ, .failed (.signalled e))
    | .ok writes =>
      match validate refs writes with
      | .error e => (σ, .failed e)
      | .ok () =>
        match writeAll refs writes.entries σ with
        | (σ', .error e) => (σ', .failed (.signalled e))
        | (σ', .ok ()) => (σ', .committed)
  else (σ, .conflict)

/-! ## §4 Atomicity -/

/-- The store after all writes. -/
def written (σ : Store R V) (writes : Table R V) : Store R V := fun r =>
  match writes.get r with
  | some v => { value := v, version := (σ r).version + 1 }
  | none => σ r

theorem written_value (σ : Store R V) (writes : Table R V) (r : R) :
    (written σ writes r).value = (writes.get r).getD (σ r).value := by
  rw [written.eq_def]
  cases writes.get r <;> rfl

/-- The commit gets as far as writing, with these writes. -/
structure Writes (refs : R → Hooks V E) (σ : Store R V) (t : Txn R V E) (writes : Table R V) :
    Prop where
  unchanged : unchangedAll σ t = true
  commutes : applyCommutes σ t = .ok writes
  valid : validate refs writes = .ok ()

/-- No watch signals an error while the commit writes. -/
def Quiet (refs : R → Hooks V E) (σ : Store R V) (t : Txn R V E) : Prop :=
  ∀ writes, Writes refs σ t writes → ∀ p ∈ writes.entries,
    notifyWatches (refs p.1) (σ p.1).value p.2 = .ok ()

theorem write_same (σ : Store R V) (r : R) (v : V) :
    write σ r v r = { value := v, version := (σ r).version + 1 } := if_pos rfl

theorem write_other (σ : Store R V) {r r' : R} (v : V) (h : r' ≠ r) :
    write σ r v r' = σ r' := if_neg h

/-- Every ref is as it was or has a later version. -/
def Advances (σ σ' : Store R V) : Prop := ∀ r, σ' r = σ r ∨ (σ r).version < (σ' r).version

omit [DecidableEq R] in
theorem Advances.refl (σ : Store R V) : Advances σ σ := fun _ => .inl rfl

omit [DecidableEq R] in
theorem Advances.le {σ σ' : Store R V} (h : Advances σ σ') (r : R) :
    (σ r).version ≤ (σ' r).version := by
  rcases h r with heq | hlt
  · exact Nat.le_of_eq (congrArg Ref.version heq).symm
  · exact Nat.le_of_lt hlt

omit [DecidableEq R] in
theorem Advances.trans {σ σ' σ'' : Store R V} (h : Advances σ σ') (h' : Advances σ' σ'') :
    Advances σ σ'' := by
  intro r
  rcases h r with heq | hlt
  · exact heq ▸ h' r
  · exact .inr (Nat.lt_of_lt_of_le hlt (h'.le r))

theorem write_advances (σ : Store R V) (r : R) (v : V) : Advances σ (write σ r v) := by
  intro r'
  by_cases hr : r' = r
  · subst hr
    rw [write_same]
    exact .inr (Nat.lt_succ_self _)
  · exact .inl (write_other σ v hr)

theorem writeAll_advances (refs : R → Hooks V E) (ws : List (R × V)) (σ : Store R V) :
    Advances σ (writeAll refs ws σ).1 := by
  induction ws generalizing σ with
  | nil => exact .refl σ
  | cons p ws ih =>
    rw [writeAll]
    split
    · exact write_advances σ p.1 p.2
    · exact (write_advances σ p.1 p.2).trans (ih _)

/-- A write that is interrupted has changed a version. -/
theorem writeAll_interrupted {refs : R → Hooks V E} {ws : List (R × V)} {σ : Store R V} {e : E}
    (h : (writeAll refs ws σ).2 = .error e) : (writeAll refs ws σ).1 ≠ σ := by
  cases ws with
  | nil => exact nomatch h
  | cons p ws =>
    obtain ⟨r, v⟩ := p
    intro heq
    have hafter : Advances (write σ r v) (writeAll refs ((r, v) :: ws) σ).1 := by
      rw [writeAll]
      split
      · exact .refl _
      · exact writeAll_advances refs ws _
    have hbumped := hafter.le r
    rw [heq, write_same] at hbumped
    exact absurd hbumped (Nat.not_succ_le_self _)

/-- With all watches returning, every ref is written. -/
theorem writeAll_quiet {refs : R → Hooks V E} {ws : List (R × V)} (σ : Store R V)
    (hws : Distinct ws) (hquiet : ∀ p ∈ ws, notifyWatches (refs p.1) (σ p.1).value p.2 = .ok ()) :
    writeAll refs ws σ = (fun r => ((lookup r ws).map fun v => ⟨v, (σ r).version + 1⟩).getD (σ r),
      .ok ()) := by
  induction ws generalizing σ with
  | nil => rfl
  | cons p ws ih =>
    obtain ⟨r, v⟩ := p
    obtain ⟨hhead, htail⟩ := List.pairwise_cons.mp hws
    obtain ⟨hfirst, hrest⟩ := List.forall_mem_cons.mp hquiet
    have hother (p : R × V) (hp : p ∈ ws) : p.1 ≠ r := (ne_of_beq_false (hhead p hp)).symm
    have hrest' : ∀ p ∈ ws, notifyWatches (refs p.1) (write σ r v p.1).value p.2 = .ok () := by
      intro p hp
      rw [write_other σ v (hother p hp)]
      exact hrest p hp
    rw [writeAll]
    simp only [hfirst, ih (write σ r v) htail hrest', Prod.mk.injEq, and_true]
    funext r'
    by_cases hr : r' = r
    · subst hr
      have hnone : lookup r' ws = none := by
        rw [lookup_eq_none_iff, bound_eq_false_iff]
        intro p hp
        simpa using hother p hp
      rw [hnone, lookup_cons_pos _ (by simp)]
      simp [write_same]
    · rw [lookup_cons_neg _ (beq_false_of_ne (Ne.symm hr)), write_other σ v hr]

/-- All watches return if the writes end without an error. -/
theorem quiet_of_writeAll {refs : R → Hooks V E} {ws : List (R × V)} {σ : Store R V}
    (hws : Distinct ws) (h : (writeAll refs ws σ).2 = .ok ()) :
    ∀ p ∈ ws, notifyWatches (refs p.1) (σ p.1).value p.2 = .ok () := by
  induction ws generalizing σ with
  | nil => exact fun p hp => nomatch hp
  | cons p ws ih =>
    obtain ⟨r, v⟩ := p
    obtain ⟨hhead, htail⟩ := List.pairwise_cons.mp hws
    rw [writeAll] at h
    split at h
    next => exact nomatch h
    next hfirst =>
      intro p hp
      rcases List.mem_cons.mp hp with rfl | hp
      · exact hfirst
      · have hne : p.1 ≠ r := (ne_of_beq_false (hhead p hp)).symm
        have hrest := ih htail h p hp
        rwa [write_other σ v hne] at hrest

/-- What `%try-commit` does, by how far it gets. -/
theorem tryCommit_cases (refs : R → Hooks V E) (σ : Store R V) (t : Txn R V E) :
    (∃ writes, Writes refs σ t writes ∧ Quiet refs σ t ∧
        tryCommit refs σ t = (written σ writes, .committed)) ∨
    (∃ writes e, Writes refs σ t writes ∧ ¬ Quiet refs σ t ∧ (tryCommit refs σ t).1 ≠ σ ∧
        (tryCommit refs σ t).2 = .failed (.signalled e)) ∨
    ((∀ writes, ¬ Writes refs σ t writes) ∧ (tryCommit refs σ t).1 = σ ∧
        (tryCommit refs σ t).2 ≠ .committed) := by
  rw [tryCommit]
  by_cases hunchanged : unchangedAll σ t = true
  · simp only [hunchanged, if_true]
    cases hcommutes : applyCommutes σ t with
    | error e =>
      refine .inr (.inr ⟨fun writes hw => ?_, rfl, by simp⟩)
      exact absurd (hcommutes.symm.trans hw.commutes) (by simp)
    | ok writes =>
      have hunique (writes') (hw : Writes refs σ t writes') : writes' = writes :=
        Except.ok.inj (hw.commutes.symm.trans hcommutes)
      simp only
      cases hvalid : validate refs writes with
      | error e =>
        refine .inr (.inr ⟨fun writes' hw => ?_, rfl, by simp⟩)
        obtain rfl := hunique writes' hw
        exact absurd (hvalid.symm.trans hw.valid) (by simp)
      | ok u =>
        have hw : Writes refs σ t writes := ⟨hunchanged, hcommutes, hvalid⟩
        simp only
        rcases hresult : writeAll refs writes.entries σ with ⟨σ', _ | _⟩
        · refine .inr (.inl ⟨writes, _, hw, fun hquiet => ?_, ?_, rfl⟩)
          · rw [writeAll_quiet σ writes.distinct (hquiet writes hw)] at hresult
            simp at hresult
          · have hchanged := writeAll_interrupted (congrArg Prod.snd hresult)
            rwa [hresult] at hchanged
        · have hquiet := quiet_of_writeAll writes.distinct (congrArg Prod.snd hresult)
          refine .inl ⟨writes, hw, fun writes' hw' => hunique writes' hw' ▸ hquiet, ?_⟩
          rw [writeAll_quiet σ writes.distinct hquiet] at hresult
          obtain ⟨rfl, -⟩ := Prod.mk.inj hresult
          simp only [Prod.mk.injEq, and_true]
          funext r
          rw [written, Table.get]
          cases lookup r writes.entries <;> rfl
  · simp only [hunchanged]
    exact .inr (.inr ⟨fun writes hw => hunchanged hw.unchanged, rfl, by simp⟩)

theorem tryCommit_advances (refs : R → Hooks V E) (σ : Store R V) (t : Txn R V E) :
    Advances σ (tryCommit refs σ t).1 := by
  rw [tryCommit]
  split
  · split
    · exact .refl σ
    · split
      · exact .refl σ
      · split
        next heq => exact congrArg Prod.fst heq ▸ writeAll_advances refs _ σ
        next heq => exact congrArg Prod.fst heq ▸ writeAll_advances refs _ σ
  · exact .refl σ

/-- A conflict is a version that has changed. -/
theorem tryCommit_conflict (refs : R → Hooks V E) (σ : Store R V) (t : Txn R V E) :
    (tryCommit refs σ t).2 = .conflict ↔ unchangedAll σ t = false := by
  rw [tryCommit]
  cases hunchanged : unchangedAll σ t with
  | false => simp
  | true =>
    simp only [if_true, Bool.true_eq_false, iff_false]
    repeat' split
    all_goals exact fun h => nomatch h

/-- What a commit promises: `t` if every ref of the write set has its new value and one version
more, and otherwise nothing has changed. -/
structure AllOrNothing (refs : R → Hooks V E) (σ : Store R V) (t : Txn R V E) : Prop where
  all : (tryCommit refs σ t).2 = .committed →
    ∃ writes, applyCommutes σ t = .ok writes ∧ (tryCommit refs σ t).1 = written σ writes
  nothing : (tryCommit refs σ t).2 ≠ .committed → (tryCommit refs σ t).1 = σ

/-- Only the watches can break a commit. -/
theorem commit_atomic_iff (refs : R → Hooks V E) (σ : Store R V) (t : Txn R V E) :
    AllOrNothing refs σ t ↔ Quiet refs σ t := by
  rcases tryCommit_cases refs σ t with ⟨writes, hw, hquiet, hcommit⟩ |
    ⟨writes, e, -, hnoisy, hchanged, hfailed⟩ | ⟨hnone, hsame, hne⟩
  · refine iff_of_true ⟨fun _ => ⟨writes, hw.commutes, ?_⟩, fun hne => ?_⟩ hquiet
    · rw [hcommit]
    · exact absurd (congrArg Prod.snd hcommit) hne
  · refine iff_of_false (fun h => hchanged (h.nothing ?_)) hnoisy
    rw [hfailed]
    exact fun h => nomatch h
  · exact iff_of_true ⟨fun h => absurd h hne, fun _ => hsame⟩ fun writes hw =>
      absurd hw (hnone writes)

end

/-- Two refs, the first with a watch that signals an error. -/
def watchedRefs : Nat → Hooks Nat Unit
  | 0 => { watches := [fun _ _ => .error ()] }
  | _ => {}

def writesBoth : Txn Nat Nat Unit := ((refSet (refSet {} 0 10).2 1 20).2)

/-- The first ref is written, the second is not. -/
theorem watch_breaks_commit : ¬ AllOrNothing watchedRefs (fun _ => ⟨0, 0⟩) writesBoth := by
  intro h
  have hsame := h.nothing (by decide)
  exact absurd (congrFun hsame 0) (by decide)

end Fol.Stm
