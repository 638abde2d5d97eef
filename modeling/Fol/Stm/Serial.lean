/-
Fol.Stm.Serial — transactions interleaved with each other: what their commits amount to.

A transaction that could commit now has read nothing but present values, whatever happened
since it began: its versions were noted at the first access and no commit leaves a version as it
is (`Consistent`). So the commit replays the transaction from the store it finds, and the
history replays from the first store, as long as no watch breaks a commit.

  §1 Machine — `Attempt`, `State`, `Action`, `step`.
  §2 Replay  — `Replays`, `Serial`.
  §3 Reads   — `Consistent` and the steps that keep it.
  §4 Claims  — `serializable_iff`.
-/
import Fol.Lib.Runs
import Fol.Stm.Alone

namespace Fol.Stm

open Fol.Lib

variable {T R V E : Type} [DecidableEq T] [DecidableEq R]

/-! ## §1 Machine -/

/-- An operation of a transaction with the value it returned. -/
abbrev Logged (R V E : Type) := Op R V E × V

abbrev Log (R V E : Type) := List (Logged R V E)

def Log.ops (l : Log R V E) : List (Op R V E) := l.map (·.1)

def Log.vals (l : Log R V E) : List V := l.map (·.2)

/-- A transaction in progress. A `dosync` that finds a conflict begins another. -/
structure Attempt (R V E : Type) [DecidableEq R] where
  txn : Txn R V E := {}
  log : Log R V E := []

structure State (T R V E : Type) [DecidableEq R] where
  store : Store R V
  active : T → Option (Attempt R V E) := fun _ => none
  committed : List (Log R V E) := []

def State.setActive (s : State T R V E) (i : T) (a : Option (Attempt R V E)) : State T R V E :=
  { s with active := fun j => if j = i then a else s.active j }

/-- What a thread does next. The body of a transaction may `leave` at any time by an error. -/
inductive Action (T R V E : Type) where
  | start (i : T)
  | op (i : T) (o : Op R V E)
  | commit (i : T)
  | leave (i : T)

/-- The state after a commit, by its outcome. -/
def State.finish (s : State T R V E) (i : T) (a : Attempt R V E) (σ : Store R V) :
    Outcome V E → State T R V E
  | .committed => { s.setActive i none with store := σ, committed := s.committed ++ [a.log] }
  | _ => { s.setActive i none with store := σ }

/-- A step, if the thread can make it. An operation that signals an error leaves the transaction. -/
def step (refs : R → Hooks V E) (s : State T R V E) : Action T R V E → Option (State T R V E)
  | .start i =>
    match s.active i with
    | some _ => none
    | none => some (s.setActive i (some {}))
  | .op i o => (s.active i).map fun a =>
    match a.txn.exec s.store o with
    | .error _ => s.setActive i none
    | .ok (v, t) => s.setActive i (some { txn := t, log := a.log ++ [(o, v)] })
  | .commit i => (s.active i).map fun a =>
    s.finish i a (tryCommit refs s.store a.txn).1 (tryCommit refs s.store a.txn).2
  | .leave i => (s.active i).map fun _ => s.setActive i none

/-- The steps as a relation, for runs. -/
def Steps (refs : R → Hooks V E) (s : State T R V E) (a : Action T R V E) (s' : State T R V E) :
    Prop :=
  step refs s a = some s'

/-! ## §2 Replay -/

/-- The operation sets the ref in the write set. -/
def Op.sets (r : R) : Op R V E → Bool
  | .refSet r' _ => r' = r
  | .alter r' _ => r' = r
  | _ => false

def Log.writes (l : Log R V E) (r : R) : Bool :=
  l.ops.any (fun op => op.sets r) || !(commutesOf r l.ops).isEmpty

/-- The refs that were written have their values and one version more. -/
def Log.store (l : Log R V E) (σ : Store R V) (x : Vars R V) : Store R V := fun r =>
  if l.writes r then ⟨x r, (σ r).version + 1⟩ else σ r

/-- A transaction on plain variables: its operations return what they did. -/
def PlainReplays (σ : Store R V) (l : Log R V E) (σ' : Store R V) : Prop :=
  ∃ x : Vars R V, run plain (values σ) l.ops = .ok (l.vals, x) ∧ σ' = l.store σ x

/-- The same with its commutes at the end. -/
def Replays (σ : Store R V) (l : Log R V E) (σ' : Store R V) : Prop :=
  ∃ x y : Vars R V, run deferred (values σ) l.ops = .ok (l.vals, x) ∧
    (∀ r, applyAll (commutesOf r l.ops) (x r) = .ok (y r)) ∧ σ' = l.store σ y

/-- The transactions one after the other. -/
def Serial (replays : Store R V → Log R V E → Store R V → Prop) (σ : Store R V) :
    List (Log R V E) → Store R V → Prop
  | [], σ' => σ' = σ
  | l :: ls, σ' => ∃ mid, replays σ l mid ∧ Serial replays mid ls σ'

theorem Replays.unique {σ σ₁ σ₂ : Store R V} {l : Log R V E} (h₁ : Replays σ l σ₁)
    (h₂ : Replays σ l σ₂) :
    σ₁ = σ₂ := by
  obtain ⟨x, y, hrun, hy, hσ⟩ := h₁
  obtain ⟨x', y', hrun', hy', hσ'⟩ := h₂
  obtain ⟨-, rfl⟩ := Prod.mk.inj (Except.ok.inj (hrun.symm.trans hrun'))
  have hvars : y = y' := funext fun r => Except.ok.inj ((hy r).symm.trans (hy' r))
  rw [hσ, hσ', hvars]

theorem Serial.unique {σ σ₁ σ₂ : Store R V} {ls : List (Log R V E)} (h₁ : Serial Replays σ ls σ₁)
    (h₂ : Serial Replays σ ls σ₂) : σ₁ = σ₂ := by
  induction ls generalizing σ with
  | nil => exact h₁.trans h₂.symm
  | cons l ls ih =>
    obtain ⟨mid, hl, hls⟩ := h₁
    obtain ⟨mid', hl', hls'⟩ := h₂
    obtain rfl := hl.unique hl'
    exact ih hls hls'

omit [DecidableEq R] in
theorem Serial.snoc {replays : Store R V → Log R V E → Store R V → Prop} {σ σ' σ'' : Store R V}
    {ls : List (Log R V E)} {l : Log R V E} (h : Serial replays σ ls σ') (hl : replays σ' l σ'') :
    Serial replays σ (ls ++ [l]) σ'' := by
  induction ls generalizing σ with
  | nil =>
    obtain rfl : σ' = σ := h
    exact ⟨σ'', hl, rfl⟩
  | cons l' ls ih =>
    obtain ⟨mid, hl', hls⟩ := h
    exact ⟨mid, hl', ih hls⟩

omit [DecidableEq R] in
theorem Serial.congr {replays replays' : Store R V → Log R V E → Store R V → Prop}
    {σ σ' : Store R V} {ls : List (Log R V E)}
    (h : ∀ l ∈ ls, ∀ σ σ', replays σ l σ' ↔ replays' σ l σ') :
    Serial replays σ ls σ' ↔ Serial replays' σ ls σ' := by
  induction ls generalizing σ with
  | nil => exact Iff.rfl
  | cons l ls ih =>
    obtain ⟨hl, hls⟩ := List.forall_mem_cons.mp h
    exact exists_congr fun mid => and_congr (hl σ mid) (ih hls)

omit [DecidableEq R] in
/-- A sequence that succeeds: its first step, and the rest. -/
theorem run_cons_ok {S : Type} {exec : S → Op R V E → Except E (V × S)} {s s' : S} {op : Op R V E}
    {ops : List (Op R V E)} {vs : List V} (h : run exec s (op :: ops) = .ok (vs, s')) :
    ∃ v mid ws, exec s op = .ok (v, mid) ∧ run exec mid ops = .ok (ws, s') ∧ vs = v :: ws := by
  rw [run] at h
  cases hop : exec s op with
  | error e =>
    rw [hop] at h
    cases h
  | ok p =>
    obtain ⟨v, mid⟩ := p
    simp only [hop] at h
    cases hrest : run exec mid ops with
    | error e =>
      rw [hrest] at h
      cases h
    | ok q =>
      obtain ⟨ws, last⟩ := q
      rw [hrest] at h
      obtain ⟨rfl, rfl⟩ := Prod.mk.inj (Except.ok.inj h)
      exact ⟨v, mid, ws, rfl, hrest, rfl⟩

omit [DecidableEq R] in
theorem run_snoc {S : Type} {exec : S → Op R V E → Except E (V × S)} {s s' s'' : S}
    {ops : List (Op R V E)} {op : Op R V E} {vs : List V} {v : V}
    (h : run exec s ops = .ok (vs, s')) (hop : exec s' op = .ok (v, s'')) :
    run exec s (ops ++ [op]) = .ok (vs ++ [v], s'') := by
  induction ops generalizing s vs with
  | nil =>
    obtain ⟨rfl, rfl⟩ := Prod.mk.inj (Except.ok.inj h)
    simp only [List.nil_append, run, hop]
  | cons o ops ih =>
    obtain ⟨w, mid, ws, ho, hrest, rfl⟩ := run_cons_ok h
    simp only [List.cons_append, run, ho, ih hrest]

/-! ## §3 Reads -/

/-- The variables have the present values of all that the transaction has read. -/
def Shows (σ : Store R V) (readSet : Table R Nat) (x : Vars R V) : Prop :=
  ∀ r, (readSet.get r).isSome → x r = (σ r).value

/-- The transaction's view of variables. -/
def Txn.over (t : Txn R V E) (x : Vars R V) : Vars R V := fun r => (t.writeSet.get r).getD (x r)

/-- What the commute set has for these functions, the last one first. -/
def queued : List (Fn V E) → Option (List (Fn V E))
  | [] => none
  | fs => some fs.reverse

/-- A function pushed, if there is one. -/
def pushed (f : Option (Fn V E)) (fs : Option (List (Fn V E))) : Option (List (Fn V E)) :=
  match f with
  | none => fs
  | some f => some (f :: fs.getD [])

theorem queued_getD (fs : List (Fn V E)) : (queued fs).getD [] = fs.reverse := by
  cases fs <;> rfl

theorem queued_isSome (fs : List (Fn V E)) : (queued fs).isSome = !fs.isEmpty := by
  cases fs <;> rfl

theorem queued_append (fs : List (Fn V E)) (f : Option (Fn V E)) :
    queued (fs ++ f.toList) = pushed f (queued fs) := by
  cases f with
  | none => rw [Option.toList_none, List.append_nil]; rfl
  | some f =>
    rw [pushed, queued_getD, Option.toList_some]
    cases fs <;> simp [queued]

/-- If no version has changed, the log replays from all variables that show what was read. -/
structure Consistent (σ : Store R V) (a : Attempt R V E) : Prop where
  noted : ∀ r n, a.txn.readSet.get r = some n → n ≤ (σ r).version
  replays : unchanged σ a.txn.readSet = true → ∀ x, Shows σ a.txn.readSet x →
    run deferred x a.log.ops = .ok (a.log.vals, a.txn.over x)
  pending : ∀ r, a.txn.commuteSet.get r = queued (commutesOf r a.log.ops)
  sets : ∀ r, (a.txn.writeSet.get r).isSome = a.log.ops.any (fun op => op.sets r)

theorem noteVersion_get {σ : Store R V} {r r' : R} {table : Table R Nat} {n : Nat}
    (h : (noteVersion σ r table).get r' = some n) :
    table.get r' = some n ∨ r = r' ∧ n = (σ r').version := by
  rw [noteVersion] at h
  split at h
  · exact .inl h
  · rw [Table.get_set] at h
    split at h
    next hr => exact .inr ⟨hr, hr ▸ (Option.some.inj h).symm⟩
    next => exact .inl h

theorem noteVersion_keeps {σ : Store R V} {r r' : R} {table : Table R Nat} {n : Nat}
    (h : table.get r' = some n) : (noteVersion σ r table).get r' = some n := by
  rw [noteVersion]
  split
  · exact h
  next hnone =>
    by_cases hr : r = r'
    · subst hr
      rw [h] at hnone
      exact absurd rfl hnone
    · exact (Table.get_set_ne _ _ hr).trans h

theorem noteVersion_self (σ : Store R V) (r : R) (table : Table R Nat) :
    ((noteVersion σ r table).get r).isSome := by
  rw [noteVersion]
  split
  next h => exact h
  next => rw [Table.get_set_self]; rfl

/-- The read set has grown by versions noted now. -/
def Grown (σ : Store R V) (before after : Table R Nat) : Prop :=
  (∀ r n, after.get r = some n → before.get r = some n ∨ n = (σ r).version) ∧
    ∀ r n, before.get r = some n → after.get r = some n

theorem Grown.refl (σ : Store R V) (table : Table R Nat) : Grown σ table table :=
  ⟨fun _ _ h => .inl h, fun _ _ h => h⟩

theorem Grown.note (σ : Store R V) (r : R) (table : Table R Nat) :
    Grown σ table (noteVersion σ r table) :=
  ⟨fun _ _ h => (noteVersion_get h).imp_right (·.2), fun _ _ => noteVersion_keeps⟩

theorem Grown.unchanged {σ : Store R V} {before after : Table R Nat} (h : Grown σ before after)
    (hafter : Stm.unchanged σ after = true) : Stm.unchanged σ before = true := by
  rw [unchanged_iff] at hafter ⊢
  exact fun r n hn => hafter r n (h.2 r n hn)

theorem Grown.shows {σ : Store R V} {before after : Table R Nat} (h : Grown σ before after)
    {x : Vars R V} (hafter : Shows σ after x) : Shows σ before x := by
  intro r hr
  obtain ⟨n, hn⟩ := Option.isSome_iff_exists.mp hr
  exact hafter r (Option.isSome_iff_exists.mpr ⟨n, h.2 r n hn⟩)

theorem deref_grown (σ : Store R V) (t : Txn R V E) (r : R) :
    Grown σ t.readSet (Stm.deref σ t r).2.readSet := by
  rcases deref_readSet σ t r with h | h
  · exact h ▸ Grown.refl σ _
  · exact h ▸ Grown.note σ r _

/-- A read returns what the transaction sees of variables that show it. -/
theorem deref_over {σ : Store R V} {t : Txn R V E} {r : R} {x : Vars R V}
    (hx : Shows σ (Stm.deref σ t r).2.readSet x) : (Stm.deref σ t r).1 = t.over x r := by
  rw [deref] at hx ⊢
  rw [Txn.over]
  cases hw : t.writeSet.get r with
  | some v => rfl
  | none =>
    rw [hw] at hx
    exact (hx r (noteVersion_self σ r t.readSet)).symm

@[simp] theorem deref_over_eq (σ : Store R V) (t : Txn R V E) (r : R) :
    (Stm.deref σ t r).2.over = t.over := by
  funext x r'
  rw [Txn.over, Txn.over, deref_writeSet]

theorem over_set (t : Txn R V E) (x : Vars R V) (r : R) (v : V) :
    { t with writeSet := t.writeSet.set r v }.over x = (t.over x).assign r v := by
  funext r'
  rw [Txn.over, Vars.assign, Table.get_set]
  by_cases hr : r' = r
  · rw [if_pos hr, if_pos hr.symm]
    rfl
  · rw [if_neg hr, if_neg (Ne.symm hr)]
    rfl

theorem alter_ok {σ : Store R V} {t t' : Txn R V E} {r : R} {f : Fn V E} {v : V}
    (h : alter σ t r f = .ok (v, t')) : f (deref σ t r).1 = .ok v ∧
      t' = { (deref σ t r).2 with writeSet := t.writeSet.set r v } := by
  rw [alter] at h
  cases hf : f (deref σ t r).1 with
  | error e =>
    simp only [hf] at h
    cases h
  | ok w =>
    simp only [hf, deref_writeSet] at h
    obtain ⟨rfl, rfl⟩ := Prod.mk.inj (Except.ok.inj h)
    exact ⟨rfl, rfl⟩

/-- The transaction with a commute pushed. -/
def Txn.push (t : Txn R V E) (r : R) (f : Fn V E) : Txn R V E :=
  { t with commuteSet := t.commuteSet.set r (f :: (t.commuteSet.get r).getD []) }

theorem commute_ok {σ : Store R V} {t t' : Txn R V E} {r : R} {f : Fn V E} {v : V}
    (h : commute σ t r f = .ok (v, t')) :
    f (deref σ (t.push r f) r).1 = .ok v ∧ t' = (deref σ (t.push r f) r).2 := by
  rw [commute, ← Txn.push] at h
  cases hf : f (deref σ (t.push r f) r).1 with
  | error e =>
    simp only [hf] at h
    cases h
  | ok w =>
    simp only [hf] at h
    obtain ⟨rfl, rfl⟩ := Prod.mk.inj (Except.ok.inj h)
    exact ⟨rfl, rfl⟩

theorem ok_pair {S : Type} {p : V × S} {v : V} {s : S}
    (h : (.ok p : Except E (V × S)) = .ok (v, s)) :
    v = p.1 ∧ s = p.2 := by
  rw [Except.ok.inj h]
  exact ⟨rfl, rfl⟩

/-- What an operation that returns does to the tables, and what it returns. -/
structure Executes (σ : Store R V) (t : Txn R V E) (op : Op R V E) (v : V) (t' : Txn R V E) :
    Prop where
  reads : Grown σ t.readSet t'.readSet
  returns : ∀ x, Shows σ t'.readSet x → deferred (t.over x) op = .ok (v, t'.over x)
  commutes : ∀ r, t'.commuteSet.get r = pushed (op.commuteOf r) (t.commuteSet.get r)
  writes : ∀ r, (t'.writeSet.get r).isSome = (op.sets r || (t.writeSet.get r).isSome)

theorem exec_executes {σ : Store R V} {t t' : Txn R V E} {op : Op R V E} {v : V}
    (h : t.exec σ op = .ok (v, t')) : Executes σ t op v t' := by
  cases op with
  | deref r =>
    obtain ⟨rfl, rfl⟩ := ok_pair (p := Stm.deref σ t r) h
    refine ⟨deref_grown σ t r, fun x hx => ?_, fun _ => ?_, fun _ => ?_⟩
    · rw [deref_over hx, deref_over_eq]
      rfl
    · rw [deref_commuteSet]
      rfl
    · rw [deref_writeSet]
      rfl
  | refSet r v =>
    obtain ⟨rfl, rfl⟩ := Prod.mk.inj (Except.ok.inj h)
    refine ⟨Grown.refl σ _, fun x _ => ?_, fun _ => rfl, fun r' => ?_⟩
    · rw [over_set]
      rfl
    · rw [Table.get_set, Op.sets]
      by_cases hr : r = r' <;> simp [hr]
  | alter r f =>
    obtain ⟨hf, rfl⟩ := alter_ok h
    refine ⟨deref_grown σ t r, fun x hx => ?_, fun r' => ?_, fun r' => ?_⟩
    · rw [deref_over hx] at hf
      simp only [deferred, plain, update, hf, ← over_set]
      rfl
    · show (Stm.deref σ t r).2.commuteSet.get r' = t.commuteSet.get r'
      rw [deref_commuteSet]
    · rw [Table.get_set, Op.sets]
      by_cases hr : r = r' <;> simp [hr]
  | commute r f =>
    obtain ⟨hf, rfl⟩ := commute_ok h
    refine ⟨deref_grown σ (t.push r f) r, fun x hx => ?_, fun r' => ?_, fun r' => ?_⟩
    · rw [deref_over hx] at hf
      simp only [deferred, estimate]
      rw [show t.over x r = (t.push r f).over x r from rfl, hf, deref_over_eq]
      rfl
    · rw [deref_commuteSet, Txn.push, Table.get_set, Op.commuteOf]
      by_cases hr : r = r' <;> simp [hr, pushed]
    · rw [deref_writeSet]
      rfl
  | ensure r =>
    obtain ⟨rfl, rfl⟩ := ok_pair (p := Stm.ensure σ t r) h
    refine ⟨deref_grown σ _ r, fun x hx => ?_, fun _ => ?_, fun _ => ?_⟩
    · rw [ensure, deref_over hx, deref_over_eq]
      rfl
    · rw [ensure, deref_commuteSet]
      rfl
    · rw [ensure, deref_writeSet]
      rfl

theorem Consistent.start (σ : Store R V) : Consistent σ ({} : Attempt R V E) :=
  ⟨(fun _ _ h => nomatch h), fun _ _ _ => rfl, fun _ => rfl, fun _ => rfl⟩

omit [DecidableEq R] in
theorem Log.ops_snoc (l : Log R V E) (p : Logged R V E) :
    (l ++ [p] : Log R V E).ops = l.ops ++ [p.1] :=
  List.map_append

omit [DecidableEq R] in
theorem Log.vals_snoc (l : Log R V E) (p : Logged R V E) :
    (l ++ [p] : Log R V E).vals = l.vals ++ [p.2] :=
  List.map_append

/-- An operation keeps its transaction consistent. -/
theorem Consistent.exec {σ : Store R V} {a : Attempt R V E} (h : Consistent σ a) {op : Op R V E}
    {v : V} {t : Txn R V E} (hexec : a.txn.exec σ op = .ok (v, t)) :
    Consistent σ { txn := t, log := a.log ++ [(op, v)] } := by
  have hop := exec_executes hexec
  refine ⟨fun r n hn => ?_, fun hunchanged x hx => ?_, fun r => ?_, fun r => ?_⟩
  · rcases hop.reads.1 r n hn with hold | hnow
    · exact h.noted r n hold
    · exact Nat.le_of_eq hnow
  · have hbefore := h.replays (hop.reads.unchanged hunchanged) x (hop.reads.shows hx)
    rw [Log.ops_snoc, Log.vals_snoc]
    exact run_snoc hbefore (hop.returns x hx)
  · rw [hop.commutes, h.pending, ← queued_append, Log.ops_snoc, commutesOf, commutesOf,
      List.filterMap_append]
    cases hc : op.commuteOf r <;> simp [hc]
  · rw [hop.writes, h.sets, Log.ops_snoc, List.any_append]
    simp [Bool.or_comm]

/-- A commit keeps the other transactions consistent: one that read what was changed cannot
commit. -/
theorem Consistent.advance {σ σ' : Store R V} {a : Attempt R V E} (h : Consistent σ a)
    (hadvances : Advances σ σ') : Consistent σ' a := by
  refine ⟨fun r n hn => Nat.le_trans (h.noted r n hn) (hadvances.le r), fun hunchanged x hx => ?_,
    h.pending, h.sets⟩
  have hsame (r : R) (n : Nat) (hn : a.txn.readSet.get r = some n) : σ' r = σ r := by
    refine (hadvances r).resolve_right fun hlt => ?_
    have hnow := unchanged_iff.mp hunchanged r n hn
    exact absurd (h.noted r n hn) (by omega)
  refine h.replays (unchanged_iff.mpr fun r n hn => ?_) x fun r hr => ?_
  · rw [← hsame r n hn]
    exact unchanged_iff.mp hunchanged r n hn
  · obtain ⟨n, hn⟩ := Option.isSome_iff_exists.mp hr
    rw [← hsame r n hn]
    exact hx r hr

/-- What a commit writes, the log wrote. -/
theorem Consistent.writes {σ : Store R V} {a : Attempt R V E} (h : Consistent σ a)
    {writes : Table R V} (hwrites : applyCommutes σ a.txn = .ok writes) (r : R) :
    (writes.get r).isSome = a.log.writes r := by
  have hreplayed := applyCommutes_get hwrites r
  have hempty : (a.txn.commuteSet.get r).isSome = !(commutesOf r a.log.ops).isEmpty := by
    rw [h.pending, queued_isSome]
  rw [Log.writes, ← h.sets, ← hempty]
  cases hget : a.txn.commuteSet.get r with
  | none =>
    rw [hget] at hreplayed
    rw [hreplayed]
    simp
  | some fs =>
    rw [hget] at hreplayed
    obtain ⟨v, -, hv⟩ := hreplayed
    simp [hv]

/-- A commit replays its transaction from the store it finds. -/
theorem Consistent.commit {refs : R → Hooks V E} {σ : Store R V} {a : Attempt R V E}
    (h : Consistent σ a) {writes : Table R V} (hw : Writes refs σ a.txn writes) :
    Replays σ a.log (written σ writes) := by
  have hunchanged : unchanged σ a.txn.readSet = true := by
    have hall := hw.unchanged
    rw [unchangedAll, Bool.and_eq_true] at hall
    exact hall.1
  refine ⟨a.txn.over (values σ), values (written σ writes), ?_, fun r => ?_, ?_⟩
  · exact h.replays hunchanged (values σ) fun r _ => rfl
  · rw [values, written_value]
    exact applyCommutes_value hw.commutes ((congrArg (·.getD []) (h.pending r)).trans
      (queued_getD _))
  · funext r
    rw [Log.store, ← h.writes hw.commutes, values, written.eq_def]
    cases writes.get r <;> rfl

/-! ## §4 Claims -/

@[simp] theorem setActive_self (s : State T R V E) (i : T) (a : Option (Attempt R V E)) :
    (s.setActive i a).active i = a := if_pos rfl

theorem setActive_ne (s : State T R V E) {i j : T} (a : Option (Attempt R V E)) (h : j ≠ i) :
    (s.setActive i a).active j = s.active j := if_neg h

theorem active_of_setActive {s : State T R V E} {i j : T} {x : Option (Attempt R V E)}
    {b : Attempt R V E} (h : (s.setActive i x).active j = some b) :
    j = i ∧ x = some b ∨ j ≠ i ∧ s.active j = some b := by
  by_cases hj : j = i
  · subst hj
    exact .inl ⟨rfl, (setActive_self s j x).symm.trans h⟩
  · exact .inr ⟨hj, (setActive_ne s x hj).symm.trans h⟩

/-- Every transaction in progress is consistent with the store. -/
def State.Consistent (s : State T R V E) : Prop :=
  ∀ i a, s.active i = some a → Stm.Consistent s.store a

/-- The action is the commit of a transaction in progress. -/
def State.Commits (s : State T R V E) (act : Action T R V E) (i : T) (a : Attempt R V E) : Prop :=
  act = .commit i ∧ s.active i = some a

/-- A step commits, or changes only the transaction of its thread. -/
theorem step_cases {refs : R → Hooks V E} {s s' : State T R V E} {act : Action T R V E}
    (h : Steps refs s act s') :
    (∃ i a, s.Commits act i a ∧
      s' = s.finish i a (tryCommit refs s.store a.txn).1 (tryCommit refs s.store a.txn).2) ∨
    (∀ i a, ¬ s.Commits act i a) ∧ ∃ i x, s' = s.setActive i x ∧
      ∀ b, x = some b → b = {} ∨ ∃ a op v, s.active i = some a ∧ act = .op i op ∧
        a.txn.exec s.store op = .ok (v, b.txn) ∧ b.log = a.log ++ [(op, v)] := by
  cases act with
  | start i =>
    rw [Steps, step] at h
    split at h
    next => exact nomatch h
    next =>
      refine .inr ⟨(fun i a hc => nomatch hc.1), i, some {}, (Option.some.inj h).symm,
        fun b hb => .inl ?_⟩
      exact (Option.some.inj hb).symm
  | op i o =>
    obtain ⟨a, ha, hs'⟩ := Option.map_eq_some_iff.mp h
    refine .inr ⟨(fun i a hc => nomatch hc.1), ?_⟩
    cases hexec : a.txn.exec s.store o with
    | error e =>
      rw [hexec] at hs'
      exact ⟨i, none, hs'.symm, fun b hb => nomatch hb⟩
    | ok p =>
      rw [hexec] at hs'
      refine ⟨i, _, hs'.symm, ?_⟩
      rintro b ⟨⟩
      exact .inr ⟨a, o, p.1, ha, rfl, hexec, rfl⟩
  | commit i =>
    obtain ⟨a, ha, hs'⟩ := Option.map_eq_some_iff.mp h
    exact .inl ⟨i, a, ⟨rfl, ha⟩, hs'.symm⟩
  | leave i =>
    obtain ⟨a, ha, hs'⟩ := Option.map_eq_some_iff.mp h
    exact .inr ⟨(fun i a hc => nomatch hc.1), i, none, hs'.symm, fun b hb => nomatch hb⟩

@[simp] theorem finish_store (s : State T R V E) (i : T) (a : Attempt R V E) (σ : Store R V)
    (out : Outcome V E) : (s.finish i a σ out).store = σ := by
  cases out <;> rfl

@[simp] theorem finish_active (s : State T R V E) (i : T) (a : Attempt R V E) (σ : Store R V)
    (out : Outcome V E) : (s.finish i a σ out).active = (s.setActive i none).active := by
  cases out <;> rfl

/-- The other transactions stay in progress. -/
theorem active_of_finish {s : State T R V E} {i j : T} {a b : Attempt R V E} {σ : Store R V}
    {out : Outcome V E} (h : (s.finish i a σ out).active j = some b) :
    j ≠ i ∧ s.active j = some b := by
  rw [finish_active] at h
  exact (active_of_setActive h).resolve_left fun hi => nomatch hi.2

theorem step_consistent {refs : R → Hooks V E} {s s' : State T R V E} {act : Action T R V E}
    (hs : s.Consistent) (h : Steps refs s act s') : s'.Consistent := by
  rcases step_cases h with ⟨i, a, -, rfl⟩ | ⟨-, i, x, rfl, hx⟩
  · intro j b hb
    rw [finish_store]
    exact (hs j b (active_of_finish hb).2).advance (tryCommit_advances refs s.store a.txn)
  · intro j b hb
    rcases active_of_setActive hb with ⟨rfl, hnew⟩ | ⟨-, hold⟩
    · rcases hx b hnew with rfl | ⟨a, op, v, ha, -, hexec, hlog⟩
      · exact .start _
      · have hnext := (hs j a ha).exec hexec
        rwa [← hlog] at hnext
    · exact hs j b hold

/-- The commits meet no watch that signals an error. -/
def QuietCommit (refs : R → Hooks V E) (s : State T R V E) (act : Action T R V E) : Prop :=
  ∀ i a, s.Commits act i a → Quiet refs s.store a.txn

/-- The commits so far replay to the present store. -/
def History (σ : Store R V) (s : State T R V E) : Prop := Serial Replays σ s.committed s.store

/-- A step keeps the history replayable exactly if no watch breaks its commit. -/
theorem step_replayed_iff {refs : R → Hooks V E} {σ : Store R V} {s s' : State T R V E}
    {act : Action T R V E} (hs : s.Consistent) (hreplayed : History σ s) (h : Steps refs s act s') :
    History σ s' ↔ QuietCommit refs s act := by
  rcases step_cases h with ⟨i, a, hcommits, rfl⟩ | ⟨hcommits, i, x, rfl, -⟩
  · have hiff : QuietCommit refs s act ↔ Quiet refs s.store a.txn := by
      constructor
      · exact fun hquiet => hquiet i a hcommits
      · rintro hquiet j b ⟨hact, hb⟩
        obtain rfl : i = j := by
          obtain rfl := hcommits.1
          exact Action.commit.inj hact
        obtain rfl := Option.some.inj (hcommits.2.symm.trans hb)
        exact hquiet
    rw [hiff]
    rcases tryCommit_cases refs s.store a.txn with ⟨writes, hw, hquiet, hcommit⟩ |
      ⟨writes, e, -, hnoisy, hchanged, hfailed⟩ | ⟨hnone, hsame, hne⟩
    · refine iff_of_true ?_ hquiet
      rw [hcommit]
      exact hreplayed.snoc ((hs i a hcommits.2).commit hw)
    · refine iff_of_false (fun hafter => hchanged ?_) hnoisy
      rw [hfailed] at hafter
      exact Serial.unique hafter hreplayed
    · refine iff_of_true ?_ fun writes hw => absurd hw (hnone writes)
      rw [hsame]
      cases hout : (tryCommit refs s.store a.txn).2 with
      | committed => exact absurd hout hne
      | _ => exact hreplayed
  · exact iff_of_true hreplayed fun j b hc => absurd hc (hcommits j b)

/-- A run replays throughout exactly if no watch breaks a commit. -/
theorem run_replays_iff {refs : R → Hooks V E} {σ : Store R V}
    {run : List (Action T R V E × State T R V E)} (hrun : IsRun (Steps refs) { store := σ } run) :
    Always (History σ) { store := σ } run ↔ EachStep (QuietCommit refs) { store := σ } run := by
  have hstart : State.Consistent ({ store := σ } : State T R V E) := fun _ _ ha => nomatch ha
  have hhistory : History σ ({ store := σ } : State T R V E) := rfl
  refine always_iff_eachStep (I := State.Consistent) (D := fun _ _ => True) ?_ ?_ hstart
    hhistory hrun
    (.of_forall (fun _ _ => trivial) _ run)
  · exact fun s a s' hs _ _ _ h => step_consistent hs h
  · exact fun s a s' hs hreplayed _ h => step_replayed_iff hs hreplayed h

/-- The operation is no commute. -/
def Op.direct : Op R V E → Bool
  | .commute _ _ => false
  | _ => true

/-- No thread commutes. -/
def NoCommute (_ : State T R V E) (act : Action T R V E) : Prop :=
  ∀ i op, act = .op i op → op.direct = true

def Log.Direct (l : Log R V E) : Prop := ∀ op ∈ l.ops, op.direct = true

/-- No transaction has commuted. -/
structure State.Direct (s : State T R V E) : Prop where
  active : ∀ i a, s.active i = some a → a.log.Direct
  committed : ∀ l ∈ s.committed, l.Direct

theorem step_direct {refs : R → Hooks V E} {s s' : State T R V E} {act : Action T R V E}
    (hs : s.Direct) (hact : NoCommute s act) (h : Steps refs s act s') : s'.Direct := by
  rcases step_cases h with ⟨i, a, hcommits, rfl⟩ | ⟨-, i, x, rfl, hx⟩
  · refine ⟨fun j b hb => hs.active j b (active_of_finish hb).2, fun l hl => ?_⟩
    · cases hout : (tryCommit refs s.store a.txn).2 with
      | committed =>
        rw [hout] at hl
        rcases List.mem_append.mp hl with hl | hl
        · exact hs.committed l hl
        · exact List.mem_singleton.mp hl ▸ hs.active i a hcommits.2
      | _ =>
        rw [hout] at hl
        exact hs.committed l hl
  · refine ⟨fun j b hb => ?_, hs.committed⟩
    rcases active_of_setActive hb with ⟨rfl, hnew⟩ | ⟨-, hold⟩
    · rcases hx b hnew with rfl | ⟨a, op, v, ha, hop, -, hlog⟩
      · exact fun op hop => nomatch hop
      · intro op' hop'
        rw [hlog, Log.ops_snoc] at hop'
        rcases List.mem_append.mp hop' with hop' | hop'
        · exact hs.active j a ha op' hop'
        · exact List.mem_singleton.mp hop' ▸ hact j op hop
    · exact hs.active j b hold

theorem deferred_direct (x : Vars R V) {op : Op R V E} (h : op.direct = true) :
    deferred x op = plain x op := by
  cases op with
  | commute r f => exact nomatch h
  | _ => rfl

theorem run_direct {ops : List (Op R V E)} (h : ∀ op ∈ ops, op.direct = true) (x : Vars R V) :
    run deferred x ops = run plain x ops := by
  induction ops generalizing x with
  | nil => rfl
  | cons op ops ih =>
    obtain ⟨hop, hops⟩ := List.forall_mem_cons.mp h
    simp only [run, deferred_direct x hop, ih hops]

theorem commutesOf_direct {ops : List (Op R V E)} (h : ∀ op ∈ ops, op.direct = true) (r : R) :
    commutesOf r ops = [] := by
  refine List.filterMap_eq_nil_iff.mpr fun op hop => ?_
  cases op with
  | commute r' f => exact nomatch h _ hop
  | _ => rfl

theorem replays_direct {l : Log R V E} (h : l.Direct) (σ σ' : Store R V) :
    Replays σ l σ' ↔ PlainReplays σ l σ' := by
  constructor
  · rintro ⟨x, y, hrun, hy, rfl⟩
    have hxy : x = y := by
      funext r
      have hr := hy r
      rw [commutesOf_direct h r] at hr
      exact Except.ok.inj hr
    exact ⟨x, run_direct h _ ▸ hrun, hxy ▸ rfl⟩
  · rintro ⟨x, hrun, rfl⟩
    exact ⟨x, x, (run_direct h _).symm ▸ hrun, fun r => (commutesOf_direct h r).symm ▸ rfl, rfl⟩

/-- The commits so far, replayed one after the other on plain variables, return what they returned
and end with the present values and versions. -/
def Serializable (σ : Store R V) (s : State T R V E) : Prop :=
  Serial PlainReplays σ s.committed s.store

/-- Without commute, a run is serializable throughout exactly if no watch breaks a commit. -/
theorem serializable_iff (refs : R → Hooks V E) {σ : Store R V}
    {run : List (Action T R V E × State T R V E)} (hrun : IsRun (Steps refs) { store := σ } run)
    (hdirect : EachStep NoCommute { store := σ } run) :
    Always (Serializable σ) { store := σ } run ↔
    EachStep (QuietCommit refs) { store := σ } run := by
  have hstart : State.Direct ({ store := σ } : State T R V E) :=
    ⟨(fun _ _ ha => nomatch ha), (fun _ hl => nomatch hl)⟩
  have halways :=
    invariant_always (I := State.Direct) (fun _ _ _ hs hact h => step_direct hs hact h) hstart hrun
    hdirect
  rw [← run_replays_iff hrun]
  refine Always.congr (halways.imp fun s hs => ?_)
  exact Serial.congr fun l hl σ σ' => (replays_direct (hs.committed l hl) σ σ').symm

/-! Runs of two transactions on refs without watches, and of one on refs with a watch that fails. -/

/-- The states a list of actions leads to. -/
def trace (refs : R → Hooks V E) :
    State T R V E → List (Action T R V E) → List (Action T R V E × State T R V E)
  | _, [] => []
  | s, a :: as => let s' := (step refs s a).getD s
    (a, s') :: trace refs s' as

def doubling : Op Nat Nat Unit := .alter 0 fun v => .ok (2 * v)

/-- Both read the ref; the second to commit finds a conflict and begins again. -/
def conflicting : List (Action Bool Nat Nat Unit) :=
  [.start true, .start false, .op true doubling, .op false doubling, .commit true, .commit false,
    .start false, .op false doubling, .commit false]

/-- Refs without functions. -/
def bareRefs : Nat → Hooks Nat Unit := fun _ => {}

theorem conflicting_serializable :
    Always (Serializable fun _ => ⟨1, 0⟩) { store := fun _ => ⟨1, 0⟩ }
      (trace bareRefs { store := fun _ => ⟨1, 0⟩ } conflicting) := by
  refine (serializable_iff bareRefs ?_ ?_).mpr ?_
  · exact ⟨rfl, rfl, rfl, rfl, rfl, rfl, rfl, rfl, rfl, trivial⟩
  · refine ⟨?_, ?_, ?_, ?_, ?_, ?_, ?_, ?_, ?_, trivial⟩ <;> rintro i op ⟨⟩ <;> rfl
  · exact .of_forall (fun _ _ _ _ _ _ _ _ _ => rfl) _ _

/-- The first of two writes is in the store and no transaction has committed. -/
theorem broken_commit_not_serializable :
    ¬ Always (Serializable fun _ => ⟨0, 0⟩) { store := fun _ => ⟨0, 0⟩ }
      (trace watchedRefs { store := fun _ => ⟨0, 0⟩ }
        [.start true, .op true (.refSet 0 10), .op true (.refSet 1 20), .commit true]) := by
  rintro ⟨-, -, -, -, h⟩
  exact absurd (congrArg Ref.version (congrFun h 0)) (by decide)

end Fol.Stm
