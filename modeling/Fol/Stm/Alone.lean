/-
Fol.Stm.Alone — a transaction that runs with no concurrent commit.

The operations are compared with plain variables, one for each ref. A commute is not
executed at its place: it returns what its function gives there and leaves the variable as it is,
and the functions are applied, in their order, when the transaction commits.
-/
import Fol.Stm.Transaction

namespace Fol.Stm

open Fol.Lib

variable {R V E : Type} [DecidableEq R]

/-! ## §1 Operations -/

/-- What the body of a transaction does with refs. -/
inductive Op (R V E : Type) where
  | deref (r : R)
  | refSet (r : R) (v : V)
  | alter (r : R) (f : Fn V E)
  | commute (r : R) (f : Fn V E)
  | ensure (r : R)

/-- The value of an operation in a transaction, and the transaction after it. -/
def Txn.exec (σ : Store R V) (t : Txn R V E) : Op R V E → Except E (V × Txn R V E)
  | .deref r => .ok (Stm.deref σ t r)
  | .refSet r v => .ok (Stm.refSet t r v)
  | .alter r f => Stm.alter σ t r f
  | .commute r f => Stm.commute σ t r f
  | .ensure r => .ok (Stm.ensure σ t r)

/-- A sequence of steps, with the values they return. -/
def run {S : Type} (exec : S → Op R V E → Except E (V × S)) :
    S → List (Op R V E) → Except E (List V × S)
  | s, [] => .ok ([], s)
  | s, op :: ops =>
    match exec s op with
    | .error e => .error e
    | .ok (v, s') =>
      match run exec s' ops with
      | .error e => .error e
      | .ok (vs, s'') => .ok (v :: vs, s'')

/-! ## §2 Variables -/

/-- A plain variable for each ref. -/
abbrev Vars (R V : Type) := R → V

def Vars.assign (x : Vars R V) (r : R) (v : V) : Vars R V := fun r' => if r' = r then v else x r'

/-- A variable is updated with a function. -/
def update (x : Vars R V) (r : R) (f : Fn V E) : Except E (V × Vars R V) :=
  match f (x r) with
  | .error e => .error e
  | .ok v => .ok (v, x.assign r v)

/-- An operation on plain variables. -/
def plain (x : Vars R V) : Op R V E → Except E (V × Vars R V)
  | .deref r => .ok (x r, x)
  | .refSet r v => .ok (v, x.assign r v)
  | .alter r f => update x r f
  | .commute r f => update x r f
  | .ensure r => .ok (x r, x)

/-- The value a commute returns: its function is applied, the variable is left as it is. -/
def estimate (x : Vars R V) (r : R) (f : Fn V E) : Except E (V × Vars R V) :=
  match f (x r) with
  | .error e => .error e
  | .ok v => .ok (v, x)

/-- An operation on plain variables, with the effects of commutes left out. -/
def deferred (x : Vars R V) : Op R V E → Except E (V × Vars R V)
  | .commute r f => estimate x r f
  | op => plain x op

/-- The function, if the operation is a commute of the ref. -/
def Op.commuteOf (r : R) : Op R V E → Option (Fn V E)
  | .commute r' f => if r' = r then some f else none
  | _ => none

/-- The commutes of a ref, in the order of the program. -/
def commutesOf (r : R) (ops : List (Op R V E)) : List (Fn V E) := ops.filterMap (Op.commuteOf r)

def values (σ : Store R V) : Vars R V := fun r => (σ r).value

/-! ## §3 Replays -/

/-- The values a transaction would see after its writes. -/
def Txn.view (σ : Store R V) (t : Txn R V E) : Vars R V :=
  fun r => (t.writeSet.get r).getD (σ r).value

theorem applyCommute_get {σ : Store R V} {writes writes' : Table R V} {p : R × List (Fn V E)}
    (h : applyCommute σ writes p = .ok writes') :
    ∃ v, replay p.2 ((writes.get p.1).getD (σ p.1).value) = .ok v ∧ writes' = writes.set p.1 v := by
  rw [applyCommute] at h
  cases hv : replay p.2 ((writes.get p.1).getD (σ p.1).value) with
  | error e =>
    rw [hv] at h
    exact nomatch h
  | ok v =>
    rw [hv] at h
    exact ⟨v, rfl, (Except.ok.inj h).symm⟩

/-- What phase 4 makes of a write: the value of the functions of the ref, if it has any. -/
def Replayed (fs : Option (List (Fn V E))) (v : V) (before after : Option V) : Prop :=
  match fs with
  | none => after = before
  | some fs => ∃ w, replay fs v = .ok w ∧ after = some w

theorem foldlM_applyCommute {σ : Store R V} {es : List (R × List (Fn V E))} (hd : Distinct es)
    {writes writes' : Table R V} (h : es.foldlM (applyCommute σ) writes = .ok writes') (r : R) :
    Replayed (lookup r es) ((writes.get r).getD (σ r).value) (writes.get r) (writes'.get r) := by
  induction es generalizing writes with
  | nil =>
    obtain rfl := Except.ok.inj h
    rfl
  | cons p es ih =>
    obtain ⟨hhead, htail⟩ := List.pairwise_cons.mp hd
    rw [List.foldlM_cons] at h
    cases hp : applyCommute σ writes p with
    | error e =>
      rw [hp] at h
      exact nomatch h
    | ok mid =>
      rw [hp] at h
      obtain ⟨v, hv, rfl⟩ := applyCommute_get hp
      have hrest := ih htail h
      by_cases hr : p.1 = r
      · subst hr
        have hnone : lookup p.1 es = none := by
          rw [lookup_eq_none_iff, bound_eq_false_iff]
          exact fun q hq => beq_false_symm (hhead q hq)
        rw [hnone] at hrest
        rw [lookup_cons_pos _ (beq_self_eq_true _)]
        exact ⟨v, hv, hrest.trans (Table.get_set_self _ _ _)⟩
      · rw [lookup_cons_neg _ (beq_false_of_ne hr)]
        rw [Table.get_set_ne _ _ hr] at hrest
        exact hrest

/-- Phase 4 writes what the functions of a ref make of its value, and leaves the other writes. -/
theorem applyCommutes_get {σ : Store R V} {t : Txn R V E} {writes : Table R V}
    (h : applyCommutes σ t = .ok writes) (r : R) :
    Replayed (t.commuteSet.get r) (t.view σ r) (t.writeSet.get r) (writes.get r) :=
  foldlM_applyCommute t.commuteSet.distinct h r

/-- The functions one after the other. -/
def applyAll (fs : List (Fn V E)) (v : V) : Except E V := fs.foldlM (fun v f => f v) v

/-- The value a commit gives a ref, by the functions that are pending for it. -/
theorem applyCommutes_value {σ : Store R V} {t : Txn R V E} {writes : Table R V} {r : R}
    {fs : List (Fn V E)} (h : applyCommutes σ t = .ok writes)
    (hfs : (t.commuteSet.get r).getD [] = fs.reverse) :
    applyAll fs (t.view σ r) = .ok ((writes.get r).getD (σ r).value) := by
  have hreplayed := applyCommutes_get h r
  cases hget : t.commuteSet.get r with
  | none =>
    rw [hget] at hreplayed hfs
    obtain rfl : fs = [] := by simpa using hfs
    rw [hreplayed]
    rfl
  | some gs =>
    rw [hget] at hreplayed hfs
    obtain ⟨v, hv, hwrites⟩ := hreplayed
    obtain rfl : fs = gs.reverse := by simpa using (congrArg List.reverse hfs).symm
    rw [hwrites]
    exact hv

/-! ## §4 Claims -/

theorem unchanged_iff {σ : Store R V} {table : Table R Nat} :
    unchanged σ table = true ↔ ∀ r n, table.get r = some n → n = (σ r).version := by
  simp only [unchanged, List.all_eq_true, decide_eq_true_eq, Table.get_eq_some_iff]
  exact ⟨fun h r n hmem => h (r, n) hmem, fun h p hp => h p.1 p.2 hp⟩

theorem noteVersion_unchanged {σ : Store R V} {table : Table R Nat} (h : unchanged σ table = true)
    (r : R) :
    unchanged σ (noteVersion σ r table) = true := by
  rw [noteVersion]
  split
  · exact h
  · rw [unchanged_iff] at h ⊢
    intro r' n hn
    by_cases hr : r = r'
    · subst hr
      exact (Option.some.inj (hn.symm.trans (Table.get_set_self _ _ _)))
    · exact h r' n ((Table.get_set_ne _ _ hr).symm.trans hn)

section

variable (σ : Store R V) (t : Txn R V E) (r : R)

theorem deref_fst : (deref σ t r).1 = t.view σ r := by
  rw [deref, Txn.view]
  cases t.writeSet.get r <;> rfl

@[simp] theorem deref_writeSet : (deref σ t r).2.writeSet = t.writeSet := by
  rw [deref]
  cases t.writeSet.get r <;> rfl

@[simp] theorem deref_commuteSet : (deref σ t r).2.commuteSet = t.commuteSet := by
  rw [deref]
  cases t.writeSet.get r <;> rfl

@[simp] theorem deref_ensureSet : (deref σ t r).2.ensureSet = t.ensureSet := by
  rw [deref]
  cases t.writeSet.get r <;> rfl

theorem deref_readSet : (deref σ t r).2.readSet = t.readSet ∨
    (deref σ t r).2.readSet = noteVersion σ r t.readSet := by
  rw [deref]
  cases t.writeSet.get r
  · exact .inr rfl
  · exact .inl rfl

@[simp] theorem deref_view : (deref σ t r).2.view σ = t.view σ := by
  funext r'
  rw [Txn.view, deref_writeSet]
  rfl

end

/-- The transaction is where the program on variables is, with these commutes to come. -/
structure Tracks (σ : Store R V) (t : Txn R V E) (x : Vars R V) (pending : R → List (Fn V E)) :
    Prop where
  view : t.view σ = x
  reads : unchanged σ t.readSet = true
  ensures : unchanged σ t.ensureSet = true
  commutes : ∀ r, (t.commuteSet.get r).getD [] = (pending r).reverse

theorem Tracks.deref {σ : Store R V} {t : Txn R V E} {x : Vars R V} {pending : R → List (Fn V E)}
    (h : Tracks σ t x pending) (r : R) : Tracks σ (Stm.deref σ t r).2 x pending where
  view := (deref_view σ t r).trans h.view
  reads := by
    rcases deref_readSet σ t r with heq | heq
    · exact heq ▸ h.reads
    · exact heq ▸ noteVersion_unchanged h.reads r
  ensures := (deref_ensureSet σ t r).symm ▸ h.ensures
  commutes r' := by rw [deref_commuteSet]; exact h.commutes r'

theorem Tracks.set {σ : Store R V} {t : Txn R V E} {x : Vars R V} {pending : R → List (Fn V E)}
    (h : Tracks σ t x pending) (r : R) (v : V) :
    Tracks σ { t with writeSet := t.writeSet.set r v } (x.assign r v) pending where
  view := by
    funext r'
    rw [Txn.view, Vars.assign, ← h.view]
    by_cases hr : r' = r
    · subst hr
      rw [Table.get_set_self, if_pos rfl]
      rfl
    · rw [Table.get_set_ne _ _ (Ne.symm hr), if_neg hr]
      rfl
  reads := h.reads
  ensures := h.ensures
  commutes := h.commutes

theorem Tracks.push {σ : Store R V} {t : Txn R V E} {x : Vars R V} {pending : R → List (Fn V E)}
    (h : Tracks σ t x pending) (r : R) (f : Fn V E) :
    Tracks σ { t with commuteSet := t.commuteSet.set r (f :: (t.commuteSet.get r).getD []) } x
      fun r' => pending r' ++ (Op.commuteOf r' (.commute r f : Op R V E)).toList where
  view := h.view
  reads := h.reads
  ensures := h.ensures
  commutes r' := by
    by_cases hr : r = r'
    · subst hr
      simp [Op.commuteOf, h.commutes]
    · simp only [Op.commuteOf, if_neg hr, Option.toList_none, List.append_nil]
      rw [Table.get_set_ne _ _ hr]
      exact h.commutes r'

/-- One operation: both signal the same error, or both return the same value. -/
def Agrees (σ : Store R V) (pending : R → List (Fn V E)) (op : Op R V E)
    (res : Except E (V × Txn R V E)) (res' : Except E (V × Vars R V)) : Prop :=
  (∃ e, res = .error e ∧ res' = .error e) ∨
    ∃ v t x, res = .ok (v, t) ∧ res' = .ok (v, x) ∧
      Tracks σ t x fun r => pending r ++ (op.commuteOf r).toList

theorem Tracks.returns {σ : Store R V} {t : Txn R V E} {x : Vars R V} {pending : R → List (Fn V E)}
    (h : Tracks σ t x pending) {op : Op R V E} (hop : ∀ r, op.commuteOf r = none) (v : V) :
    Agrees σ pending op (.ok (v, t)) (.ok (v, x)) := by
  refine .inr ⟨v, t, x, rfl, rfl, ?_⟩
  simpa only [hop, Option.toList_none, List.append_nil] using h

theorem Tracks.exec {σ : Store R V} {t : Txn R V E} {x : Vars R V} {pending : R → List (Fn V E)}
    (h : Tracks σ t x pending) (op : Op R V E) :
    Agrees σ pending op (t.exec σ op) (deferred x op) := by
  have hcurrent (r : R) : (Stm.deref σ t r).1 = x r := by rw [deref_fst, h.view]
  cases op with
  | deref r =>
    have hexec : t.exec σ (.deref r) = .ok (x r, (Stm.deref σ t r).2) :=
      congrArg Except.ok (Prod.ext (hcurrent r) rfl)
    rw [hexec]
    exact (h.deref r).returns (fun _ => rfl) (x r)
  | refSet r v => exact (h.set r v).returns (fun _ => rfl) v
  | alter r f =>
    cases hf : f (x r) with
    | error e =>
      refine .inl ⟨e, ?_, ?_⟩
      · simp only [Txn.exec, alter, hcurrent, hf]
        rfl
      · simp only [deferred, plain, update, hf]
    | ok v =>
      simp only [Txn.exec, alter, hcurrent, hf, deferred, plain, update]
      exact ((h.deref r).set r v).returns (fun _ => rfl) v
  | commute r f =>
    have hpush := h.push r f
    have hcurrent' :=
      deref_fst σ { t with commuteSet := t.commuteSet.set r (f :: (t.commuteSet.get r).getD []) } r
    rw [hpush.view] at hcurrent'
    cases hf : f (x r) with
    | error e =>
      refine .inl ⟨e, ?_, ?_⟩
      · simp only [Txn.exec, commute, hcurrent', hf]
        rfl
      · simp only [deferred, estimate, hf]
    | ok v =>
      refine .inr ⟨v, _, x, ?_, ?_, hpush.deref r⟩
      · simp only [Txn.exec, commute, hcurrent', hf]
        rfl
      · simp only [deferred, estimate, hf]
  | ensure r =>
    have hensure : Tracks σ { t with ensureSet := noteVersion σ r t.ensureSet } x pending :=
      ⟨h.view, h.reads, noteVersion_unchanged h.ensures r, h.commutes⟩
    have hexec : t.exec σ (.ensure r) = .ok (x r, (Stm.ensure σ t r).2) :=
      congrArg Except.ok (Prod.ext ((deref_fst σ _ r).trans (congrFun hensure.view r)) rfl)
    rw [hexec]
    exact (hensure.deref r).returns (fun _ => rfl) (x r)

/-- A sequence of operations: the same values or the same error, and the commutes are pending. -/
theorem Tracks.run {σ : Store R V} {t : Txn R V E} {x : Vars R V} {pending : R → List (Fn V E)}
    (h : Tracks σ t x pending) (ops : List (Op R V E)) :
    (∃ e, run (Txn.exec σ) t ops = .error e ∧ run deferred x ops = .error e) ∨
      ∃ vs t' x', run (Txn.exec σ) t ops = .ok (vs, t') ∧ run deferred x ops = .ok (vs, x') ∧
        Tracks σ t' x' fun r => pending r ++ commutesOf r ops := by
  induction ops generalizing t x pending with
  | nil =>
    refine .inr ⟨[], t, x, rfl, rfl, ?_⟩
    simpa only [commutesOf, List.filterMap_nil, List.append_nil] using h
  | cons op ops ih =>
    rcases h.exec op with ⟨e, hexec, hdeferred⟩ | ⟨v, t', x', hexec, hdeferred, htracks⟩
    · exact .inl ⟨e, by rw [Stm.run, hexec], by rw [Stm.run, hdeferred]⟩
    rcases ih htracks with ⟨e, hrun, hrun'⟩ | ⟨vs, t'', x'', hrun, hrun', htracks'⟩
    · refine .inl ⟨e, ?_, ?_⟩
      · simp only [Stm.run, hexec, hrun]
      · simp only [Stm.run, hdeferred, hrun']
    · refine .inr ⟨v :: vs, t'', x'', ?_, ?_, ?_⟩
      · simp only [Stm.run, hexec, hrun]
      · simp only [Stm.run, hdeferred, hrun']
      · have happend (r : R) : pending r ++ (op.commuteOf r).toList ++ commutesOf r ops =
            pending r ++ commutesOf r (op :: ops) := by
          rw [List.append_assoc, commutesOf, commutesOf, List.filterMap_cons]
          cases op.commuteOf r <;> rfl
        simpa only [happend] using htracks'

/-- What running operations one by one on plain variables promises of a transaction: the values of
the operations, and the values of the refs when it commits. -/
structure Sequential (refs : R → Hooks V E) (σ : Store R V) (ops : List (Op R V E)) : Prop where
  returns : (run (Txn.exec σ) {} ops).map Prod.fst = (run plain (values σ) ops).map Prod.fst
  commits : ∀ vs t, run (Txn.exec σ) {} ops = .ok (vs, t) → (tryCommit refs σ t).2 = .committed →
    ∃ x, run plain (values σ) ops = .ok (vs, x) ∧ values (tryCommit refs σ t).1 = x

/-- The same with every commute deferred to the commit, which never finds a conflict. -/
structure Deferred (refs : R → Hooks V E) (σ : Store R V) (ops : List (Op R V E)) : Prop where
  returns : (run (Txn.exec σ) {} ops).map Prod.fst = (run deferred (values σ) ops).map Prod.fst
  commits : ∀ vs t, run (Txn.exec σ) {} ops = .ok (vs, t) →
    (tryCommit refs σ t).2 ≠ .conflict ∧
      ((tryCommit refs σ t).2 = .committed → ∃ x, run deferred (values σ) ops = .ok (vs, x) ∧
        ∀ r, applyAll (commutesOf r ops) (x r) = .ok (values (tryCommit refs σ t).1 r))

/-- A commute is not seen by the operations after it. -/
theorem commute_not_sequential :
    ¬ Sequential (fun _ => {} : Nat → Hooks Nat Unit) (fun _ => ⟨0, 0⟩)
      [.commute 0 (fun v => .ok (v + 1)), .deref 0] := by
  intro h
  exact absurd h.returns (by decide)

theorem Tracks.start (σ : Store R V) : Tracks σ ({} : Txn R V E) (values σ) fun _ => [] :=
  ⟨rfl, rfl, rfl, fun _ => rfl⟩

/-- Alone, a transaction is the program on plain variables with its commutes deferred. -/
theorem deferred_behaviour (refs : R → Hooks V E) (σ : Store R V) (ops : List (Op R V E)) :
    Deferred refs σ ops := by
  rcases (Tracks.start σ).run ops with ⟨e, hrun, hdeferred⟩ | ⟨vs, t, x, hrun, hdeferred, htracks⟩
  · refine ⟨by rw [hrun, hdeferred]; rfl, fun vs t heq => ?_⟩
    exact nomatch hrun.symm.trans heq
  refine ⟨by rw [hrun, hdeferred]; rfl, fun vs' t' heq => ?_⟩
  obtain ⟨rfl, rfl⟩ := Prod.mk.inj (Except.ok.inj (hrun.symm.trans heq))
  have hunchanged : unchangedAll σ t = true := by
    rw [unchangedAll, htracks.reads, htracks.ensures]
    rfl
  refine ⟨fun hconflict => ?_, fun hcommitted => ⟨x, hdeferred, fun r => ?_⟩⟩
  · rw [tryCommit_conflict, hunchanged] at hconflict
    exact nomatch hconflict
  rcases tryCommit_cases refs σ t with ⟨writes, hw, -, hcommit⟩ | ⟨_, _, -, -, -, hfailed⟩ |
    ⟨-, -, hne⟩
  · rw [hcommit, values, written_value, ← htracks.view]
    exact applyCommutes_value hw.commutes (htracks.commutes r)
  · exact nomatch hfailed.symm.trans hcommitted
  · exact absurd hcommitted hne

end Fol.Stm
