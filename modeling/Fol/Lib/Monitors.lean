/-
Fol.Lib.Monitors — a lock, a condition variable, and threads that wait in a loop until the state is
open.

The sections under the lock are the steps. A notification reaches one waiting thread, if there is
one; which one is not determined. A thread may also wake without a notification, and a timed wait
ends at the next wake.
-/
import Fol.Lib.Runs
import Mathlib.Logic.Function.Basic

namespace Fol.Lib

/-! ## §1 Steps -/

/-- The other sections under the lock: what they do, and whether they notify. The threads wait while
the state is not open. -/
structure Monitor (σ α : Type) where
  step : σ → α → Option σ
  notifies : σ → α → Bool
  isOpen : σ → Bool

/-- A thread: it does not wait; it waits; it has been notified and is to take the lock again; it is
to take the lock again without having been notified. -/
inductive Waiter where
  | away
  | waiting (timed : Bool)
  | notified (timed : Bool)
  | roused (timed : Bool)

namespace Monitor

structure State (T σ : Type) where
  inner : σ
  waiter : T → Waiter := fun _ => .away

inductive Label (T α : Type) where
  | enter (t : T) (timed : Bool)
  | act (a : α)
  | rouse (t : T)
  | resume (t : T)

variable {T σ α : Type} [DecidableEq T]

def State.set (s : State T σ) (t : T) (w : Waiter) : State T σ :=
  { s with waiter := Function.update s.waiter t w }

/-- The thread waits. -/
def State.Waits (s : State T σ) (t : T) : Prop := ∃ timed, s.waiter t = .waiting timed

variable (M : Monitor σ α)

inductive Step : State T σ → Label T α → State T σ → Prop where
  /-- the loop ends at once -/
  | pass {s : State T σ} {t : T} {timed : Bool} (haway : s.waiter t = .away)
      (hopen : M.isOpen s.inner = true) :
      Step s (.enter t timed) s
  | wait {s : State T σ} {t : T} {timed : Bool} (haway : s.waiter t = .away)
      (hopen : M.isOpen s.inner = false) :
      Step s (.enter t timed) (s.set t (.waiting timed))
  | act {s : State T σ} {a : α} {σ' : σ} (hstep : M.step s.inner a = some σ')
      (hnot : M.notifies s.inner a = false) :
      Step s (.act a) { s with inner := σ' }
  | notify {s : State T σ} {a : α} {σ' : σ} {t : T} {timed : Bool}
      (hstep : M.step s.inner a = some σ')
      (hnotifies : M.notifies s.inner a = true) (hwaits : s.waiter t = .waiting timed) :
      Step s (.act a) ({ s with inner := σ' }.set t (.notified timed))
  /-- nobody hears the notification -/
  | unheard {s : State T σ} {a : α} {σ' : σ} (hstep : M.step s.inner a = some σ')
      (hnotifies : M.notifies s.inner a = true) (hnone : ∀ t, ¬ s.Waits t) :
      Step s (.act a) { s with inner := σ' }
  | rouse {s : State T σ} {t : T} {timed : Bool} (hwaits : s.waiter t = .waiting timed) :
      Step s (.rouse t) (s.set t (.roused timed))
  | leave {s : State T σ} {t : T} {timed : Bool}
      (hwoken : s.waiter t = .notified timed ∨ s.waiter t = .roused timed)
      (hleaves : M.isOpen s.inner = true ∨ timed = true) : Step s (.resume t) (s.set t .away)
  | waitAgain {s : State T σ} {t : T}
      (hwoken : s.waiter t = .notified false ∨ s.waiter t = .roused false)
      (hopen : M.isOpen s.inner = false) : Step s (.resume t) (s.set t (.waiting false))

/-! ## §2 Left alone -/

/-- No thread waits in an open state unless a notification is pending. -/
def NoneLeft (s : State T σ) : Prop :=
  M.isOpen s.inner = true → (∃ t, s.Waits t) → ∃ t timed, s.waiter t = .notified timed

/-- A section that opens the state reaches all who wait: one thread by its notification, none
without one. -/
def Reached (s : State T σ) : Label T α → Prop
  | .act a => M.isOpen s.inner = false → (∃ σ', M.step s.inner a = some σ' ∧ M.isOpen σ' = true) →
      if M.notifies s.inner a then ∀ t u, s.Waits t → s.Waits u → t = u else ∀ t, ¬ s.Waits t
  | _ => True

variable {M}

@[simp] theorem waits_set {s : State T σ} {t u : T} {w : Waiter} :
    (s.set t w).Waits u ↔ if u = t then ∃ timed, w = .waiting timed else s.Waits u := by
  by_cases h : u = t
  · subst h
    simp [State.Waits, State.set]
  · simp [State.Waits, State.set, h]

@[simp] theorem inner_set {s : State T σ} {t : T} {w : Waiter} : (s.set t w).inner = s.inner := rfl

/-- In an open state nobody waits. -/
def Cleared (M : Monitor σ α) (s : State T σ) : Prop := M.isOpen s.inner = true → ∀ t, ¬ s.Waits t

omit [DecidableEq T] in
theorem Cleared.noneLeft {s : State T σ} (h : Cleared M s) : NoneLeft M s := by
  rintro hopen ⟨t, ht⟩
  exact absurd ht (h hopen t)

/-- A thread that is woken does not wait. -/
theorem Cleared.set {s : State T σ} (h : Cleared M s) (t : T) {w : Waiter}
    (hw : ∀ timed, w ≠ .waiting timed) :
    Cleared M (s.set t w) := by
  intro hopen u
  rw [waits_set]
  split
  · rintro ⟨timed, heq⟩
    exact hw timed heq
  · exact h hopen u

omit [DecidableEq T] in
/-- A section under the lock, by what becomes of those who wait. -/
theorem Cleared.act {s s' : State T σ} (h : Cleared M s) {a : α}
    (hstep : M.step s.inner a = some s'.inner) (hreached : Reached M s (.act a))
    (hwaits : ∀ t, s'.Waits t → s.Waits t)
    (hone : (if M.notifies s.inner a then ∀ t u, s.Waits t → s.Waits u → t = u else ∀ t,
      ¬ s.Waits t) → ∀ t, ¬ s'.Waits t) :
    Cleared M s' := by
  intro hopen
  cases hs : M.isOpen s.inner with
  | true => exact fun t ht => h hs t (hwaits t ht)
  | false => exact hone (hreached hs ⟨_, hstep, hopen⟩)

theorem Cleared.step {s s' : State T σ} {l : Label T α} (h : Cleared M s) (hreached : Reached M s l)
    (hstep : Step M s l s') : Cleared M s' := by
  cases hstep with
  | pass _ _ => exact h
  | wait _ hclosed =>
    intro hopen
    rw [inner_set, hclosed] at hopen
    cases hopen
  | act hstep hnot =>
    refine h.act hstep hreached (fun t ht => ht) fun hone => ?_
    rw [hnot] at hone
    exact hone
  | @notify a σ' t timed hstep hnotifies hwaits =>
    refine h.act hstep hreached (fun u hu => ?_) fun hone u hu => ?_
    · rw [waits_set] at hu
      split at hu
      · obtain ⟨_, hu⟩ := hu
        cases hu
      · exact hu
    · rw [hnotifies] at hone
      rw [waits_set] at hu
      split at hu
      · obtain ⟨_, hu⟩ := hu
        cases hu
      · next hne => exact hne (hone u t hu ⟨timed, hwaits⟩)
  | unheard hstep _ hnone => exact h.act hstep hreached (fun t ht => ht) fun _ => hnone
  | rouse _ => exact h.set _ nofun
  | leave _ _ => exact h.set _ nofun
  | waitAgain _ hclosed =>
    intro hopen
    rw [inner_set, hclosed] at hopen
    cases hopen

/-- In a run in which every opening reaches all who wait, no thread is left behind. -/
theorem noneLeft_always {s : State T σ} (hs : ∀ t, s.waiter t = .away)
    {run : List (Label T α × State T σ)} (hrun : IsRun (Step M) s run)
    (hreached : EachStep (Reached M) s run) : Always (NoneLeft M) s run := by
  have hstart : Cleared M s := by
    rintro - t ⟨timed, ht⟩
    rw [hs t] at ht
    cases ht
  exact (invariant_always (fun _ _ _ h hc hstep => h.step hc hstep) hstart hrun hreached).imp
    fun _ h => h.noneLeft

/-! ## §3 Decided -/

/-- In an open state with a waiting thread, the notified threads may all leave before anything else
happens. -/
theorem left_behind_of_open {s : State T σ} (hopen : M.isOpen s.inner = true) {u : T}
    (hu : s.Waits u) (ts : List T) (hts : ∀ t timed, s.waiter t = .notified timed → t ∈ ts) :
    ∃ run, IsRun (Step M) s run ∧ ¬ Always (NoneLeft M) s run := by
  induction ts generalizing s with
  | nil =>
    refine ⟨[], trivial, fun hnone => ?_⟩
    obtain ⟨t, timed, ht⟩ := hnone hopen ⟨u, hu⟩
    exact List.not_mem_nil (hts t timed ht)
  | cons t ts ih =>
    by_cases ht : ∃ timed, s.waiter t = .notified timed
    · obtain ⟨timed, ht⟩ := ht
      have hne : u ≠ t := by
        rintro rfl
        obtain ⟨_, hu⟩ := hu
        rw [ht] at hu
        cases hu
      have hu' : (s.set t .away).Waits u := by
        rw [waits_set, if_neg hne]
        exact hu
      obtain ⟨run, hrun, hnot⟩ := @ih (s.set t .away) hopen hu' fun v timed' hv => by
        by_cases hvt : v = t
        · subst hvt
          simp [State.set] at hv
        · simp only [State.set, Function.update_of_ne hvt] at hv
          exact (List.mem_cons.mp (hts v timed' hv)).resolve_left hvt
      exact ⟨(.resume t, s.set t .away) :: run, ⟨.leave (.inl ht) (.inl hopen), hrun⟩,
        fun h => hnot h.2⟩
    · refine ih hopen hu fun v timed hv => ?_
      have hvt : v ≠ t := fun heq => ht ⟨timed, heq ▸ hv⟩
      exact (List.mem_cons.mp (hts v timed hv)).resolve_left hvt

/-- A section that does not reach all who wait can leave one of them behind. -/
theorem left_behind {s : State T σ} {a : α} (h : ¬ Reached M s (.act a)) (ts : List T)
    (hts : ∀ t timed, s.waiter t = .notified timed → t ∈ ts) :
    ∃ run, IsRun (Step M) s run ∧ ¬ Always (NoneLeft M) s run := by
  simp only [Reached, not_forall] at h
  obtain ⟨-, ⟨σ', hstep, hopen⟩, h⟩ := h
  cases hn : M.notifies s.inner a with
  | false =>
    simp only [hn, Bool.false_eq_true, if_false, not_forall, not_not] at h
    obtain ⟨u, hu⟩ := h
    obtain ⟨run, hrun, hnot⟩ :=
      left_behind_of_open (M := M) (s := ({ s with inner := σ' } : State T σ)) hopen hu ts hts
    exact ⟨(.act a, _) :: run, ⟨.act hstep hn, hrun⟩, fun h => hnot h.2⟩
  | true =>
    simp only [hn, if_true, not_forall] at h
    obtain ⟨t, u, ⟨timed, ht⟩, hu, hne⟩ := h
    have hu' : (({ s with inner := σ' } : State T σ).set t (.notified timed)).Waits u := by
      rw [waits_set, if_neg (Ne.symm hne)]
      exact hu
    obtain ⟨run, hrun, hnot⟩ :=
      @left_behind_of_open T σ α _ M (({ s with inner := σ' } : State T σ).set t (.notified timed))
      hopen u hu' (t :: ts)
        fun v timed' hv => by
          by_cases hvt : v = t
          · exact List.mem_cons.mpr (.inl hvt)
          · simp only [State.set, Function.update_of_ne hvt] at hv
            exact List.mem_cons_of_mem t (hts v timed' hv)
    exact ⟨(.act a, _) :: run, ⟨.notify hstep hn ht, hrun⟩, fun h => hnot h.2⟩

/-- It is known which threads have been notified. -/
theorem notified_step {s s' : State T σ} {l : Label T α} (hstep : Step M s l s') {ts : List T}
    (hts : ∀ t timed, s.waiter t = .notified timed → t ∈ ts) :
    ∃ ts' : List T, ∀ t timed, s'.waiter t = .notified timed → t ∈ ts' := by
  have hset : ∀ (t : T) (w : Waiter) (σ' : σ),
      ∀ u timed, (({ s with inner := σ' } : State T σ).set t w).waiter u = .notified timed →
      u ∈ t :: ts := by
    intro t w σ' u timed hu
    by_cases hut : u = t
    · exact List.mem_cons.mpr (.inl hut)
    · simp only [State.set, Function.update_of_ne hut] at hu
      exact List.mem_cons_of_mem t (hts u timed hu)
  cases hstep with
  | pass _ _ => exact ⟨ts, hts⟩
  | wait _ _ => exact ⟨_, hset _ _ s.inner⟩
  | act _ _ => exact ⟨ts, hts⟩
  | notify _ _ _ => exact ⟨_, hset _ _ _⟩
  | unheard _ _ _ => exact ⟨ts, hts⟩
  | rouse _ => exact ⟨_, hset _ _ s.inner⟩
  | leave _ _ => exact ⟨_, hset _ _ s.inner⟩
  | waitAgain _ _ => exact ⟨_, hset _ _ s.inner⟩

theorem notified_run {s : State T σ} {run : List (Label T α × State T σ)}
    (hrun : IsRun (Step M) s run) {ts : List T}
    (hts : ∀ t timed, s.waiter t = .notified timed → t ∈ ts) :
    ∃ ts' : List T, ∀ t timed, (final s run).waiter t = .notified timed → t ∈ ts' := by
  induction run generalizing s ts with
  | nil => exact ⟨ts, hts⟩
  | cons p run ih =>
    obtain ⟨ts', hts'⟩ := notified_step hrun.1 hts
    exact ih hrun.2 hts'

/-- Whether a thread can be left behind is decided by `Reached`: none is in a run whose sections all
meet it, and a run that comes to a section that does not has a continuation in which one is. -/
structure Decided (M : Monitor σ α) (s : State T σ) : Prop where
  enough : ∀ run, IsRun (Step M) s run → EachStep (Reached M) s run → Always (NoneLeft M) s run
  needed : ∀ run, IsRun (Step M) s run → ∀ a, ¬ Reached M (final s run) (.act a) →
    ∃ more, IsRun (Step M) s (run ++ more) ∧ ¬ Always (NoneLeft M) s (run ++ more)

theorem decided {s : State T σ} (hs : ∀ t, s.waiter t = .away) : Decided M s where
  enough _ hrun hreached := noneLeft_always hs hrun hreached
  needed run hrun a ha := by
    have hnone : ∀ t timed, s.waiter t = .notified timed → t ∈ ([] : List T) := by
      intro t timed ht
      rw [hs t] at ht
      cases ht
    obtain ⟨ts, hts⟩ := notified_run hrun hnone
    obtain ⟨more, hmore, hnot⟩ := left_behind ha ts hts
    exact ⟨more, isRun_append.mpr ⟨hrun, hmore⟩, fun h => hnot h.of_append⟩

end Monitor

end Fol.Lib
