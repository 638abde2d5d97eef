/-
Fol.Lib.Runs — runs of a labelled transition relation, and what holds throughout them.

A run is the list of its steps, each a label with the state after it.
-/
import Mathlib.Tactic.TypeStar

namespace Fol.Lib

variable {σ α β : Type*}

/-! ## §1 Runs -/

def IsRun (step : σ → α → σ → Prop) : σ → List (α × σ) → Prop
  | _, [] => True
  | s, (a, s') :: rest => step s a s' ∧ IsRun step s' rest

/-- In the state before the run and in every state of it. -/
def Always (P : σ → Prop) : σ → List (α × σ) → Prop
  | s, [] => P s
  | s, (_, s') :: rest => P s ∧ Always P s' rest

/-- At every step of the run, in the state before it. -/
def EachStep (C : σ → α → Prop) : σ → List (α × σ) → Prop
  | _, [] => True
  | s, (a, s') :: rest => C s a ∧ EachStep C s' rest

instance EachStep.decide {C : σ → α → Prop} [∀ s a, Decidable (C s a)] :
    (s : σ) → (run : List (α × σ)) → Decidable (EachStep C s run)
  | _, [] => .isTrue trivial
  | s, (a, s') :: rest =>
    have := EachStep.decide (C := C) s' rest
    inferInstanceAs (Decidable (C s a ∧ EachStep C s' rest))

/-- The run of a step function through these labels, as far as it goes. -/
def trace (step : σ → α → Option σ) : σ → List α → List (α × σ)
  | _, [] => []
  | s, a :: as =>
    match step s a with
    | none => []
    | some s' => (a, s') :: trace step s' as

/-- What the steps of the run give, in their order. -/
def yields (f : σ → α → Option β) : σ → List (α × σ) → List β
  | _, [] => []
  | s, (a, s') :: rest => (f s a).toList ++ yields f s' rest

/-- The state after the run. -/
def final : σ → List (α × σ) → σ
  | s, [] => s
  | _, (_, s') :: rest => final s' rest

theorem final_append (s : σ) (run run' : List (α × σ)) :
    final s (run ++ run') = final (final s run) run' := by
  induction run generalizing s with
  | nil => rfl
  | cons p run ih => exact ih p.2

theorem isRun_append {step : σ → α → σ → Prop} {s : σ} {run run' : List (α × σ)} :
    IsRun step s (run ++ run') ↔ IsRun step s run ∧ IsRun step (final s run) run' := by
  induction run generalizing s with
  | nil => simp [IsRun, final]
  | cons p run ih =>
    have htail := @ih p.2
    exact (and_congr_right fun _ => htail).trans and_assoc.symm

theorem eachStep_append {C : σ → α → Prop} {s : σ} {run run' : List (α × σ)} :
    EachStep C s (run ++ run') ↔ EachStep C s run ∧ EachStep C (final s run) run' := by
  induction run generalizing s with
  | nil => simp [EachStep, final]
  | cons p run ih =>
    have htail := @ih p.2
    exact (and_congr_right fun _ => htail).trans and_assoc.symm

theorem Always.of_append {P : σ → Prop} {s : σ} {run run' : List (α × σ)}
    (h : Always P s (run ++ run')) :
    Always P (final s run) run' := by
  induction run generalizing s with
  | nil => exact h
  | cons p run ih => exact ih h.2

theorem trace_isRun (step : σ → α → Option σ) (s : σ) (as : List α) :
    IsRun (fun s a s' => step s a = some s') s (trace step s as) := by
  induction as generalizing s with
  | nil => trivial
  | cons a as ih =>
    unfold trace
    split
    case h_1 => trivial
    case h_2 s' hstep => exact ⟨hstep, ih s'⟩

/-! ## §2 Invariants -/

section

variable {step : σ → α → σ → Prop}

theorem Always.head {P : σ → Prop} {s : σ} {run : List (α × σ)} (h : Always P s run) : P s := by
  cases run with
  | nil => exact h
  | cons _ _ => exact h.1

theorem Always.final {P : σ → Prop} {s : σ} {run : List (α × σ)} (h : Always P s run) :
    P (final s run) := by
  induction run generalizing s with
  | nil => exact h
  | cons _ _ ih => exact ih h.2

theorem Always.and {P Q : σ → Prop} {s : σ} {run : List (α × σ)} (hP : Always P s run)
    (hQ : Always Q s run) : Always (fun s => P s ∧ Q s) s run := by
  induction run generalizing s with
  | nil => exact ⟨hP, hQ⟩
  | cons _ _ ih => exact ⟨⟨hP.1, hQ.1⟩, ih hP.2 hQ.2⟩

theorem Always.imp {P Q : σ → Prop} (hPQ : ∀ s, P s → Q s) {s : σ} {run : List (α × σ)}
    (h : Always P s run) : Always Q s run := by
  induction run generalizing s with
  | nil => exact hPQ s h
  | cons _ _ ih => exact ⟨hPQ s h.1, ih h.2⟩

theorem EachStep.imp {C D : σ → α → Prop} (hCD : ∀ s a, C s a → D s a) {s : σ} {run : List (α × σ)}
    (h : EachStep C s run) : EachStep D s run := by
  induction run generalizing s with
  | nil => trivial
  | cons _ _ ih => exact ⟨hCD _ _ h.1, ih h.2⟩

theorem EachStep.of_forall {C : σ → α → Prop} (h : ∀ s a, C s a) (s : σ) (run : List (α × σ)) :
    EachStep C s run := by
  induction run generalizing s with
  | nil => trivial
  | cons p run ih => exact ⟨h s p.1, ih p.2⟩

theorem Always.congr {P Q : σ → Prop} {s : σ} {run : List (α × σ)}
    (h : Always (fun s => P s ↔ Q s) s run) : Always P s run ↔ Always Q s run := by
  induction run generalizing s with
  | nil => exact h
  | cons p run ih => exact and_congr h.1 (ih h.2)

/-- What every step keeps, under a condition on the steps, holds throughout. -/
theorem invariant_always {I : σ → Prop} {C : σ → α → Prop}
    (hstep : ∀ s a s', I s → C s a → step s a s' → I s') {s : σ} {run : List (α × σ)} (hs : I s)
    (hrun : IsRun step s run) (hC : EachStep C s run) : Always I s run := by
  induction run generalizing s with
  | nil => exact hs
  | cons p run ih => exact ⟨hs, ih (hstep s p.1 p.2 hs hC.1 hrun.1) hrun.2 hC.2⟩

/-- If, beside an invariant, each step keeps `P` exactly when it meets `C`, then `P` holds
throughout a run exactly when every step meets `C`. -/
theorem always_iff_eachStep {I P : σ → Prop} {D C : σ → α → Prop}
    (hI : ∀ s a s', I s → P s → D s a → C s a → step s a s' → I s')
    (hP : ∀ s a s', I s → P s → D s a → step s a s' → (P s' ↔ C s a)) {s : σ} {run : List (α × σ)}
    (hs : I s) (hPs : P s) (hrun : IsRun step s run) (hD : EachStep D s run) :
    Always P s run ↔ EachStep C s run := by
  induction run generalizing s with
  | nil => exact iff_of_true hPs trivial
  | cons p run ih =>
    have hhead := hP s p.1 p.2 hs hPs hD.1 hrun.1
    constructor
    · intro h
      have hC := hhead.mp h.2.head
      exact ⟨hC, (ih (hI _ _ _ hs hPs hD.1 hC hrun.1) h.2.head hrun.2 hD.2).mp h.2⟩
    · intro h
      exact ⟨hPs, (ih (hI _ _ _ hs hPs hD.1 h.1 hrun.1) (hhead.mpr h.1) hrun.2 hD.2).mpr h.2⟩

end

end Fol.Lib
