/-
Fol.Lib.Ledgers — what a system takes in, what it holds and what it gives out.
-/
import Fol.Lib.Runs
import Mathlib.Algebra.BigOperators.Group.Finset.Basic

namespace Fol.Lib

/-- A sum over places, after a change at one of them. -/
theorem sum_update {ι α M : Type*} [Fintype ι] [DecidableEq ι] [AddCommMonoid M] (g : α → M)
    (u : ι → α) (i : ι) (a : α) :
    ∑ x, g (Function.update u i a x) + g (u i) = ∑ x, g (u x) + g a := by
  have hafter :=
    Finset.add_sum_erase Finset.univ (fun x => g (Function.update u i a x)) (Finset.mem_univ i)
  have hbefore := Finset.add_sum_erase Finset.univ (fun x => g (u x)) (Finset.mem_univ i)
  have hsame : ∑ x ∈ Finset.univ.erase i, g (Function.update u i a x) = ∑ x ∈ Finset.univ.erase i,
    g (u x) :=
    Finset.sum_congr rfl fun x hx => by rw [Function.update_of_ne (Finset.ne_of_mem_erase hx)]
  rw [← hafter, ← hbefore, hsame, Function.update_self, add_right_comm, add_assoc, add_comm]

section

variable {σ α β : Type*} {step : σ → α → σ → Prop} {held : σ → Multiset β} {enters leaves : σ → α →
    Option β}

/-- If each step keeps the account, so does a run: what was there and what came in is there now or
has left, each once. -/
theorem account_run (hstep : ∀ s a s', step s a s' →
      held s + (enters s a).toList = held s' + (leaves s a).toList) {s : σ} {run : List (α × σ)}
    (hrun : IsRun step s run) :
    held s + yields enters s run = held (final s run) + yields leaves s run := by
  induction run generalizing s with
  | nil => simp [yields, final]
  | cons p run ih =>
    have hhead := hstep s p.1 p.2 hrun.1
    have htail := ih hrun.2
    simp only [yields, final, ← Multiset.coe_add]
    rw [← add_assoc, hhead, add_right_comm, htail, add_right_comm, add_assoc]

end

end Fol.Lib
