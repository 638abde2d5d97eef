/-
Fol.Lib.Search — depth-first search in a directed graph given by lists of successors.

The visited vertices are threaded through the search, and the search stops at its target.
The fuel bounds the depth: a finite set of vertices that is closed under successors bounds
how much of it is used.
-/
import Fol.Lib.Fuel
import Mathlib.Data.Finset.Card

namespace Fol.Lib.Search

open Relation

variable {V : Type} [DecidableEq V]

/-! ## §1 Search -/

/-- The vertices of a list in turn, until a visit finds the target. -/
def visitAll (visit : V → List V → Option (Bool × List V)) :
    List V → List V → Option (Bool × List V)
  | [], visited => some (false, visited)
  | v :: vs, visited =>
    (visit v visited).bind fun r => if r.1 then some (true, r.2) else visitAll visit vs r.2

/-- Whether the target was found, and the vertices visited; `none` when the fuel is used up. -/
def visit (succ : V → List V) (target : V) : Nat → V → List V → Option (Bool × List V)
  | 0, _, _ => none
  | fuel + 1, v, visited =>
    if v = target then some (true, visited)
    else if v ∈ visited then some (false, visited)
    else visitAll (visit succ target fuel) (succ v) (v :: visited)

/-- Whether the target is found from one of the starts. -/
def search (succ : V → List V) (target : V) (fuel : Nat) (starts : List V) : Option Bool :=
  (visitAll (visit succ target fuel) starts []).map (·.1)

/-! ## §2 Correctness -/

section

variable {succ : V → List V} {target : V}

/-- Reachability by successors. -/
def Reaches (succ : V → List V) : V → V → Prop := ReflTransGen fun v w => w ∈ succ v

/-- What a search from some vertices establishes: a path to the target, or a set without the
target that is closed under successors, apart from the vertices visited before. -/
structure Establishes (succ : V → List V) (target : V) (vs visited : List V) (r : Bool × List V) :
    Prop where
  found : r.1 = true → ∃ v ∈ vs, Reaches succ v target
  grows : r.1 = false → visited ⊆ r.2
  covers : r.1 = false → vs ⊆ r.2
  misses : r.1 = false → target ∉ visited → target ∉ r.2
  closed : r.1 = false → ∀ v ∈ r.2, v ∉ visited → succ v ⊆ r.2

omit [DecidableEq V] in
theorem visitAll_establishes {visit : V → List V → Option (Bool × List V)}
    (hvisit : ∀ v visited r, visit v visited = some r → Establishes succ target [v] visited r)
    {vs visited : List V} {r : Bool × List V} (h : visitAll visit vs visited = some r) :
    Establishes succ target vs visited r := by
  induction vs generalizing visited with
  | nil =>
    cases h
    exact ⟨by simp, by simp, by simp, fun _ hn => hn, fun _ v hv hn => absurd hv hn⟩
  | cons v vs ih =>
    obtain ⟨r₁, h₁, h⟩ := Option.bind_eq_some_iff.mp h
    have hhead := hvisit v visited r₁ h₁
    by_cases hfound : r₁.1 = true
    · rw [if_pos hfound] at h
      cases h
      obtain ⟨w, hw, hpath⟩ := hhead.found hfound
      rw [List.mem_singleton.mp hw] at hpath
      exact ⟨fun _ => ⟨v, List.mem_cons_self, hpath⟩, by simp, by simp, by simp, by simp⟩
    · rw [if_neg hfound] at h
      have hno := Bool.not_eq_true _ ▸ hfound
      have htail := ih h
      refine ⟨fun hr => ?_, fun hr => ?_, fun hr => ?_, fun hr hmiss => ?_, fun hr w hw hnot => ?_⟩
      · obtain ⟨w, hw, hpath⟩ := htail.found hr
        exact ⟨w, List.mem_cons_of_mem v hw, hpath⟩
      · exact List.Subset.trans (hhead.grows hno) (htail.grows hr)
      · have hv : v ∈ r₁.2 := hhead.covers hno (List.mem_singleton_self v)
        exact List.cons_subset.mpr ⟨htail.grows hr hv, htail.covers hr⟩
      · exact htail.misses hr (hhead.misses hno hmiss)
      · by_cases hw₁ : w ∈ r₁.2
        · exact List.Subset.trans (hhead.closed hno w hw₁ hnot) (htail.grows hr)
        · exact htail.closed hr w hw hw₁

theorem visit_establishes (fuel : Nat) : ∀ v visited r, visit succ target fuel v visited = some r →
    Establishes succ target [v] visited r := by
  induction fuel with
  | zero =>
    intro v visited r h
    cases h
  | succ fuel ih =>
    intro v visited r h
    rw [visit] at h
    by_cases htarget : v = target
    · rw [if_pos htarget] at h
      cases h
      refine ⟨fun _ => ⟨v, List.mem_singleton_self v, ?_⟩, by simp, by simp, by simp, by simp⟩
      rw [htarget]
      exact .refl
    · rw [if_neg htarget] at h
      by_cases hvisited : v ∈ visited
      · rw [if_pos hvisited] at h
        cases h
        exact ⟨by simp, by simp, by simp [hvisited], fun _ hn => hn, fun _ w hw hn => absurd hw hn⟩
      · rw [if_neg hvisited] at h
        have hall := visitAll_establishes ih h
        refine ⟨fun hr => ?_, fun hr => ?_, fun hr => ?_, fun hr hmiss => ?_,
          fun hr w hw hnot => ?_⟩
        · obtain ⟨w, hw, hpath⟩ := hall.found hr
          exact ⟨v, List.mem_singleton_self v, hpath.head hw⟩
        · exact List.Subset.trans (List.subset_cons_self v visited) (hall.grows hr)
        · exact List.cons_subset.mpr ⟨hall.grows hr List.mem_cons_self, List.nil_subset _⟩
        · exact hall.misses hr fun hmem =>
            (List.mem_cons.mp hmem).elim (fun heq => htarget heq.symm) hmiss
        · by_cases hwv : w = v
          · rw [hwv]
            exact hall.covers hr
          · exact hall.closed hr w hw fun hmem => (List.mem_cons.mp hmem).elim hwv hnot

/-- The search finds the target exactly if there is a path to it. -/
theorem search_iff {fuel : Nat} {starts : List V} {b : Bool}
    (h : search succ target fuel starts = some b) :
    b = true ↔ ∃ v ∈ starts, Reaches succ v target := by
  obtain ⟨r, hr, rfl⟩ := Option.map_eq_some_iff.mp h
  have hall := visitAll_establishes (visit_establishes fuel) hr
  refine ⟨hall.found, fun ⟨v, hv, hpath⟩ => ?_⟩
  by_contra hfalse
  have hno := Bool.not_eq_true _ ▸ hfalse
  have hreach : ∀ w, Reaches succ v w → w ∈ r.2 := by
    intro w hw
    induction hw with
    | refl => exact hall.covers hno hv
    | tail _ hstep ih => exact hall.closed hno _ ih (List.not_mem_nil) hstep
  exact hall.misses hno List.not_mem_nil (hreach target hpath)

/-! ## §3 Termination -/

/-- A fuel above the number of unvisited vertices is enough. -/
theorem visitAll_isSome {U : Finset V} (hU : ∀ v ∈ U, ∀ w ∈ succ v, w ∈ U) (fuel : Nat)
    {vs visited : List V} (hvs : ∀ v ∈ vs, v ∈ U)
    (hfuel : (U \ visited.toFinset).card < fuel) :
    ∃ r, visitAll (visit succ target fuel) vs visited = some r ∧ visited ⊆ r.2 := by
  induction fuel generalizing vs visited with
  | zero => exact absurd hfuel (Nat.not_lt_zero _)
  | succ fuel ih =>
    induction vs generalizing visited with
    | nil => exact ⟨_, rfl, fun _ h => h⟩
    | cons v vs ihvs =>
      have hv := hvs v List.mem_cons_self
      have hvisit : ∃ r, visit succ target (fuel + 1) v visited = some r ∧ visited ⊆ r.2 := by
        rw [visit]
        by_cases htarget : v = target
        · exact ⟨_, if_pos htarget, fun _ h => h⟩
        · rw [if_neg htarget]
          by_cases hvisited : v ∈ visited
          · exact ⟨_, if_pos hvisited, fun _ h => h⟩
          · rw [if_neg hvisited]
            have hless : (U \ (v :: visited).toFinset).card < (U \ visited.toFinset).card := by
              apply Finset.card_lt_card
              refine Finset.ssubset_iff_of_subset ?_ |>.mpr ⟨v, ?_, ?_⟩
              · exact Finset.sdiff_subset_sdiff (Finset.Subset.refl U) (by simp)
              · simp [hv, hvisited]
              · simp
            have hfuel' : (U \ (v :: visited).toFinset).card < fuel := by omega
            obtain ⟨r, hr, hsub⟩ := ih (hU v hv) hfuel'
            exact ⟨r, hr, List.Subset.trans (List.subset_cons_self v visited) hsub⟩
      obtain ⟨r₁, hr₁, hsub₁⟩ := hvisit
      rw [visitAll, hr₁, Option.bind_some]
      by_cases hfound : r₁.1 = true
      · exact ⟨_, if_pos hfound, hsub₁⟩
      · rw [if_neg hfound]
        have hle : (U \ r₁.2.toFinset).card ≤ (U \ visited.toFinset).card := by
          apply Finset.card_le_card
          refine Finset.sdiff_subset_sdiff (Finset.Subset.refl U) fun w hw => ?_
          exact List.mem_toFinset.mpr (hsub₁ (List.mem_toFinset.mp hw))
        have hfuel₁ : (U \ r₁.2.toFinset).card < fuel + 1 := by omega
        obtain ⟨r, hr, hsub⟩ := ihvs (fun w hw => hvs w (List.mem_cons_of_mem v hw)) hfuel₁
        exact ⟨r, hr, List.Subset.trans hsub₁ hsub⟩

end

end Fol.Lib.Search
