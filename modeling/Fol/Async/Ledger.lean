/-
Fol.Async.Ledger — where the values of a channel without a transducer are.

The puts are numbered, so each value is in one place: still with its put, among the pending puts, or
accepted (`Numbered`). A result cell belongs to one take (`Owned`). Both hold in every run, lost
values or not; which values are lost is said in `Kept`.
-/
import Fol.Async.Moves
import Mathlib.Data.List.Nodup
import Mathlib.Data.List.Perm.Basic

namespace Fol.Async

variable {S V : Type}

/-! ## §1 Calls -/

/-- The value a call waits to put into the buffer. -/
def Call.putting? : Call V → Option (Item V)
  | .putting x => some x
  | _ => none

/-- The value in the result cell of a call that has not seen it yet. -/
def Call.content? (cells : Nat → Option (Item V)) : Call V → Option (Item V)
  | .taking cell => cells cell
  | _ => none

def inFlight (cells : Nat → Option (Item V)) (calls : List (Call V)) : List (Item V) :=
  calls.filterMap (Call.content? cells)

theorem inFlight_update_of_not_mem {cells : Nat → Option (Item V)} {calls : List (Call V)}
    {cell : Nat} (h : .taking cell ∉ calls) (x : Option (Item V)) :
    inFlight (Function.update cells cell x) calls = inFlight cells calls := by
  refine List.filterMap_congr fun call hcall => ?_
  cases call with
  | taking c =>
    have hne : c ≠ cell := fun heq => h (heq ▸ hcall)
    exact Function.update_of_ne hne x cells
  | _ => rfl

/-- A new call has nothing in its cell. -/
theorem inFlight_snoc {cells : Nat → Option (Item V)} {call : Call V}
    (h : call.content? cells = none) (calls : List (Call V)) :
    inFlight cells (calls ++ [call]) = inFlight cells calls := by
  simp [inFlight, h]

/-- A value put into the cell of a waiting take is in flight. -/
theorem inFlight_update_perm {cells : Nat → Option (Item V)} {calls : List (Call V)} {cell : Nat}
    {x : Item V} (hnodup : calls.Nodup) (hcall : .taking cell ∈ calls) (hcell : cells cell = none) :
    (inFlight (Function.update cells cell (some x)) calls).Perm (inFlight cells calls ++ [x]) := by
  obtain ⟨before, after, rfl⟩ := List.append_of_mem hcall
  obtain ⟨hnot, -⟩ := List.nodup_cons.mp (List.perm_middle.nodup_iff.mp hnodup)
  have hbefore : .taking cell ∉ before := fun h => hnot (List.mem_append_left _ h)
  have hafter : .taking cell ∉ after := fun h => hnot (List.mem_append_right _ h)
  have hnew : inFlight (Function.update cells cell (some x)) (before ++ .taking cell :: after) =
      inFlight cells before ++ x :: inFlight cells after := by
    rw [← inFlight_update_of_not_mem hbefore (some x), ← inFlight_update_of_not_mem hafter (some x)]
    simp [inFlight, Call.content?]
  have hold : inFlight cells (before ++ .taking cell :: after) = inFlight cells before ++
    inFlight cells after := by
    simp [inFlight, Call.content?, hcell]
  rw [hnew, hold]
  exact List.perm_middle.trans (List.perm_append_singleton x _).symm

/-- A call that waits, and the others. -/
theorem calls_erased {s : State S V} {i : Nat} {t : Waiter V} (h : s.waiting[i]? = some t) :
    s.calls.Perm (t.call :: State.calls { s with waiting := s.waiting.eraseIdx i }) := by
  obtain ⟨hi, rfl⟩ := List.getElem?_eq_some_iff.mp h
  exact (List.getElem_cons_eraseIdx_perm hi).symm.map Waiter.call

/-! ## §2 Numbered -/

/-- The values accepted, pending, or held by puts that wait for room. -/
def tracked (history : History V) (pending : List (Item V)) (calls : List (Call V)) :
    List (Item V) :=
  history.accepted ++ (pending ++ calls.filterMap Call.putting?)

/-- No two values have one number; a put that has returned does not wait; a put that returned `t`
has its value accepted; a put whose done cell is set has its value taken; a pending value has its
put waiting or refused. -/
structure Numbered (history : History V) (pending : List (Item V)) (calls : List (Call V))
    (done : Nat → Bool) (sent : Nat) : Prop where
  distinct : ((tracked history pending calls).map Item.put).Nodup
  below : ∀ x ∈ tracked history pending calls, x.put < sent
  nodup : calls.Nodup
  offering : ∀ x, .offering x ∈ calls → x.put < sent
  returned : ∀ x b, (x, b) ∈ history.puts → x.put < sent ∧ .putting x ∉ calls ∧ .offering x ∉ calls
  settled : ∀ x, (x, true) ∈ history.puts → x ∈ history.accepted
  finished : ∀ p, done p = true → ∃ x ∈ history.accepted, x.put = p
  resolved : ∀ x, .offering x ∈ calls → done x.put = true → x ∈ history.accepted ∧ x ∈ history.taken
  attended : ∀ x ∈ pending, .offering x ∈ calls ∨ (x, false) ∈ history.puts

/-- A value that has just been put, or whose put has just been woken. -/
structure New (history : History V) (pending : List (Item V)) (calls : List (Call V)) (sent : Nat)
    (x : Item V) : Prop where
  below : x.put < sent
  untracked : x.put ∉ (tracked history pending calls).map Item.put
  returned : ∀ b, (x, b) ∉ history.puts
  offering : .offering x ∉ calls

section

variable {history history' : History V} {pending : List (Item V)} {calls calls' : List (Call V)}
  {done : Nat → Bool} {sent : Nat} {x : Item V}

theorem mem_tracked_putting (h : .putting x ∈ calls) : x ∈ tracked history pending calls :=
  List.mem_append_right _ (List.mem_append_right _ (List.mem_filterMap.mpr ⟨_, h, rfl⟩))

namespace New

theorem not_mem (h : New history pending calls sent x) : x ∉ tracked history pending calls :=
  fun hmem => h.untracked (List.mem_map_of_mem hmem)

theorem putting (h : New history pending calls sent x) : .putting x ∉ calls :=
  fun hmem => h.not_mem (mem_tracked_putting hmem)

end New

namespace Numbered

/-- A pending value is not accepted yet. -/
theorem not_accepted (h : Numbered history pending calls done sent) (hx : x ∈ pending) :
    x ∉ history.accepted := by
  intro haccepted
  have hdistinct := (List.nodup_append.mp (List.map_append ▸ h.distinct)).2.2
  exact hdistinct _ (List.mem_map_of_mem haccepted) _
    (List.mem_map_of_mem (List.mem_append_left _ hx)) rfl

/-- The next number is new. -/
theorem next (h : Numbered history pending calls done sent) (v : V) :
    Numbered history pending calls done (sent + 1) ∧
    New history pending calls (sent + 1) ⟨sent, v⟩ := by
  constructor
  · exact ⟨h.distinct, fun x hx => Nat.lt_succ_of_lt (h.below x hx), h.nodup,
      fun x hx => Nat.lt_succ_of_lt (h.offering x hx),
      fun x b hx => ⟨Nat.lt_succ_of_lt (h.returned x b hx).1, (h.returned x b hx).2⟩, h.settled,
      h.finished,
      h.resolved, h.attended⟩
  · refine ⟨Nat.lt_succ_self _, fun hmem => ?_, fun b hb => ?_, fun hoff => ?_⟩
    · obtain ⟨x, hx, heq⟩ := List.mem_map.mp hmem
      exact absurd (h.below x hx) (by rw [heq]; exact Nat.lt_irrefl _)
    · exact Nat.lt_irrefl _ (h.returned _ b hb).1
    · exact Nat.lt_irrefl _ (h.offering _ hoff)

theorem perm (h : Numbered history pending calls done sent) (hcalls : calls.Perm calls') :
    Numbered history pending calls' done sent := by
  have htracked : (tracked history pending calls).Perm (tracked history pending calls') :=
    ((hcalls.filterMap _).append_left _).append_left _
  have hmem (call : Call V) : call ∈ calls' ↔ call ∈ calls := hcalls.mem_iff.symm
  refine ⟨(htracked.map _).nodup_iff.mp h.distinct, fun x hx => h.below x (htracked.mem_iff.mpr hx),
    hcalls.nodup_iff.mp h.nodup, fun x hx => h.offering x ((hmem _).mp hx), ?_, h.settled,
    h.finished, ?_, ?_⟩
  · simpa only [hmem] using h.returned
  · simpa only [hmem] using h.resolved
  · simpa only [hmem] using h.attended

/-- A put returns `nil`. -/
theorem refuse (h : Numbered history pending calls done sent)
    (hx : New history pending calls sent x) :
    Numbered { history with puts := history.puts ++ [(x, false)] } pending calls done sent := by
  refine ⟨h.distinct, h.below, h.nodup, h.offering, fun y b hy => ?_, fun y hy => ?_, h.finished,
    h.resolved, fun y hy => ?_⟩
  · rcases List.mem_append.mp hy with hold | hnew
    · exact h.returned y b hold
    · obtain ⟨rfl, rfl⟩ := Prod.mk.inj (List.mem_singleton.mp hnew)
      exact ⟨hx.below, hx.putting, hx.offering⟩
  · rcases List.mem_append.mp hy with hold | hnew
    · exact h.settled y hold
    · simp at hnew
  · exact (h.attended y hy).imp_right (List.mem_append_left _)

/-- A value is accepted while its put runs, and the put returns `t`. -/
theorem acceptNew (h : Numbered history pending calls done sent)
    (hx : New history pending calls sent x)
    (haccepted : history'.accepted = history.accepted ++ [x])
    (hputs : history'.puts = history.puts ++ [(x, true)])
    (htaken : history'.taken = history.taken) : Numbered history' pending calls done sent := by
  have htracked : (tracked history' pending calls).Perm (x :: tracked history pending calls) := by
    rw [tracked, haccepted, List.append_assoc]
    exact List.perm_middle
  have haccept (y : Item V) (hy : y ∈ history.accepted) : y ∈ history'.accepted := by
    rw [haccepted]
    exact List.mem_append_left _ hy
  refine ⟨?_, fun y hy => ?_, h.nodup, h.offering, fun y b hy => ?_, fun y hy => ?_, fun p hp => ?_,
    fun y hy hdone => ?_, fun y hy => ?_⟩
  · rw [(htracked.map _).nodup_iff]
    exact List.nodup_cons.mpr ⟨hx.untracked, h.distinct⟩
  · rcases List.mem_cons.mp (htracked.mem_iff.mp hy) with rfl | hold
    · exact hx.below
    · exact h.below y hold
  · rw [hputs] at hy
    rcases List.mem_append.mp hy with hold | hnew
    · exact h.returned y b hold
    · obtain ⟨rfl, rfl⟩ := Prod.mk.inj (List.mem_singleton.mp hnew)
      exact ⟨hx.below, hx.putting, hx.offering⟩
  · rw [hputs] at hy
    rcases List.mem_append.mp hy with hold | hnew
    · exact haccept y (h.settled y hold)
    · obtain ⟨rfl, -⟩ := Prod.mk.inj (List.mem_singleton.mp hnew)
      simp [haccepted]
  · obtain ⟨y, hy, hput⟩ := h.finished p hp
    exact ⟨y, haccept y hy, hput⟩
  · obtain ⟨hin, htook⟩ := h.resolved y hy hdone
    exact ⟨haccept y hin, htaken ▸ htook⟩
  · rw [hputs]
    exact (h.attended y hy).imp_right (List.mem_append_left _)

/-- A put waits for room. -/
theorem wait (h : Numbered history pending calls done sent)
    (hx : New history pending calls sent x) :
    Numbered history pending (calls ++ [.putting x]) done sent := by
  have htracked :
    (tracked history pending (calls ++ [.putting x])).Perm
    (x :: tracked history pending calls) := by
    have happend :
      tracked history pending (calls ++ [.putting x]) = tracked history pending calls ++ [x] := by
      simp [tracked, Call.putting?]
    rw [happend]
    exact List.perm_append_singleton x _
  have hmem (y : Item V) : .offering y ∈ calls ++ [.putting x] ↔ .offering y ∈ calls := by simp
  refine ⟨?_, fun y hy => ?_, ?_, fun y hy => h.offering y ((hmem y).mp hy), fun y b hy => ?_,
    h.settled, h.finished, ?_, ?_⟩
  · rw [(htracked.map _).nodup_iff]
    exact List.nodup_cons.mpr ⟨hx.untracked, h.distinct⟩
  · rcases List.mem_cons.mp (htracked.mem_iff.mp hy) with rfl | hold
    · exact hx.below
    · exact h.below y hold
  · exact (List.perm_append_singleton _ _).nodup_iff.mpr (List.nodup_cons.mpr ⟨hx.putting, h.nodup⟩)
  · obtain ⟨hsent, hputting, hoffering⟩ := h.returned y b hy
    refine ⟨hsent, fun hin => ?_, fun hin => hoffering ((hmem y).mp hin)⟩
    rcases List.mem_append.mp hin with hold | hnew
    · exact hputting hold
    · obtain rfl := Call.putting.inj (List.mem_singleton.mp hnew)
      exact hx.returned b hy
  · simpa only [hmem] using h.resolved
  · simpa only [hmem] using h.attended

/-- A put waits for a taker, with its value pending. -/
theorem pend (h : Numbered history pending calls done sent)
    (hx : New history pending calls sent x) :
    Numbered history (pending ++ [x]) (calls ++ [.offering x]) done sent := by
  have htracked : (tracked history (pending ++ [x]) (calls ++ [.offering x])).Perm
      (x :: tracked history pending calls) := by
    have hputting :
      (calls ++ [Call.offering x]).filterMap Call.putting? = calls.filterMap Call.putting? := by
      simp [Call.putting?]
    rw [tracked, tracked, hputting, List.append_assoc, List.singleton_append, ← List.append_assoc,
      ← List.append_assoc]
    exact List.perm_middle
  have hmem (y : Item V) : .putting y ∈ calls ++ [.offering x] ↔ .putting y ∈ calls := by simp
  refine ⟨?_, fun y hy => ?_, ?_, fun y hy => ?_, fun y b hy => ?_, h.settled, h.finished,
    fun y hy hdone => ?_, fun y hy => ?_⟩
  · rw [(htracked.map _).nodup_iff]
    exact List.nodup_cons.mpr ⟨hx.untracked, h.distinct⟩
  · rcases List.mem_cons.mp (htracked.mem_iff.mp hy) with rfl | hold
    · exact hx.below
    · exact h.below y hold
  · exact (List.perm_append_singleton _ _).nodup_iff.mpr
      (List.nodup_cons.mpr ⟨hx.offering, h.nodup⟩)
  · rcases List.mem_append.mp hy with hold | hnew
    · exact h.offering y hold
    · obtain rfl := Call.offering.inj (List.mem_singleton.mp hnew)
      exact hx.below
  · obtain ⟨hsent, hputting, hoffering⟩ := h.returned y b hy
    refine ⟨hsent, fun hin => hputting ((hmem y).mp hin), fun hin => ?_⟩
    rcases List.mem_append.mp hin with hold | hnew
    · exact hoffering hold
    · obtain rfl := Call.offering.inj (List.mem_singleton.mp hnew)
      exact hx.returned b hy
  · rcases List.mem_append.mp hy with hold | hnew
    · exact h.resolved y hold hdone
    · -- The done cell of a new put is not set: its number is not among the accepted ones.
      obtain rfl := Call.offering.inj (List.mem_singleton.mp hnew)
      obtain ⟨z, hz, hput⟩ := h.finished y.put hdone
      exact absurd (List.mem_map.mpr ⟨z, List.mem_append_left _ hz, hput⟩) hx.untracked
  · rcases List.mem_append.mp hy with hold | hnew
    · exact (h.attended y hold).imp_left (List.mem_append_left _)
    · obtain rfl := List.mem_singleton.mp hnew
      exact .inl (by simp)

/-- The first pending value is taken, and the done cell of its put is set. -/
theorem takePending {rest : List (Item V)} (h : Numbered history (x :: rest) calls done sent)
    (htidy : ∀ y, .offering y ∈ calls → y ∈ x :: rest ∨ done y.put = true)
    (haccepted : history'.accepted = history.accepted ++ [x]) (hputs : history'.puts = history.puts)
    (htaken : history'.taken = history.taken ++ [x]) :
    Numbered history' rest calls (Function.update done x.put true) sent := by
  have htracked : (tracked history' rest calls).Perm (tracked history (x :: rest) calls) := by
    rw [tracked, tracked, haccepted, List.append_assoc]
    rfl
  have haccept (y : Item V) (hy : y ∈ history.accepted) : y ∈ history'.accepted := by
    rw [haccepted]
    exact List.mem_append_left _ hy
  refine ⟨(htracked.map _).nodup_iff.mpr h.distinct, fun y hy => h.below y (htracked.mem_iff.mp hy),
    h.nodup, h.offering, hputs ▸ h.returned, fun y hy => haccept y (h.settled y (hputs ▸ hy)),
    fun p hp => ?_,
    fun y hy hdone => ?_, fun y hy => ?_⟩
  · by_cases hp' : p = x.put
    · exact ⟨x, by simp [haccepted], hp'.symm⟩
    · rw [Function.update_of_ne hp'] at hp
      obtain ⟨y, hy, hput⟩ := h.finished p hp
      exact ⟨y, haccept y hy, hput⟩
  · by_cases hput : y.put = x.put
    · have hx : x ∈ tracked history (x :: rest) calls := by simp [tracked]
      have hy' : y ∈ tracked history (x :: rest) calls := by
        rcases htidy y hy with hin | hdone
        · exact List.mem_append_right _ (List.mem_append_left _ hin)
        · exact List.mem_append_left _ (h.resolved y hy hdone).1
      obtain rfl := List.inj_on_of_nodup_map h.distinct hy' hx hput
      simp [haccepted, htaken]
    · rw [Function.update_of_ne hput] at hdone
      obtain ⟨hin, htook⟩ := h.resolved y hy hdone
      exact ⟨haccept y hin, htaken ▸ List.mem_append_left _ htook⟩
  · exact (h.attended y (List.mem_cons_of_mem _ hy)).imp_right fun hp => hputs ▸ hp

/-- Calls that go, other than puts whose values are pending. -/
theorem fewer (h : Numbered history pending calls done sent) (hsub : calls'.Sublist calls)
    (hpending : ∀ x ∈ pending, .offering x ∈ calls → .offering x ∈ calls') :
    Numbered history pending calls' done sent := by
  have htracked : (tracked history pending calls').Sublist (tracked history pending calls) :=
    ((hsub.filterMap _).append_left _).append_left _
  refine ⟨h.distinct.sublist (htracked.map _), fun y hy => h.below y (htracked.mem hy),
    h.nodup.sublist hsub, fun y hy => h.offering y (hsub.mem hy), fun y b hy => ?_, h.settled,
    h.finished,
    fun y hy => h.resolved y (hsub.mem hy), fun y hy => (h.attended y hy).imp_left (hpending y hy)⟩
  obtain ⟨hbelow, hputting, hoffering⟩ := h.returned y b hy
  exact ⟨hbelow, fun hin => hputting (hsub.mem hin), fun hin => hoffering (hsub.mem hin)⟩

/-- A put that waited for room is woken. -/
theorem woken (h : Numbered history pending (.putting x :: calls) done sent)
    (hx : .offering x ∉ calls) :
    Numbered history pending calls done sent ∧ New history pending calls sent x := by
  have htracked :
    (tracked history pending (.putting x :: calls)).Perm (x :: tracked history pending calls) := by
    have hcons :
      (Call.putting x :: calls).filterMap Call.putting? = x :: calls.filterMap Call.putting? := rfl
    rw [tracked, hcons, tracked, ← List.append_assoc, ← List.append_assoc]
    exact List.perm_middle
  obtain ⟨huntracked, -⟩ := List.nodup_cons.mp ((htracked.map _).nodup_iff.mp h.distinct)
  refine ⟨h.fewer (List.sublist_cons_self _ _) fun y _ hy => ?_, ?_, huntracked, fun b hb => ?_, hx⟩
  · simpa using hy
  · exact h.below x (htracked.mem_iff.mpr (List.mem_cons_self))
  · exact (h.returned x b hb).2.1 List.mem_cons_self

/-- A put whose value was pending returns. -/
theorem returns (h : Numbered history pending (.offering x :: calls) done sent)
    (hputting : .putting x ∉ calls) {result : Bool} (hresult : result = true → done x.put = true) :
    Numbered { history with puts := history.puts ++ [(x, result)] } pending calls done sent := by
  have hsub : calls.Sublist (.offering x :: calls) := List.sublist_cons_self _ _
  have htracked :
    tracked history pending (.offering x :: calls) = tracked history pending calls := rfl
  have hoffering : .offering x ∈ Call.offering x :: calls := List.mem_cons_self
  obtain ⟨hgone, hnodup⟩ := List.nodup_cons.mp h.nodup
  refine ⟨htracked ▸ h.distinct, htracked ▸ h.below, hnodup, fun y hy => h.offering y (hsub.mem hy),
    fun y b hy => ?_, fun y hy => ?_, h.finished, fun y hy => h.resolved y (hsub.mem hy),
    fun y hy => ?_⟩
  · rcases List.mem_append.mp hy with hold | hnew
    · obtain ⟨hbelow, hput, hoff⟩ := h.returned y b hold
      exact ⟨hbelow, fun hin => hput (hsub.mem hin), fun hin => hoff (hsub.mem hin)⟩
    · obtain ⟨rfl, rfl⟩ := Prod.mk.inj (List.mem_singleton.mp hnew)
      exact ⟨h.offering y hoffering, hputting, hgone⟩
  · rcases List.mem_append.mp hy with hold | hnew
    · exact h.settled y hold
    · obtain ⟨rfl, hr⟩ := Prod.mk.inj (List.mem_singleton.mp hnew)
      exact (h.resolved y hoffering (hresult hr.symm)).1
  · rcases h.attended y hy with hin | hrefused
    · rcases List.mem_cons.mp hin with heq | hrest
      · obtain rfl := Call.offering.inj heq
        refine .inr (List.mem_append_right _ ?_)
        cases result with
        | false => simp
        | true => exact absurd (h.resolved y hoffering (hresult rfl)).1 (h.not_accepted hy)
      · exact .inl hrest
    · exact .inr (List.mem_append_left _ hrefused)

/-- A take waits. -/
theorem register (h : Numbered history pending calls done sent) {cell : Nat}
    (hcell : .taking cell ∉ calls) :
    Numbered history pending (calls ++ [.taking cell]) done sent := by
  have htracked :
    tracked history pending (calls ++ [.taking cell]) = tracked history pending calls := by
    simp [tracked, Call.putting?]
  have hput (y : Item V) : .putting y ∈ calls ++ [.taking cell] ↔ .putting y ∈ calls := by simp
  have hoff (y : Item V) : .offering y ∈ calls ++ [.taking cell] ↔ .offering y ∈ calls := by simp
  refine ⟨htracked ▸ h.distinct, htracked ▸ h.below, ?_, ?_, ?_, h.settled, h.finished, ?_, ?_⟩
  · exact (List.perm_append_singleton _ _).nodup_iff.mpr (List.nodup_cons.mpr ⟨hcell, h.nodup⟩)
  · simpa only [hoff] using h.offering
  · simpa only [hput, hoff] using h.returned
  · simpa only [hoff] using h.resolved
  · simpa only [hoff] using h.attended

/-- A take returns a value. -/
theorem taken (h : Numbered history pending calls done sent)
    (haccepted : history'.accepted = history.accepted) (hputs : history'.puts = history.puts)
    (htaken : history'.taken = history.taken ++ [x]) :
    Numbered history' pending calls done sent := by
  have htracked : tracked history' pending calls = tracked history pending calls := by
    rw [tracked, haccepted, tracked]
  refine ⟨htracked ▸ h.distinct, htracked ▸ h.below, h.nodup, h.offering, hputs ▸ h.returned,
    by rw [hputs,
      haccepted]; exact h.settled, haccepted ▸ h.finished, fun y hy hdone => ?_, hputs ▸ h.attended⟩
  rw [haccepted, htaken]
  exact (h.resolved y hy hdone).imp_right (List.mem_append_left _)

end Numbered

end

/-! ## §3 Owned -/

/-- The cells of the pending takes are empty and each stands once; the cells of waiting takes
exist. -/
structure Owned (pendingTakes : List Nat) (cells : Nat → Option (Item V)) (nextCell : Nat)
    (calls : List (Call V)) : Prop where
  nodup : pendingTakes.Nodup
  empty : ∀ cell ∈ pendingTakes, cells cell = none ∧ cell < nextCell
  unused : ∀ cell, nextCell ≤ cell → cells cell = none
  taking : ∀ cell, .taking cell ∈ calls → cell < nextCell

namespace Owned

variable {pendingTakes : List Nat} {cells : Nat → Option (Item V)} {nextCell : Nat}
  {calls calls' : List (Call V)}

theorem fewer (h : Owned pendingTakes cells nextCell calls)
    (hsub : ∀ cell, .taking cell ∈ calls' → .taking cell ∈ calls) :
    Owned pendingTakes cells nextCell calls' :=
  ⟨h.nodup, h.empty, h.unused, fun cell hcell => h.taking cell (hsub cell hcell)⟩

theorem handOff {cell : Nat} {rest : List Nat} (h : Owned (cell :: rest) cells nextCell calls)
    (x : Item V) :
    Owned rest (Function.update cells cell (some x)) nextCell calls := by
  obtain ⟨hcell, hrest⟩ := List.nodup_cons.mp h.nodup
  obtain ⟨-, hlt⟩ := h.empty cell List.mem_cons_self
  refine ⟨hrest, fun c hc => ?_, fun c hc => ?_, h.taking⟩
  · have hne : c ≠ cell := fun heq => hcell (heq ▸ hc)
    rw [Function.update_of_ne hne]
    exact h.empty c (List.mem_cons_of_mem _ hc)
  · have hne : c ≠ cell := fun heq => absurd hc (Nat.not_le.mpr (heq ▸ hlt))
    rw [Function.update_of_ne hne]
    exact h.unused c hc

theorem register (h : Owned pendingTakes cells nextCell calls) :
    Owned (pendingTakes ++ [nextCell]) cells (nextCell + 1) (calls ++ [.taking nextCell]) := by
  refine ⟨?_, fun c hc => ?_, fun c hc => h.unused c (Nat.le_of_succ_le hc), fun c hc => ?_⟩
  · refine (List.perm_append_singleton _ _).nodup_iff.mpr
      (List.nodup_cons.mpr ⟨fun hin => ?_, h.nodup⟩)
    exact Nat.lt_irrefl _ (h.empty _ hin).2
  · rcases List.mem_append.mp hc with hold | hnew
    · exact ⟨(h.empty c hold).1, Nat.lt_succ_of_lt (h.empty c hold).2⟩
    · obtain rfl := List.mem_singleton.mp hnew
      exact ⟨h.unused c (Nat.le_refl c), Nat.lt_succ_self c⟩
  · rcases List.mem_append.mp hc with hold | hnew
    · exact Nat.lt_succ_of_lt (h.taking c hold)
    · obtain rfl := Call.taking.inj (List.mem_singleton.mp hnew)
      exact Nat.lt_succ_self c

end Owned

end Fol.Async
