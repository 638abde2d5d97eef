/-
Fol.Atoms.Linearized — which runs of the threads on an atom are linearizable.

The compare-and-swaps and the writes come in one order, and each transition starts where the one
before it ended. A compare-and-swap writes what was computed from the value it replaces. `reset!`
remembers a value for the watches and writes later: whatever another thread writes in between is
overwritten unseen.
-/
import Fol.Atoms.Atom
import Fol.Lib.Results

namespace Fol.Atoms

open Fol.Lib (IsRun Always EachStep always_iff_eachStep bind_eq_ok bind_pure_eq_ok)
open Fol.Stm (Hooks Failure Fn checkValue)

variable {T V E : Type}

/-! ## §1 Events -/

section Events

variable [DecidableEq T] {s : State T V E} {t u : T} {p : Phase V E} {es : List (Event V E)}

theorem eventsOf_goes : eventsOf t (s.goes t p es).log = eventsOf t s.log ++ es := by
  have hown : (es.map fun e => (t, e)).filter (fun e => decide (e.1 = t)) = es.map fun e =>
    (t, e) := by
    simp [List.filter_eq_self]
  simp [State.goes, eventsOf, hown, Function.comp_def]

theorem eventsOf_goes_of_ne (h : u ≠ t) : eventsOf u (s.goes t p es).log = eventsOf u s.log := by
  have hnone : (es.map fun e => (t, e)).filter (fun e => decide (e.1 = u)) = [] := by
    simp [List.filter_eq_nil_iff, Ne.symm h]
  simp [State.goes, eventsOf, hnone]

@[simp] theorem phase_goes : (s.goes t p es).phase t = p := by simp [State.goes]

@[simp] theorem phase_goes_of_ne (h : u ≠ t) : (s.goes t p es).phase u = s.phase u := by
  simp [State.goes, h]

@[simp] theorem value_goes : (s.goes t p es).value = s.value := rfl

theorem log_goes : (s.goes t p es).log.map (·.2) = s.log.map (·.2) ++ es := by
  simp [State.goes, Function.comp_def]

@[simp] theorem updates_append (es es' : List (Event V E)) :
    updates (es ++ es') = updates es ++ updates es' :=
  List.filterMap_append

@[simp] theorem toldTo_append (i : Nat) (es es' : List (Event V E)) :
    toldTo i (es ++ es') = toldTo i es ++ toldTo i es' := List.filterMap_append

theorem chain_append {v v' : V} {us : List (V × V)} (h : Chain v us v') (new : V) :
    Chain v (us ++ [(v', new)]) new := by
  induction us generalizing v with
  | nil => exact ⟨h, rfl⟩
  | cons p us ih => exact ⟨h.1, ih h.2⟩

end Events

/-! ## §2 Steps -/

section Steps

variable (hooks : Hooks V E)

/-- Where a thread is, by its events and by its phase. -/
inductive Fits : Stage V E → Phase V E → Prop where
  | idle : Fits .idle .idle
  | started (c : Call V E) : Fits (.called c) (.started c)
  | swapping {c : Call V E} {old new : V} (happlies : Applies c old new)
      (hvalid : checkValue hooks new = .ok ()) :
      Fits (.called c) (.swapping c old new)
  | writing {old new : V} (hvalid : checkValue hooks new = .ok ()) :
      Fits (.called (.reset new)) (.writing (.reset new) old new)
  | notifying {c : Call V E} {old old' new : V} {i : Nat}
      (hanswer : answer c old new = answer c old' new) :
      Fits (.updated c old' new) (.notifying c old new i)

variable {hooks}

theorem applyFn_eq_ok {f : Fn V E} {v new : V} : applyFn f v = .ok new ↔ f v = .ok new := by
  unfold applyFn
  cases f v <;> simp

theorem prepare_fits {v : V} {c : Call V E} {p : Phase V E} (h : prepare hooks v c = .ok p) :
    Fits hooks (.called c) p := by
  have hfn : ∀ f : Fn V E, ∀ mk : V → Phase V E, (do
      let new ← applyFn f v
      checkValue hooks new
      return mk new : Except (Failure V E) (Phase V E)) = .ok p →
      ∃ new, f v = .ok new ∧ checkValue hooks new = .ok () ∧ p = mk new := by
    intro f mk h
    obtain ⟨new, hf, h⟩ := bind_eq_ok.mp h
    obtain ⟨_, hc, rfl⟩ := bind_pure_eq_ok.mp h
    exact ⟨new, applyFn_eq_ok.mp hf, hc, rfl⟩
  have hvalue : ∀ new : V, ∀ q : Phase V E, (do
      checkValue hooks new
      return q : Except (Failure V E) (Phase V E)) = .ok p → checkValue hooks new = .ok () ∧
        p = q := by
    intro new q h
    obtain ⟨_, hc, rfl⟩ := bind_pure_eq_ok.mp h
    exact ⟨hc, rfl⟩
  cases c with
  | swap f =>
    obtain ⟨new, hf, hc, rfl⟩ := hfn f _ h
    exact .swapping hf hc
  | reset new =>
    obtain ⟨hc, rfl⟩ := hvalue new _ h
    exact .writing hc
  | compareAndSet old new =>
    obtain ⟨hc, rfl⟩ := hvalue new _ h
    exact .swapping ⟨rfl, rfl⟩ hc
  | swapVals f =>
    obtain ⟨new, hf, hc, rfl⟩ := hfn f _ h
    exact .swapping hf hc
  | resetVals new =>
    obtain ⟨hc, rfl⟩ := hvalue new _ h
    exact .swapping rfl hc

variable [DecidableEq T] {init : V} {s s' : State T V E} {t : T}

/-- What holds in every run. -/
structure Sound (hooks : Hooks V E) (init : V) (s : State T V E) : Prop where
  chain : Chain init (updates (s.log.map (·.2))) s.value
  valid : ∀ p ∈ updates (s.log.map (·.2)), checkValue hooks p.2 = .ok ()
  fits : ∀ t, ∃ g, Explains hooks (eventsOf t s.log) g ∧ Fits hooks g (s.phase t)

theorem start_sound (hooks : Hooks V E) (init : V) :
    Sound hooks init ({ value := init } : State T V E) where
  chain := rfl
  valid := by simp [updates]
  fits _ := ⟨.idle, .nil, .idle⟩

/-- The other threads are where they were. -/
theorem fits_goes (h : ∀ u, ∃ g, Explains hooks (eventsOf u s.log) g ∧ Fits hooks g (s.phase u))
    {p : Phase V E} {es : List (Event V E)} {g : Stage V E}
    (hes : Explains hooks (eventsOf t s.log ++ es) g) (hp : Fits hooks g p) (u : T) :
    ∃ g, Explains hooks (eventsOf u (s.goes t p es).log) g ∧
    Fits hooks g ((s.goes t p es).phase u) := by
  by_cases hu : u = t
  · subst hu
    rw [eventsOf_goes, phase_goes]
    exact ⟨g, hes, hp⟩
  · rw [eventsOf_goes_of_ne hu, phase_goes_of_ne hu]
    exact h u

/-- A step without a write. -/
theorem Sound.goes (h : Sound hooks init s) {p : Phase V E} {es : List (Event V E)} {g : Stage V E}
    (hupdates : updates es = []) (hes : Explains hooks (eventsOf t s.log ++ es) g)
    (hp : Fits hooks g p) :
    Sound hooks init (s.goes t p es) where
  chain := by
    rw [log_goes, updates_append, hupdates, List.append_nil]
    exact h.chain
  valid := by
    rw [log_goes, updates_append, hupdates, List.append_nil]
    exact h.valid
  fits := fits_goes h.fits hes hp

/-- A write. -/
theorem Sound.store (h : Sound hooks init s) {c : Call V E} {old new : V}
    (hevents : Explains hooks (eventsOf t s.log) (.called c)) (happlies : Applies c s.value new)
    (hvalid : checkValue hooks new = .ok ()) (hanswer : answer c old new = answer c s.value new) :
    Sound hooks init (store s t c old new) where
  chain := by
    rw [Atoms.store, log_goes, updates_append]
    exact chain_append h.chain new
  valid := by
    rw [Atoms.store, log_goes, updates_append]
    intro p hp
    rcases List.mem_append.mp hp with hp | hp
    · exact h.valid p hp
    · rw [List.mem_singleton.mp hp]
      exact hvalid
  fits := by
    have hs : ∀ u, ∃ g, Explains hooks (eventsOf u ({ s with value := new } : State T V E).log) g ∧
        Fits hooks g (({ s with value := new } : State T V E).phase u) := h.fits
    exact fits_goes hs (.updated hevents happlies) (.notifying hanswer)

variable [DecidableEq V]

theorem step_sound {l : Label T V E} (h : Sound hooks init s) (hstep : step hooks s l = some s') :
    Sound hooks init s' := by
  cases l with
  | call t c =>
    obtain ⟨g, hg, hfits⟩ := h.fits t
    rw [step] at hstep
    split at hstep
    · next hphase =>
      cases hstep
      rw [hphase] at hfits
      cases hfits
      exact h.goes rfl (.called c hg) (.started c)
    · cases hstep
  | advance t =>
    obtain ⟨g, hg, hfits⟩ := h.fits t
    rw [step, advance] at hstep
    cases hphase : s.phase t with
    | idle => simp [hphase] at hstep
    | started c =>
      rw [hphase] at hfits hstep
      cases hfits
      cases hp : prepare hooks s.value c with
      | error e =>
        simp only [hp, Option.some.injEq] at hstep
        subst hstep
        exact h.goes rfl (.refused hg (.failed hp)) .idle
      | ok p =>
        simp only [hp, Option.some.injEq] at hstep
        subst hstep
        exact h.goes rfl (by simpa using hg) (prepare_fits hp)
    | swapping c old new =>
      rw [hphase] at hfits hstep
      simp only [Option.some.injEq] at hstep
      subst hstep
      cases hfits with
      | swapping happlies hvalid =>
        split
        · next heq =>
          subst heq
          exact h.store hg happlies hvalid rfl
        · cases c with
          | compareAndSet v v' => exact h.goes rfl (.refused hg (.other v v')) .idle
          | _ => exact h.goes rfl (by simpa using hg) (.started _)
    | writing c old new =>
      rw [hphase] at hfits hstep
      simp only [Option.some.injEq] at hstep
      subst hstep
      cases hfits with
      | writing hvalid => exact h.store hg rfl hvalid rfl
    | notifying c old new i =>
      rw [hphase] at hfits hstep
      simp only [Option.some.injEq] at hstep
      subst hstep
      cases hfits with
      | notifying hanswer =>
        rw [notify]
        split
        · rw [hanswer]
          exact h.goes rfl (.answered hg) .idle
        · split
          · next e _ =>
            have htold := Explains.signalled e (.told i old new hg)
            rw [List.append_assoc] at htold
            exact h.goes rfl htold .idle
          · exact h.goes rfl (.told i old new hg) (.notifying hanswer)

end Steps

/-! ## §3 Watches -/

section Watches

variable [DecidableEq T] {hooks : Hooks V E} {s s' : State T V E} {t : T}

/-- Only the thread that makes the step matters. -/
theorem watched_goes_iff (h : Watched hooks s) {p : Phase V E} {es : List (Event V E)} :
    Watched hooks (s.goes t p es) ↔ ∀ i < hooks.watches.length,
      owed i (s.phase t) ++ updates es = toldTo i es ++ owed i p := by
  have hown : ∀ i < hooks.watches.length, (updates (eventsOf t (s.goes t p es).log) =
      toldTo i (eventsOf t (s.goes t p es).log) ++ owed i ((s.goes t p es).phase t) ↔
      owed i (s.phase t) ++ updates es = toldTo i es ++ owed i p) := by
    intro i hi
    rw [eventsOf_goes, phase_goes, updates_append, toldTo_append, h i hi t, List.append_assoc,
      List.append_assoc, List.append_cancel_left_eq]
  constructor
  · intro hall i hi
    exact (hown i hi).mp (hall i hi t)
  · intro hall i hi u
    by_cases hu : u = t
    · subst hu
      exact (hown i hi).mpr (hall i hi)
    · rw [eventsOf_goes_of_ne hu, phase_goes_of_ne hu]
      exact h i hi u

theorem watched_goes (h : Watched hooks s) {p : Phase V E} {es : List (Event V E)}
    (hupdates : updates es = []) (htold : ∀ i, toldTo i es = [])
    (howed : ∀ i < hooks.watches.length, owed i (s.phase t) = owed i p) :
    Watched hooks (s.goes t p es) := by
  rw [watched_goes_iff h]
  intro i hi
  rw [hupdates, htold, howed i hi, List.append_nil, List.nil_append]

/-- A write: the watches are told of the value that was remembered. -/
theorem watched_store_iff (h : Watched hooks s) {c : Call V E} {old new : V}
    (howed : ∀ i, owed i (s.phase t) = []) :
    Watched hooks (store s t c old new) ↔ hooks.watches = [] ∨ s.value = old := by
  have hs : Watched hooks ({ s with value := new } : State T V E) := h
  rw [store, watched_goes_iff hs]
  have hpair : ∀ i, owed i (s.phase t) ++ updates [(.updated s.value new : Event V E)] =
      toldTo i [(.updated s.value new : Event V E)] ++ owed i (.notifying c old new 0) ↔
      s.value = old := by
    intro i
    have htold : toldTo i [(.updated s.value new : Event V E)] = [] := rfl
    rw [howed i, htold]
    simp [updates, Event.update?, owed]
  constructor
  · intro hall
    rcases Nat.eq_zero_or_pos hooks.watches.length with h0 | hpos
    · exact .inl (List.length_eq_zero_iff.mp h0)
    · exact .inr ((hpair 0).mp (hall 0 hpos))
  · rintro (hnil | heq) i hi
    · simp [hnil] at hi
    · exact (hpair i).mpr heq

/-- A call of a watch, and the end of the loop. -/
theorem watched_notify_iff (h : Watched hooks s) {c : Call V E} {old new : V} {i : Nat}
    (hphase : s.phase t = .notifying c old new i) :
    Watched hooks (notify hooks s t c old new i) ↔ ∀ watch e, hooks.watches[i]? = some watch →
      watch old new = .error e → i + 1 = hooks.watches.length := by
  have htold : ∀ k, toldTo k [(.told i old new : Event V E)] = if i = k then [(old, new)]
    else [] := by
    intro k
    by_cases hk : i = k <;> simp [toldTo, Event.told?, hk]
  cases hw : hooks.watches[i]? with
  | none =>
    have hlen : hooks.watches.length ≤ i := List.getElem?_eq_none_iff.mp hw
    simp only [notify, hw]
    refine iff_of_true (watched_goes h rfl (fun _ => rfl) fun k hk => ?_) (by simp)
    rw [hphase, owed, if_neg (by omega)]
    rfl
  | some watch =>
    obtain ⟨hi, -⟩ := List.getElem?_eq_some_iff.mp hw
    cases hwatch : watch old new with
    | ok u =>
      simp only [notify, hw, hwatch]
      refine iff_of_true ((watched_goes_iff h).mpr fun k hk => ?_) ?_
      swap
      · rintro _ e ⟨⟩ herror
        rw [hwatch] at herror
        cases herror
      have hnone : updates [(.told i old new : Event V E)] = [] := rfl
      rw [hphase, htold, hnone, List.append_nil, owed, owed]
      split_ifs <;> first | rfl | omega
    | error e =>
      have htold' :
        ∀ k, toldTo k [.told i old new, (.answered (.failed (.signalled e)) : Event V E)] =
          if i = k then [(old, new)] else [] := htold
      have hnone : updates [.told i old new, (.answered (.failed (.signalled e)) : Event V E)] =
        [] := rfl
      simp only [notify, hw, hwatch]
      rw [watched_goes_iff h]
      simp only [hphase, htold', hnone, owed, List.append_nil]
      constructor
      · intro hall watch' e' _ _
        by_contra hne
        have hnext := hall (i + 1) (by omega)
        rw [if_pos (by omega), if_neg (by omega)] at hnext
        cases hnext
      · intro hlast k hk
        have hlen := hlast watch e rfl hwatch
        split_ifs <;> first | rfl | omega

end Watches

/-! ## §4 Runs -/

section Runs

variable [DecidableEq T] [DecidableEq V] {hooks : Hooks V E} {init : V} {s s' : State T V E}

/-- A step keeps the watches informed exactly if it is an orderly one. -/
theorem step_watched_iff {l : Label T V E} (h : Watched hooks s)
    (hstep : step hooks s l = some s') : Watched hooks s' ↔ Orderly hooks s l := by
  cases l with
  | call t c =>
    rw [step] at hstep
    split at hstep
    · next hphase =>
      cases hstep
      exact iff_of_true (watched_goes h rfl (fun _ => rfl) fun i _ => by rw [hphase]; rfl) trivial
    · cases hstep
  | advance t =>
    rw [step, advance] at hstep
    rw [Orderly]
    cases hphase : s.phase t with
    | idle => simp [hphase] at hstep
    | started c =>
      rw [hphase] at hstep
      cases hp : prepare hooks s.value c with
      | error e =>
        simp only [hp, Option.some.injEq] at hstep
        subst hstep
        exact iff_of_true (watched_goes h rfl (fun _ => rfl) fun i _ => by rw [hphase]; rfl) trivial
      | ok p =>
        simp only [hp, Option.some.injEq] at hstep
        subst hstep
        refine iff_of_true (watched_goes h rfl (fun _ => rfl) fun i _ => ?_) trivial
        rw [hphase]
        cases prepare_fits hp <;> rfl
    | swapping c old new =>
      rw [hphase] at hstep
      simp only [Option.some.injEq] at hstep
      subst hstep
      refine iff_of_true ?_ trivial
      split
      · next heq => exact (watched_store_iff h fun i => by rw [hphase]; rfl).mpr (.inr heq)
      · cases c <;> exact watched_goes h rfl (fun _ => rfl) fun i _ => by rw [hphase]; rfl
    | writing c old new =>
      rw [hphase] at hstep
      simp only [Option.some.injEq] at hstep
      subst hstep
      exact watched_store_iff h fun i => by rw [hphase]; rfl
    | notifying c old new i =>
      rw [hphase] at hstep
      simp only [Option.some.injEq] at hstep
      subst hstep
      exact watched_notify_iff h hphase

omit [DecidableEq V] in
/-- With what holds anyway, it is the watches that decide. -/
theorem linearized_of_watched (hsound : Sound hooks init s) :
    Linearized hooks init s ↔ Watched hooks s := by
  constructor
  · intro h
    exact h.watched
  · intro h
    refine ⟨hsound.chain, hsound.valid, fun t => ?_, h⟩
    obtain ⟨g, hg, -⟩ := hsound.fits t
    exact ⟨g, hg⟩

/-- A run is linearizable exactly if every `reset!` writes over the value it has read and no watch
before the last one signals an error. -/
theorem linearized_iff (hooks : Hooks V E) (init : V) {run : List (Label T V E × State T V E)}
    (h : IsRun (fun s l s' => step hooks s l = some s') { value := init } run) :
    Always (Linearized hooks init) { value := init } run ↔
    EachStep (Orderly hooks) { value := init } run := by
  have hstart : Sound hooks init ({ value := init } : State T V E) := start_sound hooks init
  refine always_iff_eachStep (I := Sound hooks init) (D := fun _ _ => True) ?_ ?_ hstart ?_ h
    (EachStep.of_forall (fun _ _ => trivial) _ _)
  · intro s l s' hsound _ _ _ hstep
    exact step_sound hsound hstep
  · intro s l s' hsound hlin _ hstep
    rw [linearized_of_watched (step_sound hsound hstep)]
    exact step_watched_iff hlin.watched hstep
  · rw [linearized_of_watched hstart]
    intro i _ t
    rfl

omit [DecidableEq V] in
/-- What agrees for every thread agrees up to order. -/
theorem perm_of_eventsOf {β : Type} {f g : Event V E → Option β} {log : List (T × Event V E)}
    (h : ∀ t, (eventsOf t log).filterMap f = (eventsOf t log).filterMap g) :
    ((log.map (·.2)).filterMap f).Perm ((log.map (·.2)).filterMap g) := by
  induction hlen : log.length using Nat.strongRecOn generalizing log with
  | ind n ih =>
    cases log with
    | nil => exact .nil
    | cons e log =>
      -- the events of the first thread apart from the others
      have hsplit :=
        (List.filter_append_perm (fun x : T × Event V E => decide (x.1 = e.1)) (e :: log)).map (·.2)
      rw [List.map_append] at hsplit
      have hothers : ∀ t, eventsOf t ((e :: log).filter fun x => !decide (x.1 = e.1)) =
          if t = e.1 then [] else eventsOf t (e :: log) := by
        intro t
        rw [eventsOf, List.filter_filter]
        split
        · next heq => simp [heq]
        · next hne =>
          rw [eventsOf]
          congr 1
          refine List.filter_congr fun x _ => ?_
          by_cases hx : x.1 = t <;> simp [hx, hne]
      have hlt : ((e :: log).filter fun x => !decide (x.1 = e.1)).length < n := by
        rw [← hlen, List.filter_cons_of_neg (by simp)]
        exact Nat.lt_succ_of_le (List.length_filter_le _ _)
      have hrest := ih _ hlt (fun t => by
        rw [hothers]
        split
        · rfl
        · exact h t) rfl
      have hfirst := h e.1
      rw [eventsOf] at hfirst
      refine (hsplit.symm.filterMap f).trans (.trans ?_ (hsplit.filterMap g))
      rw [List.filterMap_append, List.filterMap_append, hfirst]
      exact hrest.append_left _

omit [DecidableEq V] in
/-- When no thread is in an update, what a watch was told are the transitions, each once. -/
theorem Linearized.told_perm (h : Linearized hooks init s) (hidle : ∀ t, s.phase t = .idle)
    {i : Nat} (hi : i < hooks.watches.length) :
    (toldTo i (s.log.map (·.2))).Perm (updates (s.log.map (·.2))) := by
  refine (perm_of_eventsOf fun t => ?_).symm
  have hwatched := h.watched i hi t
  have howed : owed i (s.phase t) = [] := by rw [hidle t]; rfl
  rw [howed, List.append_nil] at hwatched
  exact hwatched

/-- After such a run, when no thread is in an update, the transitions lead from the first value to
the last, and each watch was told of these and no others. -/
theorem told_of_orderly (hooks : Hooks V E) (init : V) {run : List (Label T V E × State T V E)}
    (h : IsRun (fun s l s' => step hooks s l = some s') { value := init } run)
    (horderly : EachStep (Orderly hooks) { value := init } run) {s : State T V E}
    (hs : s = Lib.final { value := init } run) (hidle : ∀ t, s.phase t = .idle) :
    Chain init (updates (s.log.map (·.2))) s.value ∧ ∀ i < hooks.watches.length,
      (toldTo i (s.log.map (·.2))).Perm (updates (s.log.map (·.2))) := by
  have hstart : Sound hooks init ({ value := init } : State T V E) ∧
      Watched hooks ({ value := init } : State T V E) :=
    ⟨start_sound hooks init,
      ((linearized_of_watched (start_sound hooks init)).mpr fun i _ t => rfl).watched⟩
  have hfinal :=
    (Lib.invariant_always (I := fun s => Sound hooks init s ∧ Watched hooks s) (C := Orderly hooks)
      (fun s l s' hI hC hstep =>
    ⟨step_sound hI.1 hstep, (step_watched_iff hI.2 hstep).mpr hC⟩) hstart h horderly).final
  rw [← hs] at hfinal
  have hlinearized := (linearized_of_watched hfinal.1).mpr hfinal.2
  exact ⟨hlinearized.chain, fun i hi => hlinearized.told_perm hidle hi⟩

/-- An atom with 0 in it and a watch, and two threads. -/
def oneWatch : Hooks Nat Empty where
  watches := [fun _ _ => .ok ()]

def twoThreads (schedule : List (Label Bool Nat Empty)) :
    List (Label Bool Nat Empty × State Bool Nat Empty) :=
  Lib.trace (step oneWatch) { value := 0 } schedule

/-- `(reset! a 5)` in one thread, then `(swap! a inc)` in the other. -/
theorem linearized_iff_two : Always (Linearized oneWatch 0) { value := 0 } (twoThreads
    [.call true (.reset 5), .advance true, .advance true, .advance true, .advance true,
      .call false (.swap fun v => .ok (v + 1)), .advance false, .advance false, .advance false,
      .advance false]) := by
  refine (linearized_iff oneWatch 0 (Lib.trace_isRun _ _ _)).mpr ?_
  refine ⟨trivial, trivial, .inr rfl, fun _ _ _ _ => rfl, ?_, trivial, trivial, trivial,
    fun _ _ _ _ => rfl, ?_, trivial⟩
  · intro _ _ h
    cases h
  · intro _ _ h
    cases h

/-- `(reset! a 5)` in one thread, and `(swap! a inc)` in another that begins before the write and
reads after it. -/
theorem told_of_orderly_one :
    Chain 0 [(0, 5), (5, 6)] 6 ∧ ∀ i < 1,
    (if i = 0 then [(5, 6), (0, 5)] else []).Perm [(0, 5), (5, 6)] := by
  have h := told_of_orderly oneWatch 0 (Lib.trace_isRun (step oneWatch) { value := 0 }
    [.call true (.reset 5), .advance true, .call false (.swap fun v => .ok (v + 1)), .advance true,
      .advance false, .advance false, .advance false, .advance false, .advance true, .advance true])
    ⟨trivial, trivial, trivial, .inr rfl, trivial, trivial, fun _ _ _ _ => rfl,
      fun _ _ h => (by cases h), fun _ _ _ _ => rfl, fun _ _ h => (by cases h), trivial⟩ rfl
      fun t => by cases t <;> rfl
  refine ⟨h.1, fun i hi => ?_⟩
  obtain rfl : i = 0 := by omega
  exact h.2 0 hi

/-- The `swap!` between the read and the write of the `reset!`: the watch is told of `(0, 1)` and
`(0, 5)`, and no order makes these the transitions from 0. -/
theorem not_linearized : ∃ s ∈ (twoThreads
      [.call true (.reset 5), .advance true,
        .call false (.swap fun v => .ok (v + 1)), .advance false, .advance false, .advance false,
        .advance false,
        .advance true, .advance true, .advance true]).map (·.2),
    (∀ t, s.phase t = .idle) ∧ s.value = 5 ∧ toldTo 0 (s.log.map (·.2)) = [(0, 1), (0, 5)] ∧
      ∀ order, order.Perm (toldTo 0 (s.log.map (·.2))) → ∀ v, ¬ Chain 0 order v := by
  refine ⟨_, .tail _
    (.tail _ (.tail _ (.tail _ (.tail _ (.tail _ (.tail _ (.tail _ (.tail _ (.head _))))))))),
    fun t => ?_, rfl, rfl, ?_⟩
  · cases t <;> rfl
  · intro order hperm v hchain
    have hpairs : ∀ p ∈ order, p.1 = 0 ∧ p.2 ≠ 0 := by
      intro p hp
      have hmem : p ∈ [(0, 1), (0, 5)] := hperm.mem_iff.mp hp
      simp only [List.mem_cons, List.not_mem_nil, or_false] at hmem
      rcases hmem with rfl | rfl <;> decide
    have hlength : order.length = 2 := hperm.length_eq
    cases order with
    | nil => cases hlength
    | cons a order =>
      cases order with
      | nil => cases hlength
      | cons b order =>
        obtain ⟨-, hb, -⟩ := hchain
        have hb0 := (hpairs b (.tail _ (.head _))).1
        exact (hpairs a (.head _)).2 (hb.trans hb0)

end Runs

end Fol.Atoms
