/-
Fol.Agents.Orderly — agents run accepted actions once, in order, one at a time.

An agent mirrors one that works on one action after the other (`Mirrors`): there is a worker
exactly while the agent is active, so a start is never repeated, and the worker's phase says which
action is worked on. What the serial agent does with its queue is then read off its log.
-/
import Fol.Agents.Agent

namespace Fol.Agents

open Fol.Lib
open Fol.Stm (Hooks Failure checkValue notifyWatches)

variable {V E : Type} {hooks : Hooks V E} {init : V}

/-! ## §1 Serial -/

section

variable (log : Log V E) (e : Event V E)

theorem accepted_snoc :
    accepted (log ++ [e]) = accepted log ++ accepted [e] := List.filterMap_append

theorem taken_snoc : taken (log ++ [e]) = taken log ++ taken [e] := List.filterMap_append

theorem applied_snoc : applied (log ++ [e]) = applied log ++ applied [e] := List.filterMap_append

theorem cleared_snoc : cleared (log ++ [e]) = cleared log ++ cleared [e] := List.flatMap_append

theorem leftBy_snoc (init : V) : leftBy init (log ++ [e]) = leaves (leftBy init log) e := by
  rw [leftBy, List.foldl_append]
  rfl

end

/-- The actions called are those taken, in their order; the one in hand is not called yet. -/
def Called (current : Option (Action V E × Option V)) (as ts : List (Action V E)) : Prop :=
  match current with
  | some (a, none) => ∃ ts', ts = ts' ++ [a] ∧ as.Sublist ts'
  | _ => as.Sublist ts

/-- What a log says of the agent it leads to. -/
structure Serial.Facts (init : V) (log : Log V E) (t : Serial V E) : Prop where
  value : t.value = leftBy init log
  order : (taken log ++ t.queue).Sublist (accepted log)
  called : Called t.current (applied log) (taken log)
  accounted : ∀ a ∈ accepted log, a ∈ taken log ∨ a ∈ t.queue ∨ a ∈ cleared log
  performed : ∀ a ∈ taken log, a ∈ applied log ∨ a.fn = none ∨ t.current = some (a, none)

theorem Serial.Facts.applied_taken {log : Log V E} {t : Serial V E} (h : Serial.Facts init log t) :
    (applied log).Sublist (taken log) := by
  have hcalled := h.called
  unfold Called at hcalled
  split at hcalled
  · obtain ⟨ts, hts, hsub⟩ := hcalled
    rw [hts]
    exact hsub.trans (List.sublist_append_left _ _)
  · exact hcalled

/-- An event that concerns no queue. -/
theorem Serial.Facts.quiet {log : Log V E} {e : Event V E} {t t' : Serial V E}
    (h : Serial.Facts init log t) (haccepted : accepted [e] = []) (htaken : taken [e] = [])
    (happlied : applied [e] = []) (hcleared : cleared [e] = [])
    (hvalue : t'.value = leaves t.value e) (hqueue : t'.queue = t.queue)
    (hcurrent : t'.current = t.current ∨ t'.current = none ∧ ∀ a, t.current = some (a, none) →
      a.fn = none) :
    Serial.Facts init (log ++ [e]) t' := by
  have ⟨hv, horder, hcalled, haccounted, hperformed⟩ := h
  have hat : taken (log ++ [e]) = taken log := by rw [taken_snoc, htaken, List.append_nil]
  have haa : applied (log ++ [e]) = applied log := by rw [applied_snoc, happlied, List.append_nil]
  have hac : accepted (log ++ [e]) = accepted log := by
    rw [accepted_snoc, haccepted, List.append_nil]
  have hcl : cleared (log ++ [e]) = cleared log := by rw [cleared_snoc, hcleared, List.append_nil]
  refine ⟨by rw [hvalue, hv, leftBy_snoc], by rwa [hat, hac, hqueue],
    ?_, by rwa [hat, hac, hcl, hqueue], ?_⟩
  · rw [hat, haa]
    rcases hcurrent with hsame | ⟨hnone, -⟩
    · rwa [hsame]
    · rw [hnone]
      exact h.applied_taken
  · rw [hat, haa]
    intro a ha
    rcases hperformed a ha with hin | hnil | hheld
    · exact .inl hin
    · exact .inr (.inl hnil)
    · rcases hcurrent with hsame | ⟨-, hskip⟩
      · exact .inr (.inr (hsame ▸ hheld))
      · exact .inr (.inl (hskip a hheld))

theorem Serial.Run.facts {log : Log V E} {t : Serial V E} (h : Serial.Run hooks init log t) :
    Serial.Facts init log t := by
  induction h with
  | start =>
    exact ⟨rfl, List.Sublist.refl _, List.Sublist.refl _, (fun _ h => nomatch h),
      (fun _ h => nomatch h)⟩
  | @next log t e t' _ hstep ih =>
    have ⟨hvalue, horder, hcalled, haccounted, hperformed⟩ := ih
    have hleft (hsame : leaves (leftBy init log) e = leftBy init log) :
      t.value = leftBy init (log ++ [e]) :=
      hvalue.trans ((leftBy_snoc log e init).trans hsame).symm
    cases hstep with
    | @accepted v q c a =>
      refine ⟨hleft rfl, ?_, ?_, ?_, ?_⟩
      · rw [taken_snoc, accepted_snoc]
        show ((taken log ++ []) ++ (q ++ [a])).Sublist (accepted log ++ [a])
        rw [List.append_nil, ← List.append_assoc]
        exact horder.append (.refl _)
      · rw [taken_snoc, applied_snoc]
        show Called c (applied log ++ []) (taken log ++ [])
        rwa [List.append_nil, List.append_nil]
      · rw [accepted_snoc, taken_snoc, cleared_snoc]
        show ∀ b ∈ accepted log ++ [a], b ∈ taken log ++ [] ∨ b ∈ q ++ [a] ∨ b ∈ cleared log ++ []
        grind
      · rw [taken_snoc, applied_snoc]
        show ∀ b ∈ taken log ++ [], b ∈ applied log ++ [] ∨ b.fn = none ∨ c = some (b, none)
        simpa using hperformed
    | @taken v q a =>
      refine ⟨hleft rfl, ?_, ?_, ?_, ?_⟩
      · rw [taken_snoc, accepted_snoc]
        show ((taken log ++ [a]) ++ q).Sublist (accepted log ++ [])
        simpa using horder
      · rw [taken_snoc, applied_snoc]
        exact ⟨taken log, rfl, (List.append_nil _).symm ▸ hcalled⟩
      · rw [accepted_snoc, taken_snoc, cleared_snoc]
        show ∀ b ∈ accepted log ++ [], b ∈ taken log ++ [a] ∨ b ∈ q ∨ b ∈ cleared log ++ []
        grind
      · rw [taken_snoc, applied_snoc]
        show ∀ b ∈ taken log ++ [a], b ∈ applied log ++ [] ∨ b.fn = none ∨
        some (a, none) = some (b, none)
        grind
    | @applied v q a =>
      refine ⟨hleft rfl, ?_, ?_, ?_, ?_⟩
      · rw [taken_snoc, accepted_snoc]
        show ((taken log ++ []) ++ q).Sublist (accepted log ++ [])
        simpa using horder
      · obtain ⟨ts, hts, hsub⟩ := hcalled
        rw [taken_snoc, applied_snoc]
        show (applied log ++ [a]).Sublist (taken log ++ [])
        rw [List.append_nil, hts]
        exact hsub.append (.refl _)
      · rw [accepted_snoc, taken_snoc, cleared_snoc]
        show ∀ b ∈ accepted log ++ [], b ∈ taken log ++ [] ∨ b ∈ q ∨ b ∈ cleared log ++ []
        simpa using haccounted
      · rw [taken_snoc, applied_snoc]
        show ∀ b ∈ taken log ++ [], b ∈ applied log ++ [a] ∨ b.fn = none ∨
        some (a, some v) = some (b, none)
        grind
    | @cleared v q c =>
      refine ⟨hleft rfl, ?_, ?_, ?_, ?_⟩
      · rw [taken_snoc, accepted_snoc]
        show ((taken log ++ []) ++ []).Sublist (accepted log ++ [])
        simpa using (List.sublist_append_left _ _).trans horder
      · rw [taken_snoc, applied_snoc]
        show Called c (applied log ++ []) (taken log ++ [])
        rwa [List.append_nil, List.append_nil]
      · rw [accepted_snoc, taken_snoc, cleared_snoc]
        show ∀ b ∈ accepted log ++ [], b ∈ taken log ++ [] ∨ b ∈ [] ∨ b ∈ cleared log ++ (q ++ [])
        grind
      · rw [taken_snoc, applied_snoc]
        show ∀ b ∈ taken log ++ [], b ∈ applied log ++ [] ∨ b.fn = none ∨ c = some (b, none)
        simpa using hperformed
    | @skipped v q a hnil =>
      refine ih.quiet rfl rfl rfl rfl rfl rfl (.inr ⟨rfl, ?_⟩)
      rintro b ⟨⟩
      exact hnil
    | stored hperform => exact ih.quiet rfl rfl rfl rfl rfl rfl (.inl rfl)
    | finished => exact ih.quiet rfl rfl rfl rfl rfl rfl (.inr ⟨rfl, fun _ h => nomatch h⟩)
    | restarted => exact ih.quiet rfl rfl rfl rfl rfl rfl (.inl rfl)

/-- An action is called with the value left by what came before it. -/
theorem Serial.Run.left {log : Log V E} {t : Serial V E} (h : Serial.Run hooks init log t)
    {before : Log V E} {a : Action V E} {v : V} (hin : before ++ [.applied a v] <+: log) :
    v = leftBy init before := by
  induction h with
  | start =>
    have hlength := hin.length_le
    simp at hlength
  | @next log t e t' hrun hstep ih =>
    rcases List.prefix_concat_iff.mp hin with heq | hbefore
    · obtain ⟨rfl, he⟩ := List.append_inj' heq rfl
      cases List.singleton_inj.mp he
      cases hstep with
      | applied => exact hrun.facts.value
    · exact ih hbefore

/-! ## §2 Mirrors -/

variable (hooks init)

/-- An agent is active with one worker, whose phase tells the action in hand, or it has no
worker. -/
inductive Working : Bool → List (Phase V E) → Option (Action V E × Option V) → Prop where
  | idle : Working false [] none
  | looking : Working true [.looking] none
  | holding {a} : a.fn ≠ none → Working true [.holding a] (some (a, none))
  | finishing {a u new} :
      perform hooks a u = .ok new → Working true [.finishing a u new] (some (a, some u))
  | failing {a u e} : Working true [.failing a u e] (some (a, some u))

/-- The agent's log leads to this serial agent, with its value and its queue. -/
structure Tracks (s : State V E) (t : Serial V E) : Prop where
  run : Serial.Run hooks init s.log t
  value : s.agent.value = t.value
  queue : s.agent.queue = t.queue
  working : Working hooks s.agent.active s.workers t.current
  idle : s.agent.idle = !s.agent.active
  ids : (accepted s.log).map Action.id = List.range s.sent

/-- Beside that, an agent without a worker has an error or nothing to do. -/
structure Mirrors (s : State V E) (t : Serial V E) : Prop extends Tracks hooks init s t where
  rest : s.agent.active = false → s.agent.error = none → s.agent.queue = []

variable {hooks init}

theorem Tracks.ensureRunning {s : State V E} {t : Serial V E} (h : Tracks hooks init s t) :
    Mirrors hooks init (ensureRunning s) t := by
  obtain ⟨hrun, hvalue, hqueue, hworking, hidle, hids⟩ := h
  unfold Agents.ensureRunning
  split
  case isTrue hactive => exact ⟨⟨hrun, hvalue, hqueue, hworking, hidle, hids⟩, by simp [hactive]⟩
  case isFalse hactive =>
    refine ⟨⟨hrun, hvalue, hqueue, ?_, rfl, hids⟩, fun h => nomatch h⟩
    generalize s.agent.active = active, s.workers = workers, t.current = current at *
    cases hworking with
    | idle => exact .looking
    | _ => exact absurd rfl hactive

theorem Mirrors.send {s : State V E} {t : Serial V E} (h : Mirrors hooks init s t)
    (fn : Option (V → Except E V)) : ∃ t', Mirrors hooks init (send s fn) t' := by
  unfold Agents.send
  split
  · exact ⟨t, h⟩
  · obtain ⟨⟨hrun, hvalue, hqueue, hworking, hidle, hids⟩, -⟩ := h
    obtain ⟨v, q, c⟩ := t
    refine ⟨_, Tracks.ensureRunning ⟨hrun.next .accepted, hvalue, ?_, hworking, hidle, ?_⟩⟩
    · show s.agent.queue ++ _ = q ++ _
      rw [hqueue]
    · show (accepted (s.log ++ _)).map Action.id = List.range (s.sent + 1)
      rw [accepted_snoc, List.map_append, hids, List.range_succ]
      rfl

/-- An agent with nothing to do may rest; otherwise it is started. -/
theorem Tracks.startIfNeeded {s : State V E} {t : Serial V E} (h : Tracks hooks init s t) :
    Mirrors hooks init (if s.agent.queue.isEmpty then s else Agents.ensureRunning s) t := by
  split
  case isTrue hempty => exact ⟨h, fun _ _ => List.isEmpty_iff.mp hempty⟩
  case isFalse => exact h.ensureRunning

theorem Mirrors.restart {s : State V E} {t : Serial V E} (h : Mirrors hooks init s t) (w : V)
    (clearActions : Bool) : ∃ t', Mirrors hooks init (restart s w clearActions) t' := by
  obtain ⟨⟨hrun, hvalue, hqueue, hworking, hidle, hids⟩, -⟩ := h
  obtain ⟨v, q, c⟩ := t
  have hrestarted : Tracks hooks init { s with
      agent := { s.agent with error := none, value := w }, log := s.log ++ [.restarted w] } ⟨w, q,
        c⟩ := by
    refine ⟨hrun.next .restarted, rfl, hqueue, hworking, hidle, ?_⟩
    rw [accepted_snoc]
    exact (congrArg _ (List.append_nil _)).trans hids
  cases clearActions with
  | false => exact ⟨_, hrestarted.startIfNeeded⟩
  | true =>
    obtain rfl : s.agent.queue = q := hqueue
    have hcleared : Tracks hooks init { s with
        agent := { s.agent with error := none, value := w, queue := [] }
        log := s.log ++ [.restarted w] ++ [.cleared s.agent.queue] } ⟨w, [], c⟩ := by
      refine ⟨hrestarted.run.next .cleared, rfl, rfl, hworking, hidle, ?_⟩
      rw [accepted_snoc]
      exact (congrArg _ (List.append_nil _)).trans hrestarted.ids
    exact ⟨_, hcleared.startIfNeeded⟩

/-- The only worker has no more to do, or stops because of an error. -/
theorem Tracks.goIdle {s : State V E} {t : Serial V E} (h : Tracks hooks init s t)
    (hworkers : s.workers = [.looking]) (hcurrent : t.current = none)
    (hrest : s.agent.error = none → s.agent.queue = []) : Mirrors hooks init (goIdle s 0) t := by
  refine ⟨⟨h.run, h.value, h.queue, ?_, rfl, h.ids⟩, fun _ => hrest⟩
  show Working hooks false (s.workers.eraseIdx 0) t.current
  rw [hworkers, hcurrent]
  exact .idle

theorem Mirrors.look {s : State V E} {t : Serial V E} (h : Mirrors hooks init s t)
    (hactive : s.agent.active = true) (hworkers : s.workers = [.looking])
    (hcurrent : t.current = none) :
    ∃ t', Mirrors hooks init (look s 0) t' := by
  unfold Agents.look
  split
  case isTrue hstopped =>
    refine ⟨t, h.toTracks.goIdle hworkers hcurrent fun hnone => ?_⟩
    simp [Agent.stopped, hnone] at hstopped
  case isFalse =>
    split
    case h_1 hnil => exact ⟨t, h.toTracks.goIdle hworkers hcurrent fun _ => hnil⟩
    case h_2 a rest hcons =>
      obtain ⟨⟨hrun, hvalue, hqueue, -, hidle, hids⟩, -⟩ := h
      obtain ⟨v, q, c⟩ := t
      obtain rfl : c = none := hcurrent
      obtain rfl : a :: rest = q := hcons ▸ hqueue
      have htaken := hrun.next .taken
      have hids' : (accepted (s.log ++ [.taken a])).map Action.id = List.range s.sent := by
        rw [accepted_snoc]
        exact (congrArg _ (List.append_nil _)).trans hids
      dsimp only
      split
      case h_1 hnil =>
        refine ⟨⟨v, rest, none⟩, ⟨?_, hvalue, rfl, ?_, hidle, ?_⟩, fun h => ?_⟩
        · show Serial.Run hooks init (s.log ++ [.taken a, .finished a]) _
          rw [List.append_cons]
          exact htaken.next (.skipped hnil)
        · show Working hooks s.agent.active s.workers none
          rw [hactive, hworkers]
          exact .looking
        · show (accepted (s.log ++ [.taken a, .finished a])).map Action.id = _
          rw [List.append_cons, accepted_snoc]
          exact (congrArg _ (List.append_nil _)).trans hids'
        · exact absurd (hactive.symm.trans h) (fun h => nomatch h)
      case h_2 f hfn =>
        refine ⟨⟨v, rest, some (a, none)⟩, ⟨htaken, hvalue, rfl, ?_, hidle, hids'⟩, fun h => ?_⟩
        · show Working hooks s.agent.active (s.workers.set 0 (.holding a)) _
          rw [hactive, hworkers]
          exact .holding (by simp [hfn])
        · exact absurd (hactive.symm.trans h) (fun h => nomatch h)

/-- A step of the worker that leaves it working, with one event. -/
theorem Tracks.work {s s' : State V E} {t t' : Serial V E} {e : Event V E}
    (h : Tracks hooks init s t) (hlog : s'.log = s.log ++ [e]) (hstep : Serial.Step hooks t e t')
    (hvalue : s'.agent.value = t'.value) (hqueue : s'.agent.queue = t'.queue)
    (hworking : Working hooks true s'.workers t'.current) (hactive : s'.agent.active = true)
    (hidle : s'.agent.idle = false) (hsent : s'.sent = s.sent) (haccepted : accepted [e] = []) :
    Mirrors hooks init s' t' := by
  refine ⟨⟨?_, hvalue, hqueue, ?_, ?_, ?_⟩,
    fun h => absurd (hactive.symm.trans h) (fun h => nomatch h)⟩
  · rw [hlog]
    exact h.run.next hstep
  · rwa [hactive]
  · rw [hactive, hidle]
    rfl
  · rw [hlog, accepted_snoc, haccepted, List.append_nil, hsent, h.ids]

theorem only_worker {α : Type} {x p : α} {i : Nat} (h : [x][i]? = some p) : i = 0 ∧ p = x := by
  cases i with
  | zero => exact ⟨rfl, (Option.some.inj h).symm⟩
  | succ n => simp at h

theorem Mirrors.work {s : State V E} {t : Serial V E} (h : Mirrors hooks init s t) {i : Nat}
    {p : Phase V E} (hi : s.workers[i]? = some p) :
    ∃ t', Mirrors hooks init (work hooks s i p) t' := by
  have hworking := h.working
  have hvalue := h.value
  have hqueue := h.queue
  have hidle := h.idle
  obtain ⟨v, q, c⟩ := t
  generalize hw : s.workers = workers, hactive : s.agent.active = active at *
  cases hworking with
  | idle => simp at hi
  | looking =>
    obtain ⟨rfl, rfl⟩ := only_worker hi
    exact h.look hactive hw rfl
  | @holding a hfn =>
    obtain ⟨rfl, rfl⟩ := only_worker hi
    obtain rfl : s.agent.value = v := hvalue
    show ∃ t', Mirrors hooks init (apply s hooks 0 a) t'
    unfold apply
    dsimp only
    split
    case h_1 new hperform =>
      refine ⟨_, h.toTracks.work rfl .applied rfl hqueue ?_ hactive hidle rfl rfl⟩
      show Working hooks true (s.workers.set 0 _) _
      rw [hw]
      exact .finishing hperform
    case h_2 e herror =>
      refine ⟨_, h.toTracks.work rfl .applied rfl hqueue ?_ hactive hidle rfl rfl⟩
      show Working hooks true (s.workers.set 0 _) _
      rw [hw]
      exact .failing
  | @finishing a u new hperform =>
    obtain ⟨rfl, rfl⟩ := only_worker hi
    show ∃ t', Mirrors hooks init (store s hooks 0 a u new) t'
    unfold store
    have hstored :
      Serial.Step hooks ⟨v, q, some (a, some u)⟩ (.stored a new) ⟨new, q, some (a, some u)⟩ :=
      .stored hperform
    split
    case h_1 =>
      -- The value is stored and the action finished in one section.
      refine ⟨⟨new, q, none⟩, ⟨?_, rfl, hqueue, ?_, ?_, ?_⟩, fun h => ?_⟩
      · show Serial.Run hooks init (s.log ++ [.stored a new, .finished a]) _
        rw [List.append_cons]
        exact (h.run.next hstored).next .finished
      · show Working hooks s.agent.active (s.workers.set 0 .looking) none
        rw [hactive, hw]
        exact .looking
      · exact hidle.trans (congrArg _ hactive).symm
      · show (accepted (s.log ++ [.stored a new, .finished a])).map Action.id = _
        rw [List.append_cons, accepted_snoc, accepted_snoc]
        show ((accepted s.log ++ [] ++ []).map Action.id) = _
        rw [List.append_nil, List.append_nil, h.ids]
        rfl
      · exact absurd (hactive.symm.trans h) (fun h => nomatch h)
    case h_2 e _ =>
      refine ⟨_, h.toTracks.work rfl hstored rfl hqueue ?_ hactive hidle rfl rfl⟩
      show Working hooks true (s.workers.set 0 _) _
      rw [hw]
      exact .failing
  | @failing a u e =>
    obtain ⟨rfl, rfl⟩ := only_worker hi
    refine ⟨⟨v, q, none⟩, h.toTracks.work rfl .finished hvalue hqueue ?_ hactive hidle rfl rfl⟩
    show Working hooks true (s.workers.set 0 _) _
    rw [hw]
    exact .looking

variable (hooks) in
theorem Mirrors.step {s s' : State V E} {t : Serial V E} (h : Mirrors hooks init s t)
    {act : Act V E} (hstep : Steps hooks s act s') : ∃ t', Mirrors hooks init s' t' := by
  unfold Steps at hstep
  cases act with
  | send fn =>
    cases hstep
    exact h.send fn
  | restart v clearActions =>
    cases hstep
    exact h.restart v clearActions
  | setErrorMode mode =>
    cases hstep
    exact ⟨t, ⟨h.run, h.value, h.queue, h.working, h.idle, h.ids⟩, h.rest⟩
  | work i =>
    obtain ⟨p, hi, rfl⟩ := Option.map_eq_some_iff.mp hstep
    exact h.work hi

/-! ## §3 Claims -/

/-- A new agent. -/
def agent (init : V) (mode : ErrorMode) : State V E := { agent := { value := init, mode } }

variable (hooks init) in
/-- What an agent keeps to: one worker; the actions called are some of those accepted, each once and
in their order; each is called with the value the last completed step left; an idle agent without an
error has dealt with all it accepted. -/
structure Orderly (s : State V E) : Prop where
  one_worker : s.workers.length ≤ 1
  serial : ∃ t, Serial.Run hooks init s.log t
  once : ((applied s.log).map Action.id).Nodup
  in_order : (applied s.log).Sublist (accepted s.log)
  left : ∀ before a v, before ++ [.applied a v] <+: s.log → v = leftBy init before
  value : s.agent.value = leftBy init s.log
  not_stranded : s.agent.idle = true → s.agent.error = none → s.agent.queue = [] ∧
    ∀ a ∈ accepted s.log, a ∈ applied s.log ∨ a ∈ cleared s.log ∨ a.fn = none

theorem Mirrors.orderly {s : State V E} {t : Serial V E} (h : Mirrors hooks init s t) :
    Orderly hooks init s := by
  have hfacts := h.run.facts
  have hsub : (applied s.log).Sublist (accepted s.log) :=
    hfacts.applied_taken.trans ((List.sublist_append_left _ _).trans hfacts.order)
  refine ⟨?_, ⟨t, h.run⟩, ?_, hsub, fun before a v => h.run.left, h.value.trans hfacts.value, ?_⟩
  · have hworking := h.working
    generalize s.workers = workers, s.agent.active = active, t.current = current at hworking ⊢
    cases hworking <;> simp
  · have hids := h.ids ▸ hsub.map Action.id
    exact hids.nodup List.nodup_range
  · intro hidle herror
    have hactive : s.agent.active = false := by simpa [h.idle] using hidle
    have hqueue := h.rest hactive herror
    refine ⟨hqueue, fun a ha => ?_⟩
    have hcurrent : t.current = none := by
      have hworking := h.working
      rw [hactive] at hworking
      generalize s.workers = workers, t.current = current at hworking
      cases hworking
      rfl
    rcases hfacts.accounted a ha with htaken | hin | hcleared
    · rcases hfacts.performed a htaken with happlied | hnil | hheld
      · exact .inl happlied
      · exact .inr (.inr hnil)
      · rw [hcurrent] at hheld
        nomatch hheld
    · rw [← h.queue, hqueue] at hin
      nomatch hin
    · exact .inr (.inl hcleared)

/-- Through all the calls of an agent's operations and all the steps of its workers it is
orderly. -/
theorem agents_orderly (hooks : Hooks V E) (init : V) (mode : ErrorMode)
    {run : List (Act V E × State V E)} (hrun : IsRun (Steps hooks) (agent init mode) run) :
    Always (Orderly hooks init) (agent init mode) run := by
  have hstart : Mirrors hooks init (agent init mode) { value := init } :=
    ⟨⟨.start, rfl, rfl, .idle, rfl, rfl⟩, fun _ _ => rfl⟩
  refine Always.imp (fun s ⟨t, h⟩ => Mirrors.orderly h)
    (invariant_always (I := fun s => ∃ t, Mirrors hooks init s t) ?_ ⟨_, hstart⟩ hrun
      (.of_forall (C := fun _ _ => True) (fun _ _ => trivial) _ _))
  rintro s act s' ⟨t, h⟩ - hstep
  exact h.step hooks hstep

/-- Two sends, with a restart while the first action is in hand. -/
def restartedInHand : List (Act Nat Unit) :=
  [.send (some fun n => .ok (n + 1)), .work 0, .send (some fun n => .ok (n * 10)), .work 0,
    .restart 5 false, .work 0, .work 0, .work 0, .work 0, .work 0]

theorem restartedInHand_orderly :
    Always (Orderly {} 0) (agent 0 .fail) (trace (step {}) (agent 0 .fail) restartedInHand) :=
  agents_orderly {} 0 .fail (trace_isRun _ _ _)

end Fol.Agents
