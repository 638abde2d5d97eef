/-
Fol.Async.Kept — what a channel does with the values it accepts.

A value whose put returned `t` is in the buffer, in the cell of a take that waits, or was returned
by one take, unless it went into a cell whose take has woken and registered another one. A value
whose put returned `nil` is not returned by a take, unless its put was woken after a close with its
value taken, or left its value pending when the channel was closed.

  §1 Kept    — `Kept`, `Sound`.
  §2 Account — what every run keeps.
  §3 Sure    — what runs without those steps keep.
  §4 Claims  — `kept_iff`.
-/
import Fol.Async.Ledger

namespace Fol.Async

open Fol.Lib

variable {S V : Type}

/-! ## §1 Kept -/

section

variable (s : State S V)

def State.buffered : List (Item V) := (s.buf.map Buffer.data).getD []

/-- The values in the buffer, in cells not seen yet, and returned by takes. -/
def State.present : List (Item V) := s.buffered ++ (inFlight s.cells s.calls ++ s.history.taken)

/-- A value whose put returned `t` is present once; values go out in the order they came in; a value
whose put returned `nil` is not returned by a take. -/
structure Kept : Prop where
  once : ∀ x, (x, true) ∈ s.history.puts → x ∈ s.present ∧ (s.present.map Item.put).count x.put = 1
  in_order : s.history.accepted = s.history.handed ++ s.buffered
  refused : ∀ x, (x, false) ∈ s.history.puts → x ∉ s.history.taken

/-- The first pending take of an open channel has a call that waits with its cell. -/
def TakerWaits : Prop :=
  ∀ cell rest, s.closed = false → s.pendingTakes = cell :: rest → .taking cell ∈ s.calls

/-- The put of the first pending value waits. -/
def PutterWaits : Prop := ∀ x rest, s.pendingPuts = x :: rest → .offering x ∈ s.calls

/-- What a call that goes on may find: a put that waited for room, a take; a put whose value is
pending, not that its value was taken and the channel closed since. -/
def SoundResume : Call V → Prop
  | .putting _ => TakerWaits s
  | .offering x => ¬ (s.done x.put = true ∧ s.closed = true)
  | .taking cell => s.cells cell = none → PutterWaits s

/-- The step hands no value to an abandoned cell, takes none from a put that has returned, and no
put finds its value taken after a close. -/
def Sound : Act V → Prop
  | .put _ _ => TakerWaits s
  | .offer _ _ => TakerWaits s
  | .take _ => PutterWaits s
  | .poll _ => PutterWaits s
  | .close _ => True
  | .resume i _ => ∀ t, s.waiting[i]? = some t → SoundResume s t.call

end

section

variable [DecidableEq V] (s : State S V)

instance : Decidable (TakerWaits s) :=
  decidable_of_iff (∀ cell ∈ s.pendingTakes.head?, s.closed = false → .taking cell ∈ s.calls) <| by
    unfold TakerWaits
    cases s.pendingTakes <;> simp

instance : Decidable (PutterWaits s) :=
  decidable_of_iff (∀ x ∈ s.pendingPuts.head?, .offering x ∈ s.calls) <| by
    unfold PutterWaits
    cases s.pendingPuts <;> simp

instance : (call : Call V) → Decidable (SoundResume s call)
  | .putting _ => inferInstanceAs (Decidable (TakerWaits s))
  | .offering x => inferInstanceAs (Decidable (¬ (s.done x.put = true ∧ s.closed = true)))
  | .taking cell => inferInstanceAs (Decidable (s.cells cell = none → PutterWaits s))

instance : (act : Act V) → Decidable (Sound s act)
  | .put _ _ => inferInstanceAs (Decidable (TakerWaits s))
  | .offer _ _ => inferInstanceAs (Decidable (TakerWaits s))
  | .take _ => inferInstanceAs (Decidable (PutterWaits s))
  | .poll _ => inferInstanceAs (Decidable (PutterWaits s))
  | .close _ => inferInstanceAs (Decidable True)
  | .resume i _ => inferInstanceAs (Decidable (∀ t ∈ s.waiting[i]?, SoundResume s t.call))

end

/-! ## §2 Account -/

/-- What every run of a channel without a transducer keeps. -/
structure Account (s : State S V) : Prop where
  tidy : Tidy s
  numbered : Numbered s.history s.pendingPuts s.calls s.done s.sent
  owned : Owned s.pendingTakes s.cells s.nextCell s.calls
  plain : s.xf = none
  fixed : ∀ b, s.buf = some b → b.policy = .fixed
  order : s.history.accepted = s.history.handed ++ s.buffered

/-- The value of a put that runs. -/
abbrev State.New (s : State S V) (x : Item V) :
    Prop := Async.New s.history s.pendingPuts s.calls s.sent x

section

variable {s s' : State S V} {x : Item V}

theorem calls_handOff (cell : Nat) (rest : List Nat) (w : Nat) :
    (handOff s cell rest x w).calls = s.calls :=
  calls_wake _ _ _

theorem calls_takeFromPut (rest : List (Item V)) (w : Nat) :
    (takeFromPut s x rest w).calls = s.calls :=
  calls_wake _ _ _

/-- Without a transducer the value itself is added. -/
theorem addTo_plain (hxf : s.xf = none) {b : Buffer (Item V)} (hb : b.policy = .fixed) (w : Nat) :
    addTo s b x w = putReturns (notify (accept
      { s with buf := some { b with data := b.data ++ [x] }, xf := none } x) .notEmpty w) x
      true := by
  simp [addTo, applyXfOrAdd, hxf, Buffer.addBang, hb]

theorem buffered_of_none (h : s.buf = none) : s.buffered = [] := by simp [State.buffered, h]

theorem buffered_of_some {b : Buffer (Item V)} (h : s.buf = some b) : s.buffered = b.data := by
  simp [State.buffered, h]

/-- Nothing can be taken from the buffer, or its first value. -/
theorem buffered_of_takeBang_none (h : s.buf.bind Buffer.takeBang = none) : s.buffered = [] := by
  cases hbuf : s.buf with
  | none => exact buffered_of_none hbuf
  | some b =>
    rw [buffered_of_some hbuf]
    rw [hbuf, Option.bind_some, Buffer.takeBang] at h
    cases hdata : b.data with
    | nil => rfl
    | cons y rest => simp [hdata] at h

theorem buffered_of_takeBang {b : Buffer (Item V)} (h : s.buf.bind Buffer.takeBang = some (x, b)) :
    s.buffered = x :: b.data ∧ ∃ b₀, s.buf = some b₀ ∧ b₀.policy = b.policy := by
  obtain ⟨b₀, hbuf, htake⟩ := Option.bind_eq_some_iff.mp h
  rw [buffered_of_some hbuf]
  rw [Buffer.takeBang] at htake
  cases hdata : b₀.data with
  | nil => simp [hdata] at htake
  | cons y rest =>
    simp only [hdata, Option.some.injEq, Prod.mk.injEq] at htake
    obtain ⟨rfl, rfl⟩ := htake
    exact ⟨rfl, b₀, hbuf, rfl⟩

namespace Account

/-- Takes wait only while the buffer is empty. -/
theorem empty (h : Account s) {cell : Nat} {rest : List Nat}
    (htakes : s.pendingTakes = cell :: rest) :
    s.buffered = [] :=
  buffered_of_takeBang_none (h.tidy.drained (by simp [htakes]))

theorem remarked (h : Account s) (hs : Remarked s s') : Account s' := by
  obtain ⟨waiting, hwaiting, rfl⟩ := hs
  have hcalls : State.calls { s with waiting } = s.calls := hwaiting
  refine ⟨h.tidy.still ⟨hwaiting, rfl, rfl, rfl, rfl⟩ rfl h.tidy.drained, ?_, ?_, h.plain, h.fixed,
    h.order⟩
  · rw [hcalls]
    exact h.numbered
  · rw [hcalls]
    exact h.owned

theorem puts (h : Account s) (hx : s.New x) (hs : Puts s x s') : Account s' := by
  have htidy := h.tidy.puts hs
  cases hs with
  | refused _ => exact ⟨htidy, h.numbered.refuse hx, h.owned, h.plain, h.fixed, h.order⟩
  | @handed cell rest w hopen htakes =>
    refine ⟨htidy, ?_, ?_, h.plain, h.fixed, ?_⟩
    · show Numbered _ s.pendingPuts (handOff s cell rest x w).calls s.done s.sent
      rw [calls_handOff]
      exact h.numbered.acceptNew hx rfl rfl rfl
    · show Owned rest _ s.nextCell (handOff s cell rest x w).calls
      rw [calls_handOff]
      exact (htakes ▸ h.owned).handOff x
    · show s.history.accepted ++ [x] = s.history.handed ++ [x] ++ s.buffered
      rw [h.order, h.empty htakes, List.append_nil, List.append_nil]
  | @added b w hopen htakes hbuf hfull =>
    have hfixed := h.fixed b hbuf
    rw [addTo_plain h.plain hfixed] at htidy ⊢
    refine ⟨htidy, ?_, ?_, rfl, ?_, ?_⟩
    · show Numbered _ s.pendingPuts (notify s .notEmpty w).calls s.done s.sent
      rw [calls_notify]
      exact h.numbered.acceptNew hx rfl rfl rfl
    · show Owned s.pendingTakes s.cells s.nextCell (notify s .notEmpty w).calls
      rw [calls_notify]
      exact h.owned
    · rintro b' ⟨⟩
      exact hfixed
    · show s.history.accepted ++ [x] = s.history.handed ++ (b.data ++ [x])
      rw [h.order, buffered_of_some hbuf, List.append_assoc]
  | @waits b hopen htakes hbuf hfull =>
    refine ⟨htidy, ?_, ?_, h.plain, h.fixed, h.order⟩
    · rw [calls_waits]
      exact h.numbered.wait hx
    · rw [calls_waits]
      exact h.owned.fewer (by simp)
  | pends hopen htakes hbuf =>
    refine ⟨htidy, ?_, ?_, h.plain, h.fixed, h.order⟩
    · rw [calls_pend]
      exact h.numbered.pend hx
    · rw [calls_pend]
      exact h.owned.fewer (by simp)

theorem takes (h : Account s) (hs : Takes s s') : Account s' := by
  have htidy := h.tidy.takes hs
  cases hs with
  | @buffered x b s₁ s₂ w hbuf hadmit hmarked =>
    obtain rfl : { s with buf := some b } = s₁ :=
      congrArg Prod.fst ((h.tidy.admitPut hbuf w).symm.trans hadmit)
    obtain ⟨waiting, hwaiting, rfl⟩ := hmarked
    obtain ⟨hdata, b₀, hb₀, hpolicy⟩ := buffered_of_takeBang hbuf
    have hcalls : waiting.map Waiter.call = s.calls := hwaiting
    refine ⟨htidy, ?_, ?_, h.plain, ?_, ?_⟩
    · show Numbered _ s.pendingPuts (waiting.map Waiter.call) s.done s.sent
      rw [hcalls]
      exact h.numbered.taken rfl rfl rfl
    · show Owned s.pendingTakes s.cells s.nextCell (waiting.map Waiter.call)
      rw [hcalls]
      exact h.owned
    · rintro b' ⟨⟩
      exact hpolicy ▸ h.fixed b₀ hb₀
    · show s.history.accepted = s.history.handed ++ [x] ++ b.data
      rw [h.order, hdata, List.append_assoc]
      rfl
  | raised w hbuf hadmit => exact absurd ((h.tidy.admitPut hbuf w).symm.trans hadmit) (by simp)
  | @fromPut x rest w hbuf hputs =>
    refine ⟨htidy, ?_, ?_, h.plain, h.fixed, ?_⟩
    · show Numbered _ rest (takeFromPut s x rest w).calls (Function.update s.done x.put true) s.sent
      rw [calls_takeFromPut]
      exact (hputs ▸ h.numbered).takePending (hputs ▸ h.tidy.offering) rfl rfl rfl
    · show Owned s.pendingTakes s.cells s.nextCell (takeFromPut s x rest w).calls
      rw [calls_takeFromPut]
      exact h.owned
    · show s.history.accepted ++ [x] = s.history.handed ++ [x] ++ s.buffered
      rw [h.order, buffered_of_takeBang_none hbuf, List.append_nil, List.append_nil]
  | nothing => exact h
  | registers hbuf hputs hopen =>
    refine ⟨htidy, ?_, ?_, h.plain, h.fixed, h.order⟩
    · rw [calls_register]
      exact h.numbered.register fun hin => Nat.lt_irrefl _ (h.owned.taking _ hin)
    · rw [calls_register]
      exact h.owned.register

/-- A call that was woken, other than a put whose value is pending, leaves the others as they
were. -/
theorem erased (h : Account s) {i : Nat} {t : Waiter V} (hi : s.waiting[i]? = some t)
    (ht : ∀ x ∈ s.pendingPuts, t.call ≠ .offering x) :
    Account { s with waiting := s.waiting.eraseIdx i } := by
  have hperm := calls_erased hi
  refine ⟨h.tidy.erased i, ?_, ?_, h.plain, h.fixed, h.order⟩
  · refine (h.numbered.perm hperm).fewer (List.sublist_cons_self _ _) fun x hx hin => ?_
    exact (List.mem_cons.mp hin).resolve_left fun heq => ht x hx heq.symm
  · exact h.owned.fewer fun cell hcell => hperm.mem_iff.mpr (List.mem_cons_of_mem _ hcell)

/-- A put that waited for room has a new value again. -/
theorem woken (h : Account s) {i : Nat} {t : Waiter V} (hi : s.waiting[i]? = some t)
    (ht : t.call = .putting x) : State.New { s with waiting := s.waiting.eraseIdx i } x := by
  have hperm := calls_erased hi
  rw [ht] at hperm
  refine ((h.numbered.perm hperm).woken fun hoffering => ?_).2
  have hputting : .putting x ∈ s.calls := hperm.mem_iff.mpr List.mem_cons_self
  have hin : .offering x ∈ s.calls := hperm.mem_iff.mpr (List.mem_cons_of_mem _ hoffering)
  by_cases hbuf : s.buf = none
  · exact h.tidy.unbuffered hbuf x hputting
  · exact (h.tidy.buffered (Option.isSome_iff_ne_none.mpr hbuf)).2 x hin

/-- A put whose value is pending is not one that waits for room. -/
theorem not_putting (h : Account s) (hx : .offering x ∈ s.calls) : .putting x ∉ s.calls := by
  intro hputting
  by_cases hbuf : s.buf = none
  · exact h.tidy.unbuffered hbuf x hputting
  · exact (h.tidy.buffered (Option.isSome_iff_ne_none.mpr hbuf)).2 x hx

theorem resumes (h : Account s) {i : Nat} {t : Waiter V} (hi : s.waiting[i]? = some t)
    (hs : Resumes { s with waiting := s.waiting.eraseIdx i } t.call s') : Account s' := by
  have hperm := calls_erased hi
  have hmem := mem_calls_of_getElem? s hi
  have hmoved : Tidy s' := h.tidy.moves (Moves.resumes hi hs : Moves s (.resume i 0) s')
  generalize ht : t.call = call at *
  cases hs with
  | puts hputs => exact (h.erased hi (by simp [ht])).puts (h.woken hi ht) hputs
  | unbuffered _ => exact h.erased hi (by simp [ht])
  | @returns x hready =>
    have hnot := h.not_putting hmem
    refine ⟨hmoved, ?_, ?_, h.plain, h.fixed, h.order⟩
    · refine (h.numbered.perm hperm).returns
        (fun hin => hnot (hperm.mem_iff.mpr (List.mem_cons_of_mem _ hin))) ?_
      intro hopen
      simpa [show s.closed = false by simpa using hopen] using hready
    · exact h.owned.fewer fun cell hcell => hperm.mem_iff.mpr (List.mem_cons_of_mem _ hcell)
  | @waits x hready =>
    have hback :
      s.calls.Perm (State.calls { s with waiting := s.waiting.eraseIdx i } ++ [.offering x]) :=
      hperm.trans (List.perm_append_singleton _ _).symm
    refine ⟨hmoved, ?_, ?_, h.plain, h.fixed, h.order⟩
    · rw [calls_waits]
      exact h.numbered.perm hback
    · rw [calls_waits]
      exact h.owned.fewer fun cell hcell => hback.mem_iff.mpr hcell
  | @resolved cell x hcell =>
    have herased := h.erased hi (by simp [ht])
    exact ⟨hmoved, herased.numbered.taken rfl rfl rfl, herased.owned, h.plain, h.fixed, h.order⟩
  | takes _ htakes => exact (h.erased hi (by simp [ht])).takes htakes

theorem sent (h : Account s) (v : V) :
    Account { s with sent := s.sent + 1 } ∧
    State.New { s with sent := s.sent + 1 } ⟨s.sent, v⟩ := by
  obtain ⟨hnumbered, hnew⟩ := h.numbered.next v
  exact ⟨⟨h.tidy.still ⟨rfl, rfl, rfl, rfl, rfl⟩ rfl h.tidy.drained, hnumbered, h.owned, h.plain,
    h.fixed, h.order⟩, hnew⟩

theorem moves (h : Account s) {act : Act V} (hs : Moves s act s') : Account s' := by
  cases hs with
  | @puts v w _ hputs => exact (h.sent v).1.puts (h.sent v).2 hputs
  | @offers v w _ hputs => exact (h.sent v).1.puts (h.sent v).2 hputs
  | takes htakes => exact h.takes htakes
  | polls htakes => exact h.takes htakes
  | closes hmarked =>
    refine Account.remarked ?_ hmarked
    exact ⟨h.tidy.still ⟨rfl, rfl, rfl, rfl, rfl⟩ rfl h.tidy.drained, h.numbered, h.owned, h.plain,
      h.fixed, h.order⟩
  | resumes hi hresumes => exact h.resumes hi hresumes

end Account

end

/-! ## §3 Sure -/

/-- What runs without abandoned values keep: the values accepted are those present, and none of them
was refused. -/
structure Sure (s : State S V) : Prop where
  balance : s.present.Perm s.history.accepted
  refused : ∀ x, (x, false) ∈ s.history.puts → x ∉ s.history.accepted

section

variable {s s' : State S V} {x : Item V}

theorem not_accepted (hx : s.New x) : x ∉ s.history.accepted :=
  fun hin => hx.not_mem (List.mem_append_left _ hin)

namespace Account

theorem kept (h : Account s) (hsure : Sure s) : Kept s := by
  have hnodup : (s.history.accepted.map Item.put).Nodup :=
    h.numbered.distinct.sublist ((List.sublist_append_left _ _).map _)
  refine ⟨fun x hx => ?_, h.order,
    fun x hx htaken => hsure.refused x hx (hsure.balance.mem_iff.mp ?_)⟩
  · have haccepted := h.numbered.settled x hx
    refine ⟨hsure.balance.mem_iff.mpr haccepted, ?_⟩
    rw [(hsure.balance.map Item.put).count_eq]
    exact List.count_eq_one_of_mem hnodup (List.mem_map_of_mem haccepted)
  · exact List.mem_append_right _ (List.mem_append_right _ htaken)

/-- A value handed to a taker that waits is in flight. -/
theorem sure_handed (h : Account s) (hsure : Sure s) (hx : s.New x) {cell : Nat} {rest : List Nat}
    (htakes : s.pendingTakes = cell :: rest) (hcall : .taking cell ∈ s.calls) (w : Nat) :
    Sure (putReturns (handOff s cell rest x w) x true) := by
  have hcell : s.cells cell = none := (h.owned.empty cell (by simp [htakes])).1
  refine ⟨?_, fun y hy => ?_⟩
  · show (s.buffered ++
      (inFlight (Function.update s.cells cell (some x)) (handOff s cell rest x w).calls ++
      s.history.taken)).Perm (s.history.accepted ++ [x])
    rw [calls_handOff]
    have hflight := inFlight_update_perm (x := x) h.numbered.nodup hcall hcell
    refine List.Perm.trans ((hflight.append_right _).append_left _) ?_
    rw [List.append_assoc, List.singleton_append]
    refine List.Perm.trans (List.perm_middle.append_left _) (List.perm_middle.trans ?_)
    exact ((hsure.balance.cons x)).trans (List.perm_append_singleton x _).symm
  · rcases List.mem_append.mp hy with hold | hnew
    · show y ∉ s.history.accepted ++ [x]
      refine fun hin => (List.mem_append.mp hin).elim (hsure.refused y hold) fun heq => ?_
      obtain rfl := List.mem_singleton.mp heq
      exact hx.returned false hold
    · simp at hnew

theorem sure_puts (h : Account s) (hsure : Sure s) (hx : s.New x) (hsound : TakerWaits s)
    (hs : Puts s x s') :
    Sure s' := by
  cases hs with
  | refused _ =>
    refine ⟨hsure.balance, fun y hy => ?_⟩
    rcases List.mem_append.mp hy with hold | hnew
    · exact hsure.refused y hold
    · obtain ⟨rfl, -⟩ := Prod.mk.inj (List.mem_singleton.mp hnew)
      exact not_accepted (s := s) hx
  | handed w hopen htakes => exact h.sure_handed hsure hx htakes (hsound _ _ hopen htakes) w
  | @added b w hopen htakes hbuf hfull =>
    rw [addTo_plain h.plain (h.fixed b hbuf)]
    refine ⟨?_, fun y hy => ?_⟩
    · show ((b.data ++ [x]) ++
        (inFlight s.cells (notify s .notEmpty w).calls ++ s.history.taken)).Perm
        (s.history.accepted ++ [x])
      have hbalance := hsure.balance
      rw [State.present, buffered_of_some hbuf] at hbalance
      rw [calls_notify, List.append_assoc, List.singleton_append]
      exact List.perm_middle.trans ((hbalance.cons x).trans (List.perm_append_singleton x _).symm)
    · rcases List.mem_append.mp hy with hold | hnew
      · show y ∉ s.history.accepted ++ [x]
        refine fun hin => (List.mem_append.mp hin).elim (hsure.refused y hold) fun heq => ?_
        obtain rfl := List.mem_singleton.mp heq
        exact hx.returned false hold
      · simp at hnew
  | waits hopen htakes hbuf hfull =>
    refine ⟨?_, hsure.refused⟩
    show (s.buffered ++ (inFlight s.cells (waits s (.putting x)).calls ++ s.history.taken)).Perm _
    rw [calls_waits, inFlight_snoc rfl]
    exact hsure.balance
  | pends hopen htakes hbuf =>
    refine ⟨?_, hsure.refused⟩
    show (s.buffered ++ (inFlight s.cells (pend s x).calls ++ s.history.taken)).Perm _
    rw [calls_pend, inFlight_snoc rfl]
    exact hsure.balance

theorem sure_takes (h : Account s) (hsure : Sure s) (hsound : PutterWaits s) (hs : Takes s s') :
    Sure s' := by
  cases hs with
  | @buffered x b s₁ s₂ w hbuf hadmit hmarked =>
    obtain rfl : { s with buf := some b } = s₁ :=
      congrArg Prod.fst ((h.tidy.admitPut hbuf w).symm.trans hadmit)
    obtain ⟨waiting, hwaiting, rfl⟩ := hmarked
    obtain ⟨hdata, -⟩ := buffered_of_takeBang hbuf
    refine ⟨?_, hsure.refused⟩
    show (b.data ++ (inFlight s.cells (waiting.map Waiter.call) ++ (s.history.taken ++ [x]))).Perm _
    have hbalance := hsure.balance
    rw [State.present, hdata] at hbalance
    rw [show waiting.map Waiter.call = s.calls
      from hwaiting, ← List.append_assoc, ← List.append_assoc, List.append_assoc b.data]
    exact (List.perm_append_singleton x _).trans hbalance
  | raised w hbuf hadmit => exact absurd ((h.tidy.admitPut hbuf w).symm.trans hadmit) (by simp)
  | @fromPut x rest w hbuf hputs =>
    have hoffering := hsound x rest hputs
    refine ⟨?_, fun y hy => ?_⟩
    · show (s.buffered ++
        (inFlight s.cells (takeFromPut s x rest w).calls ++ (s.history.taken ++ [x]))).Perm
        (s.history.accepted ++ [x])
      rw [calls_takeFromPut, ← List.append_assoc, ← List.append_assoc, List.append_assoc s.buffered]
      exact hsure.balance.append_right _
    · show y ∉ s.history.accepted ++ [x]
      refine fun hin => (List.mem_append.mp hin).elim (hsure.refused y hy) fun heq => ?_
      obtain rfl := List.mem_singleton.mp heq
      exact (h.numbered.returned y false hy).2.2 hoffering
  | nothing => exact hsure
  | registers hbuf hputs hopen =>
    refine ⟨?_, hsure.refused⟩
    show (s.buffered ++ (inFlight s.cells (register s).calls ++ s.history.taken)).Perm _
    rw [calls_register, inFlight_snoc (show (Call.taking s.nextCell).content? s.cells = none from
      h.owned.unused _ (Nat.le_refl _))]
    exact hsure.balance

/-- A woken call without a value in its cell leaves what is present as it was. -/
theorem sure_erased (hsure : Sure s) {i : Nat} {t : Waiter V} (hi : s.waiting[i]? = some t)
    (ht : t.call.content? s.cells = none) : Sure { s with waiting := s.waiting.eraseIdx i } := by
  refine ⟨List.Perm.trans ?_ hsure.balance, hsure.refused⟩
  have hflight := (calls_erased hi).filterMap (Call.content? s.cells)
  rw [List.filterMap_cons_none ht] at hflight
  exact ((hflight.symm.append_right _).append_left _)

theorem takerWaits_erased {i : Nat} {t : Waiter V} (hi : s.waiting[i]? = some t)
    (ht : t.call = .putting x) :
    TakerWaits { s with waiting := s.waiting.eraseIdx i } ↔ TakerWaits s := by
  have hmem (cell : Nat) : .taking cell ∈ s.calls ↔
      .taking cell ∈ State.calls { s with waiting := s.waiting.eraseIdx i } := by
    rw [(calls_erased hi).mem_iff, ht]
    simp
  simp only [TakerWaits, hmem]

theorem putterWaits_erased {i cell : Nat} {t : Waiter V} (hi : s.waiting[i]? = some t)
    (ht : t.call = .taking cell) :
    PutterWaits { s with waiting := s.waiting.eraseIdx i } ↔ PutterWaits s := by
  have hmem (y : Item V) : .offering y ∈ s.calls ↔
      .offering y ∈ State.calls { s with waiting := s.waiting.eraseIdx i } := by
    rw [(calls_erased hi).mem_iff, ht]
    simp
  simp only [PutterWaits, hmem]

theorem sure_resumes (h : Account s) (hsure : Sure s) {i : Nat} {t : Waiter V}
    (hi : s.waiting[i]? = some t) (hsound : SoundResume s t.call)
    (hs : Resumes { s with waiting := s.waiting.eraseIdx i } t.call s') :
    Sure s' := by
  have hmem := mem_calls_of_getElem? s hi
  generalize ht : t.call = call at *
  cases hs with
  | puts hputs =>
    exact (h.erased hi (by simp [ht])).sure_puts (sure_erased hsure hi (by rw [ht]; rfl))
      (h.woken hi ht)
      ((takerWaits_erased hi ht).mpr hsound) hputs
  | unbuffered _ => exact sure_erased hsure hi (by rw [ht]; rfl)
  | @returns x hready =>
    have herased := sure_erased hsure hi (by rw [ht]; rfl)
    refine ⟨herased.balance, fun y hy => ?_⟩
    rcases List.mem_append.mp hy with hold | hnew
    · exact hsure.refused y hold
    · obtain ⟨rfl, hclosed⟩ := Prod.mk.inj (List.mem_singleton.mp hnew)
      have hclosed : s.closed = true := by simpa using hclosed
      have hpending := (h.tidy.offering y hmem).resolve_right fun hdone => hsound ⟨hdone, hclosed⟩
      exact h.numbered.not_accepted hpending
  | @waits x hready =>
    have herased := sure_erased hsure hi (by rw [ht]; rfl)
    refine ⟨?_, hsure.refused⟩
    show (s.buffered ++
      (inFlight s.cells (waits { s with waiting := _ } (.offering x)).calls ++ _)).Perm _
    rw [calls_waits, inFlight_snoc rfl]
    exact herased.balance
  | @resolved cell x hcell =>
    refine ⟨?_, hsure.refused⟩
    have hflight := (calls_erased hi).filterMap (Call.content? s.cells)
    rw [ht, List.filterMap_cons_some (show (Call.taking cell).content? s.cells = some x
      from hcell)] at hflight
    refine List.Perm.trans ?_ hsure.balance
    show (s.buffered ++ (inFlight s.cells _ ++ (s.history.taken ++ [x]))).Perm
      (s.buffered ++ (inFlight s.cells s.calls ++ s.history.taken))
    refine List.Perm.append_left _ (List.Perm.trans ?_ (hflight.symm.append_right _))
    rw [← List.append_assoc]
    exact List.perm_append_singleton x _
  | @takes cell _ hcell htakes =>
    exact (h.erased hi (by simp [ht])).sure_takes (sure_erased hsure hi (by rw [ht]; exact hcell))
      ((putterWaits_erased hi ht).mpr (hsound hcell)) htakes

theorem sure_moves (h : Account s) (hsure : Sure s) {act : Act V} (hsound : Sound s act)
    (hs : Moves s act s') : Sure s' := by
  have hsent : Sure { s with sent := s.sent + 1 } := ⟨hsure.balance, hsure.refused⟩
  cases hs with
  | @puts v w _ hputs => exact (h.sent v).1.sure_puts hsent (h.sent v).2 hsound hputs
  | @offers v w _ hputs => exact (h.sent v).1.sure_puts hsent (h.sent v).2 hsound hputs
  | takes htakes => exact h.sure_takes hsure hsound htakes
  | polls htakes => exact h.sure_takes hsure hsound htakes
  | closes hmarked =>
    obtain ⟨waiting, hwaiting, rfl⟩ := hmarked
    refine ⟨?_, hsure.refused⟩
    show (s.buffered ++ (inFlight s.cells (waiting.map Waiter.call) ++ s.history.taken)).Perm _
    rw [show waiting.map Waiter.call = s.calls from hwaiting]
    exact hsure.balance
  | resumes hi hresumes => exact h.sure_resumes hsure hi (hsound _ hi) hresumes

/-- A value handed to an abandoned cell is nowhere, though its put returned `t`. -/
theorem not_kept_puts (hsure : Sure s) (hx : s.New x) (hsound : ¬ TakerWaits s) (hs : Puts s x s') :
    ¬ Kept s' := by
  obtain ⟨cell, rest, hopen, htakes, hnot⟩ :
    ∃ cell rest, s.closed = false ∧ s.pendingTakes = cell :: rest ∧
      .taking cell ∉ s.calls := by simpa [TakerWaits] using hsound
  cases hs with
  | refused hnil => exact absurd (htakes.symm.trans (hnil hopen)) (by simp)
  | @handed cell' rest' w _ htakes' =>
    obtain ⟨rfl, rfl⟩ := List.cons.inj (htakes.symm.trans htakes')
    intro hkept
    have hpresent := (hkept.once x (List.mem_append_right _ (List.mem_singleton_self _))).1
    refine not_accepted hx (hsure.balance.mem_iff.mp ?_)
    have hsame : (putReturns (handOff s cell rest x w) x true).present = s.present := by
      show s.buffered ++
        (inFlight (Function.update s.cells cell (some x)) (handOff s cell rest x w).calls ++
        s.history.taken) = _
      rw [calls_handOff, inFlight_update_of_not_mem hnot]
      rfl
    rwa [hsame] at hpresent
  | added _ _ hnil _ _ => exact absurd (htakes.symm.trans hnil) (by simp)
  | waits _ hnil _ _ => exact absurd (htakes.symm.trans hnil) (by simp)
  | pends _ hnil _ => exact absurd (htakes.symm.trans hnil) (by simp)

/-- A value whose put has returned `nil` is taken. -/
theorem not_kept_takes (h : Account s) (hsound : ¬ PutterWaits s) (hs : Takes s s') :
    ¬ Kept s' := by
  obtain ⟨x, rest, hputs, hnot⟩ : ∃ x rest, s.pendingPuts = x :: rest ∧ .offering x ∉ s.calls := by
    simpa [PutterWaits] using hsound
  have hrefused := (h.numbered.attended x (by simp [hputs])).resolve_left hnot
  cases hs with
  | buffered w hbuf hadmit _ =>
    obtain ⟨-, b₀, hb₀, -⟩ := buffered_of_takeBang hbuf
    exact absurd (hputs.symm.trans (h.tidy.buffered (by simp [hb₀])).1) (by simp)
  | raised w hbuf hadmit => exact absurd ((h.tidy.admitPut hbuf w).symm.trans hadmit) (by simp)
  | @fromPut x' rest' w hbuf hputs' =>
    obtain ⟨rfl, rfl⟩ := List.cons.inj (hputs.symm.trans hputs')
    intro hkept
    exact hkept.refused x hrefused (List.mem_append_right _ (List.mem_singleton_self _))
  | nothing _ hnil => exact absurd (hputs.symm.trans hnil) (by simp)
  | registers _ hnil _ => exact absurd (hputs.symm.trans hnil) (by simp)

theorem not_kept_moves (h : Account s) (hsure : Sure s) {act : Act V} (hsound : ¬ Sound s act)
    (hs : Moves s act s') : ¬ Kept s' := by
  have hsent : Sure { s with sent := s.sent + 1 } := ⟨hsure.balance, hsure.refused⟩
  cases hs with
  | @puts v w _ hputs => exact not_kept_puts hsent (h.sent v).2 hsound hputs
  | @offers v w _ hputs => exact not_kept_puts hsent (h.sent v).2 hsound hputs
  | takes htakes => exact h.not_kept_takes hsound htakes
  | polls htakes => exact h.not_kept_takes hsound htakes
  | closes _ => exact absurd trivial hsound
  | @resumes i w t _ hi hresumes =>
    have hsound : ¬ SoundResume s t.call := fun hfine => hsound fun t' ht' => by
      obtain rfl := Option.some.inj (hi.symm.trans ht')
      exact hfine
    have hmem := mem_calls_of_getElem? s hi
    generalize ht : t.call = call at *
    cases hresumes with
    | puts hputs =>
      exact not_kept_puts (sure_erased hsure hi (by rw [ht]; rfl)) (h.woken hi ht)
        (fun hwaits => hsound ((takerWaits_erased hi ht).mp hwaits)) hputs
    | @unbuffered x hbuf => exact absurd hmem (h.tidy.unbuffered hbuf x)
    | @returns x hready =>
      obtain ⟨hdone, hclosed⟩ := not_not.mp hsound
      intro hkept
      refine hkept.refused x (List.mem_append_right _ ?_) (h.numbered.resolved x hmem hdone).2
      simp [hclosed]
    | @waits x hready =>
      obtain ⟨hdone, -⟩ := not_not.mp hsound
      exact absurd hready (by simp [hdone])
    | @resolved cell x hcell =>
        exact absurd (fun hnone => absurd (hcell.symm.trans hnone) (by simp)) hsound
    | @takes cell _ hcell htakes =>
      refine (h.erased hi (by simp [ht])).not_kept_takes (fun hwaits => hsound fun _ => ?_) htakes
      exact (putterWaits_erased hi ht).mp hwaits

end Account

end

/-! ## §4 Claims -/

/-- A channel without a transducer, with a fixed buffer or none. -/
def plainChan (capacity : Option Int) : State S V := chan (capacity.map fun n => (.fixed, n)) none

theorem account_plainChan (capacity : Option Int) : Account (plainChan capacity : State S V) := by
  have hcalls : (plainChan capacity : State S V).calls = [] := rfl
  have hbuffered : (plainChan capacity : State S V).buffered = [] := by cases capacity <;> rfl
  refine ⟨tidy_chan _ _, ?_, ?_, rfl, fun b hb => ?_, by rw [hbuffered]; rfl⟩
  · refine ⟨List.nodup_nil, ?_, List.nodup_nil, ?_, ?_, ?_, ?_, ?_, ?_⟩
    all_goals simp [plainChan, chan, State.calls, tracked]
  · refine ⟨List.nodup_nil, ?_, fun _ _ => rfl, ?_⟩
    all_goals simp [plainChan, chan, State.calls]
  · obtain ⟨p, hp, rfl⟩ := Option.map_eq_some_iff.mp hb
    obtain ⟨n, -, rfl⟩ := Option.map_eq_some_iff.mp hp
    rfl

theorem sure_plainChan (capacity : Option Int) : Sure (plainChan capacity : State S V) := by
  have hpresent : (plainChan capacity : State S V).present = [] := by cases capacity <;> rfl
  exact ⟨by rw [hpresent]; rfl, fun _ h => by simp [plainChan, chan] at h⟩

/-- A channel keeps its values exactly as long as every step is sound. -/
theorem kept_iff (capacity : Option Int) {run : List (Act V × State S V)}
    (hrun : IsRun Steps (plainChan capacity) run) :
    Always Kept (plainChan capacity) run ↔ EachStep Sound (plainChan capacity) run := by
  have haccount := account_plainChan (S := S) (V := V) capacity
  have hsure := sure_plainChan (S := S) (V := V) capacity
  refine always_iff_eachStep (I := fun s => Account s ∧ Sure s) (D := fun _ _ => True) ?_ ?_
    ⟨haccount, hsure⟩ (haccount.kept hsure) hrun (.of_forall (fun _ _ => trivial) _ _)
  · rintro s act s' ⟨haccount, hsure⟩ - - hsound hstep
    have hmoves := moves_of_step hstep
    exact ⟨haccount.moves hmoves, haccount.sure_moves hsure hsound hmoves⟩
  · rintro s act s' ⟨haccount, hsure⟩ - - hstep
    have hmoves := moves_of_step hstep
    refine ⟨fun hkept => ?_,
      fun hsound => (haccount.moves hmoves).kept (haccount.sure_moves hsure hsound hmoves)⟩
    by_contra hsound
    exact haccount.not_kept_moves hsure hsound hmoves hkept

/-- Two takes wait; the first value goes into the cell of the first, but the second is woken and
registers another cell; the next value goes into the cell it left. -/
def wrongWaker : List (Act Nat) := [.take 0, .take 0, .put 1 1, .resume 1 0, .put 2 0]

/-- Without `wrongWaker`'s notification: the first take is woken, and all is well. -/
def rightWaker : List (Act Nat) := [.take 0, .take 0, .put 1 0, .resume 0 0, .put 2 0]

theorem rightWaker_kept :
    Always Kept (plainChan (S := Unit) none) (trace step (plainChan none) rightWaker) ↔
      EachStep Sound (plainChan none) (trace step (plainChan (S := Unit) none) rightWaker) :=
  kept_iff none (trace_isRun _ _ _)

theorem wrongWaker_lost : ¬ ∀ run, IsRun Steps (plainChan (S := Unit) (V := Nat) none) run →
    Always Kept (plainChan none) run := by
  intro h
  have hrun := h (trace step (plainChan none) wrongWaker) (trace_isRun _ _ _)
  have hlast := hrun.2.2.2.2.2
  exact absurd (hlast.once ⟨1, 2⟩ (by decide)).1 (by decide)

/-- No value is accepted twice, they are handed out in the order they were accepted, and a put that
returned `t` was accepted. -/
def Ordered (s : State S V) : Prop :=
  (s.history.accepted.map Item.put).Nodup ∧ s.history.accepted = s.history.handed ++ s.buffered ∧
    ∀ x, (x, true) ∈ s.history.puts → x ∈ s.history.accepted

/-- Also where values are lost. -/
theorem ordered_always (capacity : Option Int) {run : List (Act V × State S V)}
    (hrun : IsRun Steps (plainChan capacity) run) : Always Ordered (plainChan capacity) run := by
  have hstep (s : State S V) (act : Act V) (s' : State S V) (h : Account s) (_ : True)
    (hs : Steps s act s') :=
    h.moves (moves_of_step hs)
  refine (invariant_always hstep (account_plainChan capacity) hrun
    (.of_forall (fun _ _ => trivial) _ _)).imp ?_
  intro s h
  have hdistinct := h.numbered.distinct
  rw [tracked, List.map_append] at hdistinct
  exact ⟨hdistinct.of_append_left, h.order, h.numbered.settled⟩

theorem wrongWaker_ordered :
    Always Ordered (plainChan (S := Unit) none) (trace step (plainChan none) wrongWaker) :=
  ordered_always none (trace_isRun _ _ _)

end Fol.Async
