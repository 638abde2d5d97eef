/-
Fol.Lib.ForkJoin — tasks that submit tasks and wait for them, on a pool of workers with a queue
each.

A thread that waits does nothing else. An idle worker takes the newest task of its own queue, and
the oldest of another one when its own is empty. Every result has a box; the caller's own is box 0.
`Moves` leaves open which queue a task goes to and which of its tasks is taken, so that a pool that
chooses in some other way makes such moves too.

  §1 Tasks  — `Work`, `Work.cost`, `Work.forks`.
  §2 Pool   — `Pool`, `step`, `Moves`.
  §3 Totals — `Pool.weigh`, and what a move does to it.
  §4 Values — `Work.Means`.
  §5 Safety — `Sound`: the result is the value.
  §6 Stuck  — while fewer tasks wait than there are workers, some thread can go on.
  §7 Stalls — otherwise all workers can come to wait: `exists_stall`.
-/
import Fol.Lib.Ledgers
import Mathlib.Algebra.BigOperators.Fin
import Mathlib.Algebra.Order.BigOperators.Group.Finset

namespace Fol.Lib.ForkJoin

/-! ## §1 Tasks -/

/-- What is left of a task: it ends with its result, or submits a task and gets its handle, or waits
for the result behind a handle. -/
inductive Work (R : Type) where
  | done (result : R)
  | submit (child : Work R) (rest : Nat → Work R)
  | wait (handle : Nat) (rest : R → Work R)

namespace Work

variable {R : Type}

/-- 1 for a task that does not end at once. -/
def load : Work R → Nat
  | .done _ => 0
  | _ => 1

@[simp] theorem load_done (r : R) : (done r).load = 0 := rfl
@[simp] theorem load_submit (child : Work R) (rest : Nat → Work R) :
    (submit child rest).load = 1 := rfl
@[simp] theorem load_wait (h : Nat) (rest : R → Work R) : (wait h rest).load = 1 := rfl

theorem load_le_one (t : Work R) : t.load ≤ 1 := by
  cases t <;> simp

section

variable [Inhabited R]

/-- The moves of the task itself and of the tasks it submits. -/
def cost : Work R → Nat
  | .done _ => 0
  | .submit child rest => child.cost + 2 + (rest 0).cost + 1
  | .wait _ rest => (rest default).cost + 1

/-- How many of the tasks it submits, and these submit, do not end at once. -/
def forks : Work R → Nat
  | .done _ => 0
  | .submit child rest => child.forks + child.load + (rest 0).forks
  | .wait _ rest => (rest default).forks

/-- Neither handles nor results change how much is to be done. -/
def Uniform : Work R → Prop
  | .done _ => True
  | .submit child rest =>
    child.Uniform ∧ ∀ h, (rest h).Uniform ∧ (rest h).cost = (rest 0).cost ∧
      (rest h).forks = (rest 0).forks
  | .wait _ rest =>
    ∀ r, (rest r).Uniform ∧ (rest r).cost = (rest default).cost ∧
      (rest r).forks = (rest default).forks

/-- What a task costs, whatever handles and results it gets. -/
structure Shape (t : Work R) (cost forks : Nat) : Prop where
  uniform : t.Uniform
  cost_eq : t.cost = cost
  forks_eq : t.forks = forks

theorem shape_done (r : R) : (done r).Shape 0 0 := ⟨trivial, rfl, rfl⟩

theorem Shape.submit {child : Work R} {rest : Nat → Work R} {c c' f f' : Nat}
    (hchild : child.Shape c f) (hrest : ∀ h, (rest h).Shape c' f') :
    (Work.submit child rest).Shape (c + 2 + c' + 1) (f + child.load + f') where
  uniform := ⟨hchild.uniform,
    fun h => ⟨(hrest h).uniform, (hrest h).cost_eq.trans (hrest 0).cost_eq.symm,
    (hrest h).forks_eq.trans (hrest 0).forks_eq.symm⟩⟩
  cost_eq := by rw [cost, hchild.cost_eq, (hrest 0).cost_eq]
  forks_eq := by rw [forks, hchild.forks_eq, (hrest 0).forks_eq]

theorem Shape.wait {h : Nat} {rest : R → Work R} {c f : Nat} (hrest : ∀ r, (rest r).Shape c f) :
    (Work.wait h rest).Shape (c + 1) f where
  uniform r := ⟨(hrest r).uniform, (hrest r).cost_eq.trans (hrest default).cost_eq.symm,
    (hrest r).forks_eq.trans (hrest default).forks_eq.symm⟩
  cost_eq := by rw [cost, (hrest default).cost_eq]
  forks_eq := by rw [forks, (hrest default).forks_eq]

/-- It submits all its tasks, those that do not end at once first, before it waits. -/
def ForksFirst : Work R → Prop
  | .done _ => False
  | .submit child rest =>
    (child.load = 0 ∨ child.ForksFirst) ∧ ∀ h, (rest h).ForksFirst ∧
      (child.load = 0 → (rest h).forks = 0)
  | .wait _ rest => (rest default).forks = 0

end

/-- It waits only for tasks from a handle on. -/
def Above : Work R → Nat → Prop
  | .done _, _ => True
  | .submit child rest, b => (∀ c, child.Above c) ∧ ∀ h, b ≤ h → (rest h).Above b
  | .wait h rest, b => b ≤ h ∧ ∀ r, (rest r).Above b

end Work

/-! ## §2 Pool -/

/-- `threads none` is the caller; a thread has the box and the rest of the task it runs. -/
structure Pool (w : Nat) (R : Type) where
  boxes : List (Option R)
  queues : Fin w → List (Nat × Work R)
  turn : Nat
  threads : Option (Fin w) → Option (Nat × Work R)

inductive Act (w : Nat) where
  | go (x : Option (Fin w))
  | take (k victim : Fin w)

namespace Pool

variable {w : Nat} {R : Type}

/-- The caller begins, with idle workers. -/
def start (w : Nat) (main : Work R) (turn : Nat) : Pool w R where
  boxes := [none]
  queues _ := []
  turn := turn
  threads
    | none => some (0, main)
    | some _ => none

def result (s : Pool w R) : Option R := (s.boxes[0]?).join

/-- What an idle worker finds, and the queues then. -/
def taken (s : Pool w R) (k victim : Fin w) :
    Option ((Nat × Work R) × (Fin w → List (Nat × Work R))) :=
  match (s.queues k).getLast? with
  | some work => some (work, Function.update s.queues k (s.queues k).dropLast)
  | none =>
    match s.queues victim with
    | [] => none
    | work :: others => some (work, Function.update s.queues victim others)

variable [NeZero w]

/-- The queues take turns. -/
def next (s : Pool w R) : Fin w := Fin.ofNat w s.turn

def submitTo (s : Pool w R) (j : Fin w) (child : Work R) : Pool w R :=
  { s with
    boxes := s.boxes ++ [none]
    queues := Function.update s.queues j (s.queues j ++ [(s.boxes.length, child)])
    turn := s.turn + 1 }

abbrev submit (s : Pool w R) (child : Work R) : Pool w R := s.submitTo s.next child

omit [NeZero w] in
@[simp] theorem threads_submitTo (s : Pool w R) (j : Fin w) (child : Work R) :
    (s.submitTo j child).threads = s.threads := rfl

def step (s : Pool w R) : Act w → Option (Pool w R)
  | .go x =>
    match s.threads x with
    | none => none
    | some (i, .done r) =>
      some { s with boxes := s.boxes.set i (some r), threads := Function.update s.threads x none }
    | some (i, .submit child rest) =>
      some { s.submit
        child with threads := Function.update s.threads x (some (i, rest s.boxes.length)) }
    | some (i, .wait h rest) =>
      ((s.boxes[h]?).join).map fun r =>
        { s with threads := Function.update s.threads x (some (i, rest r)) }
  | .take k victim =>
    match s.threads (some k), s.taken k victim with
    | none, some (work, queues) =>
      some { s with queues, threads := Function.update s.threads (some k) (some work) }
    | _, _ => none

/-- What a step can be; the order in the queues, and the choice among them, is left open. -/
inductive Moves (s : Pool w R) : Pool w R → Prop where
  | finish {x i r} (hx : s.threads x = some (i, .done r)) :
    Moves s { s with boxes := s.boxes.set i (some r), threads := Function.update s.threads x none }
  | submit {x i child rest} (j : Fin w) (hx : s.threads x = some (i, .submit child rest)) :
    Moves s { s.submitTo j
      child with threads := Function.update s.threads x (some (i, rest s.boxes.length)) }
  | resume {x i h rest r} (hx : s.threads x = some (i, .wait h rest)) (hbox :
      s.boxes[h]? = some (some r)) :
    Moves s { s with threads := Function.update s.threads x (some (i, rest r)) }
  | take {k j work others} (hk : s.threads (some k) = none)
      (hqueue : (s.queues j).Perm (work :: others)) :
    Moves s { s with
      queues := Function.update s.queues j others
      threads := Function.update s.threads (some k) (some work) }

theorem moves_of_step {s s' : Pool w R} {a : Act w} (h : s.step a = some s') : Moves s s' := by
  cases a with
  | go x =>
    simp only [step] at h
    split at h
    case h_1 => cases h
    case h_2 hx => exact Option.some.inj h ▸ .finish hx
    case h_3 hx => exact Option.some.inj h ▸ .submit s.next hx
    case h_4 hx =>
      obtain ⟨r, hbox, rfl⟩ := Option.map_eq_some_iff.mp h
      exact .resume hx (Option.join_eq_some_iff.mp hbox)
  | take k victim =>
    simp only [step] at h
    split at h
    case h_1 work queues hk htaken =>
      obtain rfl := Option.some.inj h
      unfold taken at htaken
      split at htaken
      case h_1 last hlast =>
        obtain ⟨rfl, rfl⟩ := Prod.mk.inj (Option.some.inj htaken)
        refine .take hk ?_
        conv_lhs => rw [← List.dropLast_append_getLast? _ hlast]
        exact List.perm_append_singleton _ _
      case h_2 =>
        split at htaken
        case h_1 => cases htaken
        case h_2 hvictim =>
          obtain ⟨rfl, rfl⟩ := Prod.mk.inj (Option.some.inj htaken)
          exact .take hk (.of_eq hvictim)
    case h_2 => cases h

/-! ## §3 Totals -/

section

variable (busy queued : Work R → Nat)

def weight (t : Option (Nat × Work R)) : Nat := t.elim 0 fun p => busy p.2

def load (queue : List (Nat × Work R)) : Nat := (queue.map fun p => queued p.2).sum

@[simp] theorem weight_none : weight busy none = 0 := rfl

@[simp] theorem weight_some (p : Nat × Work R) : weight busy (some p) = busy p.2 := rfl

/-- The tasks that threads run and those in queues. -/
def weigh (s : Pool w R) : Nat := ∑ x, weight busy (s.threads x) + ∑ j, load queued (s.queues j)

variable {s s' : Pool w R}

omit [NeZero w] in
theorem weigh_start {main : Work R} {turn : Nat} :
    (start w main turn).weigh busy queued = busy main := by
  simp [weigh, start, weight, load, Fintype.sum_option]

omit [NeZero w] in
theorem weigh_thread (x : Option (Fin w)) (p : Option (Nat × Work R)) :
    weigh busy queued { s with threads := Function.update s.threads x p } +
      weight busy (s.threads x) = s.weigh busy queued + weight busy p := by
  have hsum := sum_update (weight busy) s.threads x p
  simp only [weigh]
  omega

omit [NeZero w] in
theorem weigh_submit (j : Fin w) (child : Work R) :
    (s.submitTo j child).weigh busy queued = s.weigh busy queued + queued child := by
  have hsum := sum_update (load queued) s.queues j (s.queues j ++ [(s.boxes.length, child)])
  have hload (queue : List (Nat × Work R)) (i : Nat) :
      load queued (queue ++ [(i, child)]) = load queued queue + queued child := by simp [load]
  rw [hload] at hsum
  simp only [weigh, submitTo]
  omega

omit [NeZero w] in
theorem weigh_take {k j : Fin w} {work : Nat × Work R} {others : List (Nat × Work R)}
    (hk : s.threads (some k) = none)
    (hqueue : (s.queues j).Perm (work :: others)) :
    weigh busy queued { s with
        queues := Function.update s.queues j others
        threads := Function.update s.threads (some k) (some work) } + queued work.2 =
      s.weigh busy queued + busy work.2 := by
  have hthreads := sum_update (weight busy) s.threads (some k) (some work)
  have hqueues := sum_update (load queued) s.queues j others
  have hload : load queued (s.queues j) = queued work.2 + load queued others :=
    (hqueue.map fun p : Nat × Work R => queued p.2).sum_eq.trans List.sum_cons
  rw [hk, weight_none, weight_some] at hthreads
  simp only [weigh]
  omega

end

section

variable [Inhabited R] {s s' : Pool w R}

/-- How many moves are left. -/
def cost (s : Pool w R) : Nat := s.weigh (·.cost + 1) (·.cost + 2)

/-- How many tasks wait or may come to wait. -/
def waiting (s : Pool w R) : Nat := s.weigh (fun t => t.forks + t.load) (fun t => t.forks + t.load)

omit [NeZero w] in
theorem cost_move (h : Moves s s') (huniform : ∀ x p, s.threads x = some p → p.2.Uniform) :
    s'.cost + 1 = s.cost := by
  cases h with
  | @finish x i r hx =>
    have hthread := weigh_thread (s := s) (·.cost + 1) (·.cost + 2) x none
    rw [hx] at hthread
    exact hthread
  | @submit x i child rest j hx =>
    have hthread := weigh_thread (s := s.submitTo j child) (·.cost + 1) (·.cost + 2) x
      (some (i, rest s.boxes.length))
    have heven := ((huniform x _ hx).2 s.boxes.length).2.1
    rw [threads_submitTo, hx, weigh_submit] at hthread
    simp only [weight_some, Work.cost] at hthread
    simp only [cost]
    omega
  | @resume x i handle rest r hx hbox =>
    have hthread := weigh_thread (s := s) (·.cost + 1) (·.cost + 2) x (some (i, rest r))
    have heven := (huniform x _ hx r).2.1
    rw [hx] at hthread
    simp only [weight_some, Work.cost] at hthread
    simp only [cost]
    omega
  | take hk hqueue =>
    have htake := weigh_take (s := s) (·.cost + 1) (·.cost + 2) hk hqueue
    simp only [cost]
    omega

omit [NeZero w] in
theorem waiting_submit {x : Option (Fin w)} {i : Nat} {child : Work R} {rest : Nat → Work R}
    (j : Fin w) (hx : s.threads x = some (i, .submit child rest))
    (huniform : (Work.submit child rest).Uniform) :
    waiting { s.submitTo j child with
        threads := Function.update s.threads x (some (i, rest s.boxes.length)) } + 1 =
      s.waiting + (rest s.boxes.length).load := by
  have hthread :=
    weigh_thread (s := s.submitTo j child) (fun t => t.forks + t.load) (fun t => t.forks + t.load) x
    (some (i, rest s.boxes.length))
  have heven := (huniform.2 s.boxes.length).2.2
  rw [threads_submitTo, hx, weigh_submit] at hthread
  simp only [weight_some, Work.forks, Work.load_submit] at hthread
  simp only [waiting]
  omega

omit [NeZero w] in
theorem waiting_take {k j : Fin w} {work : Nat × Work R} {others : List (Nat × Work R)}
    (hk : s.threads (some k) = none)
    (hqueue : (s.queues j).Perm (work :: others)) :
    waiting { s with
        queues := Function.update s.queues j others
        threads := Function.update s.threads (some k) (some work) } = s.waiting := by
  have htake := weigh_take (s := s) (fun t => t.forks + t.load) (fun t => t.forks + t.load) hk
    hqueue
  simp only [waiting]
  omega

omit [NeZero w] in
theorem waiting_move (h : Moves s s') (huniform : ∀ x p, s.threads x = some p → p.2.Uniform) :
    s'.waiting ≤ s.waiting := by
  cases h with
  | @finish x i r hx =>
    have hthread := weigh_thread (s := s) (fun t => t.forks + t.load) (fun t =>
      t.forks + t.load) x none
    rw [weight_none] at hthread
    exact Nat.le.intro hthread
  | @submit x i child rest j hx =>
    have hsubmit := waiting_submit j hx (huniform x _ hx)
    have hload := (rest s.boxes.length).load_le_one
    omega
  | @resume x i handle rest r hx hbox =>
    have hthread := weigh_thread (s := s) (fun t => t.forks + t.load) (fun t => t.forks + t.load) x
      (some (i, rest r))
    have heven := (huniform x _ hx r).2.2
    have hload := (rest r).load_le_one
    rw [hx] at hthread
    simp only [weight_some, Work.forks, Work.load_wait] at hthread
    simp only [waiting]
    omega
  | take hk hqueue => exact (waiting_take hk hqueue).le

end

end Pool

/-! ## §4 Values -/

namespace Work

variable {R : Type} {E E' : Nat → Option R}

/-- The result of a task when `E` has the results of the tasks that were submitted. -/
def Means : Work R → (Nat → Option R) → R → Prop
  | .done r', _, r => r' = r
  | .submit child rest, E, r =>
    ∃ v, child.Means E v ∧ ∀ h, E h = none → (rest h).Means (Function.update E h (some v)) r
  | .wait h rest, E, r => ∃ v, E h = some v ∧ (rest v).Means E r

def Extends (E E' : Nat → Option R) : Prop := ∀ h v, E h = some v → E' h = some v

theorem Extends.update (h : Extends E E') (i : Nat) (v : R) :
    Extends (Function.update E i (some v)) (Function.update E' i (some v)) := by
  intro i' v' hi
  by_cases heq : i' = i
  · subst heq
    simpa using hi
  · rw [Function.update_of_ne heq] at hi ⊢
    exact h i' v' hi

theorem extends_update {i : Nat} (v : R) (hi : E i = none) :
    Extends E (Function.update E i (some v)) := by
  intro i' v' hi'
  by_cases heq : i' = i
  · subst heq
    rw [hi] at hi'
    cases hi'
  · rwa [Function.update_of_ne heq]

theorem Means.mono {t : Work R} {r : R} (ht : t.Means E r) (h : Extends E E') : t.Means E' r := by
  induction t generalizing E E' r with
  | done r' => exact ht
  | submit child rest ihchild ihrest =>
    obtain ⟨v, hchild, hrest⟩ := ht
    refine ⟨v, ihchild hchild h, fun i hi => ihrest i (hrest i ?_) (h.update i v)⟩
    cases hold : E i with
    | none => rfl
    | some v' => exact nomatch (h i v' hold).symm.trans hi
  | wait i rest ih =>
    obtain ⟨v, hv, hrest⟩ := ht
    exact ⟨v, h i v hv, ih v hrest h⟩

end Work

/-! ## §5 Safety -/

namespace Pool

variable {w : Nat} [NeZero w] {R : Type} [Inhabited R] {s s' : Pool w R} {E : Nat → Option R}

/-- Some thread runs the task, or it is in a queue. -/
def Holds (s : Pool w R) (p : Nat × Work R) : Prop :=
  (∃ x, s.threads x = some p) ∨ ∃ j, p ∈ s.queues j

/-- The task will put its result into its box. -/
structure Fine (E : Nat → Option R) (p : Nat × Work R) : Prop where
  uniform : p.2.Uniform
  above : p.2.Above (p.1 + 1)
  means : ∃ r, E p.1 = some r ∧ p.2.Means E r

structure Sound (s : Pool w R) (E : Nat → Option R) : Prop where
  caller : s.result = none → ∃ t, s.threads none = some (0, t)
  boxed : ∀ i, E i = none ↔ s.boxes.length ≤ i
  filled : ∀ i r, s.boxes[i]? = some (some r) → E i = some r
  opened : ∀ i, s.boxes[i]? = some none → ∃ t, s.Holds (i, t)
  tasks : ∀ p, s.Holds p → Fine E p

omit [NeZero w] in
theorem Fine.mono {E' : Nat → Option R} {p : Nat × Work R} (h : Fine E p)
    (hext : Work.Extends E E') : Fine E' p := by
  obtain ⟨r, hbox, hmeans⟩ := h.means
  exact ⟨h.uniform, h.above, r, hext _ _ hbox, hmeans.mono hext⟩

section

omit [NeZero w] [Inhabited R]

variable {x : Option (Fin w)} {p p' : Nat × Work R}

theorem holds_thread {s' : Pool w R} {t : Option (Nat × Work R)} (h : s'.Holds p)
    (hqueues : s'.queues = s.queues) (hthreads : s'.threads = Function.update s.threads x t) :
    t = some p ∨ s.Holds p := by
  rcases h with ⟨y, hy⟩ | ⟨j, hj⟩
  · rw [hthreads] at hy
    by_cases heq : y = x
    · subst heq
      exact .inl (by simpa using hy)
    · rw [Function.update_of_ne heq] at hy
      exact .inr (.inl ⟨y, hy⟩)
  · exact .inr (.inr ⟨j, hqueues ▸ hj⟩)

/-- The tasks of the other threads stay. -/
theorem opened_others {s' : Pool w R} {i : Nat} {t' : Option (Nat × Work R)}
    (h : ∃ t, s.Holds (i, t)) (hqueues : ∀ j, ∀ q ∈ s.queues j, q ∈ s'.queues j)
    (hthreads : s'.threads = Function.update s.threads x t')
    (hself : ∀ t, s.threads x = some (i, t) → ∃ t'', t' = some (i, t'')) :
    ∃ t, s'.Holds (i, t) := by
  obtain ⟨t, ⟨y, hy⟩ | ⟨j, hj⟩⟩ := h
  · by_cases heq : y = x
    · obtain ⟨t'', ht''⟩ := hself t (heq ▸ hy)
      exact ⟨t'', .inl ⟨x, by rw [hthreads, Function.update_self, ht'']⟩⟩
    · exact ⟨t, .inl ⟨y, by rw [hthreads, Function.update_of_ne heq, hy]⟩⟩
  · exact ⟨t, .inr ⟨j, hqueues j _ hj⟩⟩

end

omit [NeZero w] [Inhabited R] in
theorem mem_queues_submit {child : Work R} {j₀ j : Fin w} {p : Nat × Work R} :
    p ∈ (s.submitTo j₀ child).queues j ↔
      p ∈ s.queues j ∨ (j = j₀ ∧ p = (s.boxes.length, child)) := by
  simp only [submitTo]
  by_cases hj : j = j₀
  · subst hj
    simp
  · rw [Function.update_of_ne hj]
    exact ⟨.inl, fun h => h.resolve_right fun h' => hj h'.1⟩

omit [NeZero w] in
theorem Sound.lt (h : Sound s E) {p : Nat × Work R} (hp : s.Holds p) : p.1 < s.boxes.length := by
  obtain ⟨r, hbox, -⟩ := (h.tasks p hp).means
  by_contra hge
  rw [(h.boxed p.1).mpr (by simpa using hge)] at hbox
  cases hbox

omit [NeZero w] [Inhabited R] in
/-- The caller goes on with its own task. -/
theorem caller_update {threads : Option (Fin w) → Option (Nat × Work R)} {x : Option (Fin w)}
    {i : Nat} {t t' : Work R} (h : ∃ t, threads none = some (0, t)) (hx : threads x = some (i, t)) :
    ∃ t, Function.update threads x (some (i, t')) none = some (0, t) := by
  obtain ⟨t₀, ht₀⟩ := h
  by_cases hnone : none = x
  · subst hnone
    obtain ⟨rfl, -⟩ := Prod.mk.inj (Option.some.inj (ht₀.symm.trans hx))
    exact ⟨t', Function.update_self ..⟩
  · exact ⟨t₀, by rw [Function.update_of_ne hnone, ht₀]⟩

omit [NeZero w] in
theorem Sound.finish (h : Sound s E) {x : Option (Fin w)} {i : Nat} {r : R}
    (hx : s.threads x = some (i, .done r)) :
    Sound { s with boxes := s.boxes.set i (some r), threads := Function.update s.threads x none }
    E := by
  have hown : E i = some r := by
    obtain ⟨r', hbox, rfl⟩ := (h.tasks _ (.inl ⟨x, hx⟩)).means
    exact hbox
  have hlt := h.lt (.inl ⟨x, hx⟩)
  refine ⟨fun hopen => ?_, fun i' => by simpa using h.boxed i', fun i' r' hi' => ?_,
    fun i' hi' => ?_, fun p hp => ?_⟩
  · simp only [result, List.getElem?_set] at hopen
    split at hopen
    case isTrue => simp at hopen
    case isFalse hne =>
      obtain ⟨t, ht⟩ := h.caller hopen
      refine ⟨t, ?_⟩
      have hother : none ≠ x := by
        rintro rfl
        exact hne (Prod.mk.inj (Option.some.inj (hx.symm.trans ht))).1
      simp only [Function.update_of_ne hother, ht]
  · simp only [List.getElem?_set] at hi'
    split at hi'
    case isTrue heq => simpa [← heq, hown] using hi'
    case isFalse => exact h.filled i' r' hi'
  · simp only [List.getElem?_set] at hi'
    split at hi'
    case isTrue => cases hi'
    case isFalse hne =>
      refine opened_others (h.opened i' hi') (fun j q hq => hq) rfl fun t ht => ?_
      exact absurd (Prod.mk.inj (Option.some.inj (hx.symm.trans ht))).1 hne
  · rcases holds_thread (s := s) hp rfl rfl with hnone | hold
    · cases hnone
    · exact h.tasks p hold

omit [NeZero w] in
theorem Sound.submit (h : Sound s E) {x : Option (Fin w)} {i : Nat} {child : Work R}
    {rest : Nat → Work R} (j₀ : Fin w) (hx : s.threads x = some (i, .submit child rest)) :
    ∃ E', Work.Extends E E' ∧ Sound { s.submitTo j₀ child with
      threads := Function.update s.threads x (some (i, rest s.boxes.length)) } E' := by
  have hfine := h.tasks _ (.inl ⟨x, hx⟩)
  obtain ⟨r, hbox, v, hchild, hrest⟩ := hfine.means
  have hnew : E s.boxes.length = none := (h.boxed _).mpr le_rfl
  have hext := Work.extends_update v hnew
  have hlt := h.lt (.inl ⟨x, hx⟩)
  refine ⟨_, hext, fun hopen => ?_, fun i' => ?_, fun i' r' hi' => ?_, fun i' hi' => ?_,
    fun p hp => ?_⟩
  · have hzero : 0 < s.boxes.length := Nat.zero_lt_of_lt hlt
    have hbefore : s.result = none := by simpa [result, Pool.submitTo, hzero] using hopen
    exact caller_update (h.caller hbefore) hx
  · have hold := h.boxed i'
    simp only [Pool.submitTo, List.length_append, List.length_singleton]
    by_cases heq : i' = s.boxes.length
    · simp [heq]
    · rw [Function.update_of_ne heq, hold]
      omega
  · refine hext i' r' (h.filled i' r' ?_)
    simp only [Pool.submitTo, List.getElem?_append, List.getElem?_singleton] at hi'
    split at hi'
    case isTrue => exact hi'
    case isFalse => split at hi' <;> cases hi'
  · by_cases heq : i' = s.boxes.length
    · exact ⟨child, .inr ⟨j₀, mem_queues_submit.mpr (.inr ⟨rfl, by rw [heq]⟩)⟩⟩
    · simp only [Pool.submitTo, List.getElem?_append, List.getElem?_singleton] at hi'
      split at hi'
      case isTrue =>
        refine opened_others (h.opened i' hi') (fun j q hq => mem_queues_submit.mpr (.inl hq)) rfl
          fun t ht => ?_
        obtain ⟨rfl, -⟩ := Prod.mk.inj (Option.some.inj (hx.symm.trans ht))
        exact ⟨_, rfl⟩
      case isFalse =>
        split at hi'
        · omega
        · cases hi'
  · rcases holds_thread (s := s.submitTo j₀ child) hp rfl rfl with hself | hold
    · obtain rfl := Option.some.inj hself
      exact ⟨(hfine.uniform.2 _).1, hfine.above.2 _ hlt, r, hext _ _ hbox, hrest _ hnew⟩
    · rcases hold with ⟨y, hy⟩ | ⟨j, hj⟩
      · exact (h.tasks p (.inl ⟨y, hy⟩)).mono hext
      · rcases mem_queues_submit.mp hj with hj | ⟨-, rfl⟩
        · exact (h.tasks p (.inr ⟨j, hj⟩)).mono hext
        · exact ⟨hfine.uniform.1, hfine.above.1 _, v, Function.update_self .., hchild.mono hext⟩

omit [NeZero w] in
theorem Sound.resume (h : Sound s E) {x : Option (Fin w)} {i handle : Nat} {rest : R → Work R}
    {r : R} (hx : s.threads x = some (i, .wait handle rest))
    (hbox : s.boxes[handle]? = some (some r)) :
    Sound { s with threads := Function.update s.threads x (some (i, rest r)) } E := by
  have hfine := h.tasks _ (.inl ⟨x, hx⟩)
  refine ⟨fun hopen => caller_update (h.caller hopen) hx, h.boxed, h.filled, fun i' hi' => ?_,
    fun p hp => ?_⟩
  · refine opened_others (h.opened i' hi') (fun j q hq => hq) rfl fun t ht => ?_
    obtain ⟨rfl, -⟩ := Prod.mk.inj (Option.some.inj (hx.symm.trans ht))
    exact ⟨_, rfl⟩
  · rcases holds_thread (s := s) hp rfl rfl with hself | hold
    · obtain rfl := Option.some.inj hself
      obtain ⟨r', hown, v, hv, hmeans⟩ := hfine.means
      obtain rfl : v = r := Option.some.inj (hv.symm.trans (h.filled _ _ hbox))
      exact ⟨(hfine.uniform v).1, hfine.above.2 v, r', hown, hmeans⟩
    · exact h.tasks p hold

omit [NeZero w] in
theorem Sound.take (h : Sound s E) {k j : Fin w} {work : Nat × Work R}
    {others : List (Nat × Work R)} (hk : s.threads (some k) = none)
    (hqueue : (s.queues j).Perm (work :: others)) :
    Sound { s with
      queues := Function.update s.queues j others
      threads := Function.update s.threads (some k) (some work) } E := by
  have hmem (q : Nat × Work R) : q ∈ s.queues j ↔ q = work ∨ q ∈ others :=
    hqueue.mem_iff.trans List.mem_cons
  refine ⟨fun hopen => ?_, h.boxed, h.filled, fun i hi => ?_, fun p hp => ?_⟩
  · obtain ⟨t, ht⟩ := h.caller hopen
    exact ⟨t, by simp [ht]⟩
  · obtain ⟨t, ⟨x, hx⟩ | ⟨j', hj'⟩⟩ := h.opened i hi
    · refine ⟨t, .inl ⟨x, ?_⟩⟩
      have hne : x ≠ some k := by
        rintro rfl
        rw [hk] at hx
        cases hx
      simp only [Function.update_of_ne hne, hx]
    · by_cases heq : j' = j
      · subst heq
        rcases (hmem _).mp hj' with rfl | hrest
        · exact ⟨t, .inl ⟨some k, Function.update_self ..⟩⟩
        · exact ⟨t, .inr ⟨j', by simpa using hrest⟩⟩
      · exact ⟨t, .inr ⟨j', by simpa [Function.update_of_ne heq] using hj'⟩⟩
  · refine h.tasks p ?_
    rcases hp with ⟨x, hx⟩ | ⟨j', hj'⟩
    · by_cases heq : x = some k
      · subst heq
        obtain rfl : work = p := by simpa using hx
        exact .inr ⟨j, (hmem _).mpr (.inl rfl)⟩
      · exact .inl ⟨x, by simpa [Function.update_of_ne heq] using hx⟩
    · by_cases heq : j' = j
      · subst heq
        exact .inr ⟨j', (hmem _).mpr (.inr (by simpa using hj'))⟩
      · exact .inr ⟨j', by simpa [Function.update_of_ne heq] using hj'⟩

omit [NeZero w] in
theorem Sound.move
    (h : Sound s E) (hmove : Moves s s') : ∃ E', Work.Extends E E' ∧ Sound s' E' := by
  cases hmove with
  | finish hx => exact ⟨E, fun _ _ hi => hi, h.finish hx⟩
  | submit j hx => exact h.submit j hx
  | resume hx hbox => exact ⟨E, fun _ _ hi => hi, h.resume hx hbox⟩
  | take hk hqueue => exact ⟨E, fun _ _ hi => hi, h.take hk hqueue⟩

omit [NeZero w] in
theorem Sound.uniform (h : Sound s E) (x : Option (Fin w)) (p : Nat × Work R)
    (hx : s.threads x = some p) :
    p.2.Uniform :=
  (h.tasks p (.inl ⟨x, hx⟩)).uniform

omit [NeZero w] in
theorem sound_start {main : Work R} {r : R} (hmeans : main.Means (fun _ => none) r)
    (huniform : main.Uniform) (habove : main.Above 1) (turn : Nat) :
    Sound (start w main turn) (Function.update (fun _ => none) 0 (some r)) where
  caller _ := ⟨main, rfl⟩
  boxed i := by
    by_cases hi : i = 0
    · simp [hi, start]
    · simp [Function.update_of_ne hi, start, Nat.one_le_iff_ne_zero.mpr hi]
  filled i r' hi := by simp [start, List.getElem?_singleton] at hi
  opened i hi := by
    obtain rfl : i = 0 := by
      simp only [start, List.getElem?_singleton] at hi
      split at hi
      · assumption
      · cases hi
    exact ⟨main, .inl ⟨none, rfl⟩⟩
  tasks p hp := by
    rcases hp with ⟨x, hx⟩ | ⟨j, hj⟩
    · cases x with
      | none =>
        obtain rfl := Option.some.inj hx
        exact ⟨huniform, habove, r, Function.update_self ..,
          hmeans.mono (Work.extends_update r rfl)⟩
      | some k => cases hx
    · cases hj

/-! ## §6 Stuck -/

omit [NeZero w] [Inhabited R] in
theorem taken_isSome {k j : Fin w} (hj : s.queues j ≠ []) : ∃ found, s.taken k j = some found := by
  unfold taken
  split
  · exact ⟨_, rfl⟩
  · split
    case h_1 hempty => exact absurd hempty hj
    case h_2 => exact ⟨_, rfl⟩

/-- While nothing can be done, the threads wait for boxes that are open. -/
theorem Sound.waits
    (h : Sound s E) (hstuck : ∀ a, s.step a = none) {x : Option (Fin w)} {i : Nat} {t : Work R}
    (hx : s.threads x = some (i, t)) : t.load = 1 ∧ ∃ j, i < j ∧ s.boxes[j]? = some none := by
  have hfine := h.tasks _ (.inl ⟨x, hx⟩)
  have hgo := hstuck (.go x)
  obtain ⟨r, -, hmeans⟩ := hfine.means
  cases t with
  | done r' => simp [step, hx] at hgo
  | submit child rest => simp [step, hx] at hgo
  | wait j rest =>
    obtain ⟨v, hv, -⟩ := hmeans
    have hj : j < s.boxes.length := by
      by_contra hge
      rw [(h.boxed j).mpr (by simpa using hge)] at hv
      cases hv
    refine ⟨rfl, j, hfine.above.1, ?_⟩
    cases hbox : s.boxes[j]? with
    | none => exact absurd (List.getElem?_eq_none_iff.mp hbox) (by omega)
    | some box =>
      cases box with
      | none => rfl
      | some r' => simp [step, hx, hbox] at hgo

/-- With a worker that has nothing to do, the newest open box would be filled next. -/
theorem Sound.exists_step (h : Sound s E) (hopen : s.result = none) (hbox : E 0 ≠ none)
    (hwaiting : s.waiting ≤ w) : ∃ a s', s.step a = some s' := by
  by_contra hnone
  have hstuck (a : Act w) : s.step a = none := by
    cases hstep : s.step a with
    | none => rfl
    | some s' => exact absurd ⟨a, s', hstep⟩ hnone
  obtain ⟨main, hmain⟩ := h.caller hopen
  have hidle : ∃ k, s.threads (some k) = none := by
    by_contra hbusy
    have hload (x : Option (Fin w)) : 1 ≤ weight (fun t => t.forks + t.load) (s.threads x) := by
      cases hx : s.threads x with
      | none =>
        cases x with
        | none => exact nomatch hmain.symm.trans hx
        | some k => exact absurd ⟨k, hx⟩ hbusy
      | some p =>
        have hone := (h.waits hstuck hx).1
        simp only [weight_some]
        omega
    have hsum := Finset.sum_le_sum fun x (_ : x ∈ Finset.univ) => hload x
    simp only [Finset.sum_const, Finset.card_univ, Fintype.card_option, Fintype.card_fin,
      smul_eq_mul, mul_one] at hsum
    simp only [waiting, weigh] at hwaiting
    omega
  obtain ⟨k, hk⟩ := hidle
  have hfilled (n : Nat) : ∀ i, s.boxes.length ≤ i + n → s.boxes[i]? ≠ some none := by
    induction n with
    | zero =>
      intro i hi hbox
      rw [List.getElem?_eq_none (by omega)] at hbox
      cases hbox
    | succ n ih =>
      intro i hi hbox
      obtain ⟨t, ⟨x, hx⟩ | ⟨j, hj⟩⟩ := h.opened i hbox
      · obtain ⟨-, j, hlt, hj⟩ := h.waits hstuck hx
        exact ih j (by omega) hj
      · obtain ⟨found, hfound⟩ := taken_isSome (k := k) (List.ne_nil_of_mem hj)
        have htake := hstuck (.take k j)
        simp [step, hk, hfound] at htake
  refine hfilled s.boxes.length 0 (by omega) ?_
  have hlt : 0 < s.boxes.length := by
    by_contra hge
    exact hbox ((h.boxed 0).mpr (by omega))
  cases hzero : s.boxes[0]? with
  | none => exact absurd (List.getElem?_eq_none_iff.mp hzero) (by omega)
  | some box =>
    simp only [result, hzero, Option.join_some] at hopen
    rw [hopen]

/-! ## §7 Stalls -/

/-- No box is filled, and the threads begin by submitting their tasks. -/
structure Forking (s : Pool w R) : Prop where
  caller : s.threads none ≠ none
  boxes : ∀ (i : Nat) (r : R), s.boxes[i]? ≠ some (some r)
  tasks : ∀ x i t, s.threads x = some (i, t) → t.Uniform ∧ t.ForksFirst

def Busy (s : Pool w R) : Prop := ∀ k, s.threads (some k) ≠ none

theorem Forking.submit
    (h : Forking s) {x : Option (Fin w)} {i : Nat} {child : Work R} {rest : Nat → Work R}
    (hx : s.threads x = some (i, .submit child rest)) :
    Forking { s.submit child with
      threads := Function.update s.threads x (some (i, rest s.boxes.length)) } where
  caller hnone := by
    by_cases heq : none = x
    · subst heq
      simp at hnone
    · exact h.caller (by simpa [Function.update_of_ne heq] using hnone)
  boxes i r hi := by
    simp only [Pool.submitTo, List.getElem?_append, List.getElem?_singleton] at hi
    split at hi
    case isTrue => exact h.boxes i r hi
    case isFalse => split at hi <;> cases hi
  tasks y i' t hy := by
    by_cases heq : y = x
    · subst heq
      obtain ⟨rfl, rfl⟩ : i = i' ∧ rest s.boxes.length = t := by simpa using hy
      obtain ⟨huniform, hfirst⟩ := h.tasks y i _ hx
      exact ⟨(huniform.2 _).1, (hfirst.2 _).1⟩
    · exact h.tasks y i' t (by simpa [Function.update_of_ne heq] using hy)

/-- With all workers busy, the threads go on until all wait. -/
theorem Forking.stalls (h : Forking s) (hbusy : Busy s) :
    ∃ run, IsRun (fun s a s' => s.step a = some s') s run ∧ (∀ a, (final s run).step a = none) ∧
      (final s run).result = none ∧ Busy (final s run) := by
  induction hn : s.cost using Nat.strong_induction_on generalizing s with
  | _ n ih => ?_
  by_cases hsubmit : ∃ x i child rest, s.threads x = some (i, .submit child rest)
  · obtain ⟨x, i, child, rest, hx⟩ := hsubmit
    let s' : Pool w R :=
      { s.submit child with threads := Function.update s.threads x (some (i, rest s.boxes.length)) }
    have hstep : s.step (.go x) = some s' := by simp [step, hx, s']
    have hcost := cost_move (moves_of_step hstep) fun y p hy => (h.tasks y p.1 p.2 hy).1
    have hbusy' : Busy s' := by
      intro k hk
      by_cases heq : some k = x
      · subst heq
        simp [s'] at hk
      · exact hbusy k (by simpa [s', Function.update_of_ne heq] using hk)
    obtain ⟨run, hrun, hend⟩ := ih s'.cost (by omega) (h.submit hx) hbusy' rfl
    exact ⟨(.go x, s') :: run, ⟨hstep, hrun⟩, hend⟩
  · refine ⟨[], trivial, fun a => ?_, ?_, hbusy⟩
    · cases a with
      | go x =>
        simp only [final, step]
        split
        case h_1 => rfl
        case h_2 hx => exact (h.tasks x _ _ hx).2.elim
        case h_3 hx => exact absurd ⟨x, _, _, _, hx⟩ hsubmit
        case h_4 i j rest hx =>
          cases hbox : s.boxes[j]? with
          | none => rfl
          | some box =>
            cases box with
            | none => rfl
            | some r => exact absurd hbox (h.boxes j r)
      | take k victim =>
        simp only [final, step]
        split
        case h_1 hk _ => exact absurd hk (hbusy k)
        case h_2 => rfl
    · cases hbox : s.boxes[0]? with
      | none => simp [final, result, hbox]
      | some box =>
        cases box with
        | none => simp [final, result, hbox]
        | some r => exact absurd hbox (h.boxes 0 r)

/-- The worker takes what the thread has submitted. -/
def spread (s : Pool w R) (x : Option (Fin w)) (i : Nat) (child : Work R) (rest : Nat → Work R)
    (k : Fin w) :
    Pool w R :=
  let s' : Pool w R :=
    { s.submit child with threads := Function.update s.threads x (some (i, rest s.boxes.length)) }
  { s' with
    queues := Function.update s'.queues (s.next) []
    threads := Function.update s'.threads (some k) (some (s.boxes.length, child)) }

section

variable {x : Option (Fin w)} {i : Nat} {child : Work R} {rest : Nat → Work R} {k : Fin w}

omit [Inhabited R] in
theorem step_spread (hempty : ∀ j, s.queues j = [])
    (hx : s.threads x = some (i, .submit child rest)) (hk : s.threads (some k) = none) :
    ∃ s', s.step (.go x) =
    some s' ∧ s'.step (.take k (s.next)) = some (s.spread x i child rest k) := by
  refine ⟨_, by simp only [step, hx]; rfl, ?_⟩
  have hne : some k ≠ x := by
    rintro rfl
    rw [hk] at hx
    cases hx
  by_cases hown : k = s.next
  · subst hown
    simp [step, taken, spread, submitTo, Function.update_of_ne hne, hk, hempty]
  · simp [step, taken, spread,
      submitTo, Function.update_of_ne hne, Function.update_of_ne hown, hk, hempty]

theorem Forking.spread (h : Forking s) (hempty : ∀ j, s.queues j = [])
    (hx : s.threads x = some (i, .submit child rest)) (hk : s.threads (some k)
      = none) (hchild : child.load ≠ 0) :
    Forking (s.spread x i child rest k) ∧ (∀ j, (s.spread x i child rest k).queues j = []) ∧
      (s.spread x i child rest k).waiting = s.waiting := by
  have hafter := h.submit hx
  obtain ⟨huniform, hfirst⟩ := h.tasks x i _ hx
  have hne : some k ≠ x := by
    rintro rfl
    rw [hk] at hx
    cases hx
  refine ⟨⟨?_, hafter.boxes, fun y i' t hy => ?_⟩, fun j => ?_, ?_⟩
  · simpa [Pool.spread] using hafter.caller
  · by_cases heq : y = some k
    · subst heq
      obtain ⟨-, rfl⟩ : s.boxes.length = i' ∧ child = t := by simpa [Pool.spread] using hy
      exact ⟨huniform.1, hfirst.1.resolve_left hchild⟩
    · exact hafter.tasks y i' t (by simpa [Pool.spread, Function.update_of_ne heq] using hy)
  · by_cases heq : j = s.next
    · subst heq
      exact Function.update_self ..
    · simp only [Pool.spread, Pool.submitTo, Function.update_of_ne heq, hempty]
  · have hsubmit := waiting_submit s.next hx huniform
    have hload : (rest s.boxes.length).load = 1 := by
      have hrest := (hfirst.2 s.boxes.length).1
      cases heq : rest s.boxes.length with
      | done r =>
        rw [heq] at hrest
        exact hrest.elim
      | submit child' rest' => rfl
      | wait h' rest' => rfl
    have htake := @waiting_take w R _
      { s.submit child with threads := Function.update s.threads x (some (i, rest s.boxes.length)) }
      k s.next (s.boxes.length, child) [] (by simp [Function.update_of_ne hne, hk])
      (by simp [Pool.submitTo, hempty])
    rw [hload] at hsubmit
    exact htake.trans (Nat.add_right_cancel hsubmit)

end

/-- While a worker is idle, some thread has a task to submit that it can take. -/
theorem Forking.exists_busy (h : Forking s) (hempty : ∀ j, s.queues j = [])
    (hwaiting : w < s.waiting) :
    ∃ run, IsRun (fun s a s' => s.step a = some s') s run ∧ Forking (final s run) ∧
    Busy (final s run) := by
  induction hn : s.cost using Nat.strong_induction_on generalizing s with
  | _ n ih => ?_
  by_cases hbusy : Busy s
  · exact ⟨[], trivial, h, hbusy⟩
  · obtain ⟨k, hk⟩ : ∃ k, s.threads (some k) = none := by simpa [Busy] using hbusy
    obtain ⟨x, i, child, rest, hx, hchild⟩ : ∃ x i child rest,
        s.threads x = some (i, .submit child rest) ∧ child.load ≠ 0 := by
      by_contra hnone
      have hone (x : Option (Fin w)) : weight (fun t => t.forks + t.load) (s.threads x) ≤ 1 := by
        cases hx : s.threads x with
        | none => simp
        | some p =>
          obtain ⟨i, t⟩ := p
          have hfirst := (h.tasks x i t hx).2
          cases t with
          | done r => exact hfirst.elim
          | submit child rest =>
            have hload : child.load = 0 := by
              by_contra hchild
              exact hnone ⟨x, i, child, rest, hx, hchild⟩
            have hrest := (hfirst.2 0).2 hload
            cases child with
            | done r => simp [Work.forks, hrest]
            | submit child' rest' => cases hload
            | wait h' rest' => cases hload
          | wait j rest =>
            have hforks : (rest default).forks = 0 := hfirst
            simp [Work.forks, hforks]
      have hlt : ∑ x, weight (fun t => t.forks + t.load) (s.threads x) < ∑ _x : Option (Fin w), 1 :=
        Finset.sum_lt_sum (fun x _ => hone x) ⟨some k, Finset.mem_univ _, by simp [hk]⟩
      simp only [Finset.sum_const, Finset.card_univ, Fintype.card_option,
        Fintype.card_fin, smul_eq_mul,
        mul_one] at hlt
      simp only [waiting, weigh, hempty, load, List.map_nil, List.sum_nil, Finset.sum_const_zero,
        add_zero] at hwaiting
      omega
    obtain ⟨s', hgo, htake⟩ := step_spread hempty hx hk
    obtain ⟨hforking, hempty', hsame⟩ := h.spread hempty hx hk hchild
    have hcost := cost_move (moves_of_step hgo) fun y p hy => (h.tasks y p.1 p.2 hy).1
    have hless (s'' : Pool w R) (htake : s'.step (.take k s.next) = some s'') : s''.cost < n := by
      have hs' : Forking s' := by
        obtain rfl : s' = _ := by simpa [step, hx] using hgo.symm
        exact h.submit hx
      have hcost' := cost_move (moves_of_step htake) fun y p hy => (hs'.tasks y p.1 p.2 hy).1
      omega
    obtain ⟨run, hrun, hfinal⟩ := ih _ (hless _ htake) hforking hempty' (hsame ▸ hwaiting) rfl
    exact ⟨(.go x, s') :: (_, _) :: run, ⟨hgo, htake, hrun⟩, hfinal⟩

/-- The threads can come to wait for ever, all workers among them, when as many tasks wait as there
are workers. -/
theorem exists_stall {main : Work R} (huniform : main.Uniform) (hfirst : main.ForksFirst)
    (turn : Nat) (hforks : w ≤ main.forks) :
    ∃ run, IsRun (fun s a s' => s.step a = some s') (start w main turn) run ∧
      (∀ a, (final (start w main turn) run).step a = none) ∧
      (final (start w main turn) run).result = none ∧ Busy (final (start w main turn) run) := by
  have hforking : Forking (start w main turn) := by
    refine ⟨by simp [start], fun i r' hi => ?_, fun x i t hx => ?_⟩
    · simp [start, List.getElem?_singleton] at hi
    · cases x with
      | none =>
        obtain ⟨-, rfl⟩ := Prod.mk.inj (Option.some.inj hx)
        exact ⟨huniform, hfirst⟩
      | some k => cases hx
  have hload : main.load = 1 := by
    cases main with
    | done r' => exact hfirst.elim
    | submit child rest => rfl
    | wait j rest => rfl
  have hwaiting : w < (start w main turn).waiting := by
    simp only [waiting, weigh_start]
    omega
  obtain ⟨run, hrun, hfork, hbusy⟩ := hforking.exists_busy (fun _ => rfl) hwaiting
  obtain ⟨run', hrun', hend⟩ := hfork.stalls hbusy
  rw [← final_append] at hend
  exact ⟨run ++ run', isRun_append.mpr ⟨hrun, hrun'⟩, hend⟩

end Pool

end Fol.Lib.ForkJoin
