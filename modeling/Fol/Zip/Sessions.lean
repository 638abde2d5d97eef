/-
Fol.Zip.Sessions — a zipper and the same operations on the tree, side by side.

Every operation that leaves the flags as they must be gives the tree of `Op.direct`. The two ways in
which `root` loses it: `remove` of a first child whose parent's level has no flag, and `next` from
the last node, after which `root` signals an error.
-/
import Fol.Lib.Runs
import Fol.Zip.Edits

namespace Fol.Zip

open Fol.Lib

variable {T : Type}

/-! ## §1 Operations -/

/-- `remove` of a first child finds the flag of the level above set, or it leaves the children that
the node above had. -/
def KeepsFlags (z : Trees T) : Op T → Loc T → Prop
  | .remove _, .at _ (.level [] pnodes ppath r _) =>
    ppath.flagged = true ∨ pnodes.getLast?.map z.children = some r
  | _, _ => True

/-- The location keeps the flags and stands for this cursor. -/
def Shows (z : Trees T) (loc : Loc T) (c : Option (Cursor T)) : Prop :=
  loc.Good z ∧ c = some (loc.cursor z)

section

variable {z : Trees T} {p ppath : Path T} {l r pnodes : List T} {n pnode : T} {changed : Bool}
    {loc : Loc T}

theorem Leads.shows {t : T} {q : List Nat} {c : Option (Cursor T)} (hlead : Leads z t q loc)
    (hc : c = some ⟨t, some q⟩) : Shows z loc c := by
  refine ⟨hlead.good, ?_⟩
  rw [hlead.cursor, hc]

theorem up_shows (h : z.Lawful) (hp : Good z (.level l pnodes ppath r changed) n)
    (hstep : up z (.at n (.level l pnodes ppath r changed)) = some loc) :
    Shows z loc (some ⟨plug z (.level l pnodes ppath r changed) n, some (pos ppath)⟩) := by
  obtain ⟨n', p', hup, hgood, hplug, hpos, -⟩ := up_good h hp
  obtain rfl := Option.some.inj (hup.symm.trans hstep)
  refine ⟨hgood, ?_⟩
  simp [Loc.cursor, hplug, hpos]

theorem prev_shows (h : z.Lawful) (hp : Good z p n) {fuel : Nat}
    (hstep : prev z fuel (.at n p) = some loc) :
    Shows z loc (Op.directAt z (plug z p n) (pos p) (.prev fuel)) := by
  cases p with
  | nil => cases hstep
  | level l pnodes ppath r changed =>
    cases l with
    | nil => exact up_shows h hp hstep
    | cons x l =>
      have hlead := sibling_leads l x (n :: r) hp (by simp)
      obtain ⟨q, hlead', hlast⟩ := descend_leads h hlead hstep
      exact hlead'.shows (by simp [Op.directAt, pos, hlast])

theorem remove_shows (h : z.Lawful) (hp : Good z p n) {fuel : Nat}
    (hflags : KeepsFlags z (.remove fuel) (.at n p)) (hstep : remove z fuel (.at n p) = some loc) :
    Shows z loc (Op.directAt z (plug z p n) (pos p) (.remove fuel)) := by
  cases p with
  | nil => cases hstep
  | level l pnodes ppath r changed =>
    cases l with
    | nil =>
      obtain ⟨pnode, hpnode, rfl⟩ := Option.map_eq_some_iff.mp hstep
      have hmodify := removeFirst_eq h hp hpnode
      refine ⟨?_, by simp [Loc.cursor, Op.directAt, removeAt, pos, hmodify]⟩
      obtain ⟨pnode', hpnode', hbranch, -, hgood⟩ := hp
      obtain rfl : pnode' = pnode := Option.some.inj (hpnode'.symm.trans hpnode)
      rcases hflags with hflag | hsame
      · exact hgood.reflag hflag _
      · rw [hpnode, Option.map_some, Option.some.injEq] at hsame
        rw [← hsame, h.make_children pnode' hbranch]
        exact hgood
    | cons x l =>
      obtain ⟨hgood, hmodify⟩ :=
        siblings_eq h l x r (fun cs => some (cs.eraseIdx (l.length + 1))) hp (by simp)
      have hlead : Leads z _ (l.length :: pos ppath) (.at x (.level l pnodes ppath r true)) :=
        ⟨hgood, rfl⟩
      obtain ⟨q, hlead', hlast⟩ := descend_leads h hlead hstep
      exact hlead'.shows (by simp [Op.directAt, removeAt, pos, hmodify, hlast])

/-- The edits of the node at the location. -/
theorem replace_shows (h : z.Lawful) (hp : Good z p n) {f : T → Option T} {m : T}
    (hf : f n = some m) :
    Shows z (.at m p.flag) ((z.modify (plug z p n) (pos p) f).map fun t => ⟨t, some (pos p)⟩) := by
  refine ⟨hp.flag m, ?_⟩
  simp [Loc.cursor, modify_plug h hp.rooted, hf]

theorem withChildren_shows (h : z.Lawful) (hp : Good z p n) {f : List T → List T}
    (hstep : withChildren z f (.at n p) = some loc) :
    Shows z loc ((z.modify (plug z p n) (pos p) (z.onChildren fun cs => some (f cs))).map
      fun t => ⟨t, some (pos p)⟩) := by
  obtain ⟨hbranch, rfl⟩ := withChildren_some hstep
  exact replace_shows h hp (by simp [Trees.onChildren, hbranch])

/-- The edits of the siblings. -/
theorem siblings_shows (h : z.Lawful) (hp : Good z (.level l pnodes ppath r changed) n)
    (l' r' : List T) {f : List T → List T} (hf : f (l.reverse ++ n :: r) = l'.reverse ++ n :: r') :
    Shows z (.at n (.level l' pnodes ppath r' true))
      ((z.modify (plug z (.level l pnodes ppath r changed) n) (pos ppath)
        (z.onChildren fun cs => some (f cs))).map fun t => ⟨t, some (l'.length :: pos ppath)⟩) := by
  obtain ⟨hgood, hmodify⟩ := siblings_eq h l' n r' (fun cs => some (f cs)) hp (congrArg some hf)
  refine ⟨hgood, ?_⟩
  rw [hmodify]
  rfl

/-- The operation gives what it does to the tree at the position. -/
theorem apply_shows (h : z.Lawful) (hp : Good z p n) {op : Op T}
    (hflags : KeepsFlags z op (.at n p)) (hstep : op.apply z (.at n p) = some loc) :
    Shows z loc (op.directAt z (plug z p n) (pos p)) := by
  cases op with
  | down =>
    obtain ⟨hlead, hne⟩ := down_leads h hp hstep
    exact hlead.shows (by simp [Op.directAt, hne])
  | up =>
    cases p with
    | nil => cases hstep
    | level l pnodes ppath r changed => exact up_shows h hp hstep
  | left =>
    cases p with
    | nil => cases hstep
    | level l pnodes ppath r changed =>
      cases l with
      | nil => cases hstep
      | cons x l =>
        cases hstep
        exact (sibling_leads l x (n :: r) hp (by simp)).shows (by simp [Op.directAt, pos])
  | right =>
    cases p with
    | nil => cases hstep
    | level l pnodes ppath r changed =>
      cases r with
      | nil => cases hstep
      | cons x r =>
        cases hstep
        obtain ⟨⟨pnode, hpnode, hbranch⟩, hrooted⟩ := hp.rooted
        have hsiblings := childrenAt_ppath h hpnode hbranch l (x :: r) n changed hrooted
        exact (sibling_leads (n :: l) x r hp (by simp)).shows
          (by simp [Op.directAt, pos, hsiblings])
  | leftmost =>
    obtain ⟨q, hlead, hwhere⟩ := leftmost_leads hp hstep
    rcases hwhere with ⟨hpos, rfl⟩ | ⟨i, q', hpos, rfl⟩
      <;> exact hlead.shows (by simp [Op.directAt, hpos])
  | rightmost =>
    obtain ⟨q, hlead, hwhere⟩ := rightmost_leads h hp hstep
    rcases hwhere with ⟨hpos, rfl⟩ | ⟨i, q', hpos, rfl⟩
      <;> exact hlead.shows (by simp [Op.directAt, hpos])
  | next =>
    obtain ⟨hgood, hcursor⟩ := next_eq h hp hstep
    exact ⟨hgood, by rw [hcursor]; rfl⟩
  | prev fuel => exact prev_shows h hp hstep
  | replace m =>
    cases hstep
    exact replace_shows h hp rfl
  | edit f =>
    cases hstep
    exact replace_shows h hp rfl
  | insertLeft item =>
    cases p with
    | nil => cases hstep
    | level l pnodes ppath r changed =>
      cases hstep
      exact siblings_shows h hp (item :: l) r (by simp)
  | insertRight item =>
    cases p with
    | nil => cases hstep
    | level l pnodes ppath r changed =>
      cases hstep
      exact siblings_shows h hp l (item :: r) (by simp)
  | insertChild item =>
    have hchildren : withChildren z (fun cs => item :: cs) (.at n p) = some loc := hstep
    exact withChildren_shows h hp hchildren
  | appendChild item =>
    have hchildren : withChildren z (fun cs => cs ++ [item]) (.at n p) = some loc := hstep
    exact withChildren_shows h hp hchildren
  | remove fuel => exact remove_shows h hp hflags hstep

/-! ## §2 Conditions -/

/-- Some level of the path has right siblings. -/
def Path.follows : Path T → Bool
  | .nil => false
  | .level _ _ ppath r _ => !r.isEmpty || ppath.follows

/-- `next` does not come to the end. -/
def GoesOn (z : Trees T) : Op T → Loc T → Prop
  | .next, .at n p => (z.branch n = true ∧ z.children n ≠ []) ∨ p.follows = true
  | _, _ => True

theorem after_none (h : z.Lawful) (hrooted : Rooted z p) :
    after z (plug z p n) (pos p) = none ↔ p.follows = false := by
  induction p generalizing n with
  | nil => exact iff_of_true rfl rfl
  | level l pnodes ppath r changed ih =>
    obtain ⟨⟨pnode, hpnode, hbranch⟩, hrooted⟩ := hrooted
    rw [pos, after, childrenAt_ppath h hpnode hbranch _ _ _ _ hrooted, plug_level hpnode]
    cases r with
    | nil => simp [Path.follows, ih hrooted]
    | cons x r => simp [Path.follows]

theorem goesOn_next (h : z.Lawful) (hp : Good z p n) (hstep : next z (.at n p) = some loc) :
    (loc.cursor z).pos = none ↔ ¬ GoesOn z .next (.at n p) := by
  obtain ⟨-, hcursor⟩ := next_eq h hp hstep
  rw [hcursor, GoesOn, childrenAt_pos h hp.rooted, not_or,
    Bool.not_eq_true, ← after_none (n := n) h hp.rooted]
  by_cases hbranch : z.branch n = true
  · by_cases hchildren : z.children n = [] <;> simp [hbranch, hchildren]
  · simp [hbranch]

/-- No operation but `next` comes to the end. -/
theorem directAt_pos {t : T} {q : List Nat} {op : Op T} {c : Cursor T}
    (hdirect : op.directAt z t q = some c) (hend : c.pos = none) : op = .next := by
  cases op with
  | next => rfl
  | down | up | left | right | leftmost | rightmost =>
    simp only [Op.directAt] at hdirect
    grind
  | prev fuel =>
    cases q with
    | nil => cases hdirect
    | cons i q =>
      cases i with
      | zero =>
        cases hdirect
        cases hend
      | succ i =>
        obtain ⟨pos, -, rfl⟩ := Option.map_eq_some_iff.mp hdirect
        cases hend
  | replace m | edit f | insertChild item | appendChild item =>
    obtain ⟨t', -, rfl⟩ := Option.map_eq_some_iff.mp hdirect
    cases hend
  | insertLeft item | insertRight item =>
    cases q with
    | nil => cases hdirect
    | cons i q =>
      obtain ⟨t', -, rfl⟩ := Option.map_eq_some_iff.mp hdirect
      cases hend
  | remove fuel =>
    cases q with
    | nil => cases hdirect
    | cons i q =>
      cases i with
      | zero =>
        obtain ⟨t', -, rfl⟩ := Option.map_eq_some_iff.mp hdirect
        cases hend
      | succ i =>
        obtain ⟨t', -, hlast⟩ := Option.bind_eq_some_iff.mp hdirect
        obtain ⟨pos, -, rfl⟩ := Option.map_eq_some_iff.mp hlast
        cases hend

/-! ## §3 Sessions -/

/-- A location, and the tree with the same operations done to it. -/
structure Session (T : Type) where
  loc : Loc T
  direct : Option (Cursor T)

def Session.start (t : T) : Session T := ⟨zipper t, some ⟨t, some []⟩⟩

def Session.step (z : Trees T) (s : Session T) (op : Op T) : Option (Session T) :=
  (op.apply z s.loc).map fun loc => ⟨loc, s.direct.bind (op.direct z)⟩

/-- `root` gives the edited tree. -/
def Tracks (z : Trees T) (s : Session T) : Prop :=
  ∃ c, s.direct = some c ∧ root z s.loc = some c.tree

def Keeps (z : Trees T) (s : Session T) (op : Op T) : Prop :=
  KeepsFlags z op s.loc ∧ GoesOn z op s.loc

/-- Before the end of a walk, with the flags as they must be. -/
def Going (z : Trees T) (s : Session T) : Prop :=
  ∃ n p, s.loc = .at n p ∧ Good z p n ∧ s.direct = some (s.loc.cursor z)

theorem Shows.tracks (h : z.Lawful) {direct : Option (Cursor T)} (hshows : Shows z loc direct) :
    Tracks z ⟨loc, direct⟩ ↔ (loc.cursor z).pos ≠ none := by
  obtain ⟨hgood, rfl⟩ := hshows
  cases loc with
  | «at» n p => exact iff_of_true ⟨_, rfl, root_eq h hgood⟩ (by simp [Loc.cursor])
  | theEnd n =>
    refine iff_of_false ?_ (by simp [Loc.cursor])
    rintro ⟨c, -, hroot⟩
    cases hroot

theorem Shows.going {direct : Option (Cursor T)} (hshows : Shows z loc direct)
    (hpos : (loc.cursor z).pos ≠ none) : Going z ⟨loc, direct⟩ := by
  obtain ⟨hgood, rfl⟩ := hshows
  cases loc with
  | «at» n p => exact ⟨n, p, rfl, hgood, rfl⟩
  | theEnd n => exact absurd rfl hpos

/-- With the flags kept, an operation ends the walk when it does not go on. -/
theorem goesOn_iff (h : z.Lawful) (hp : Good z p n) {op : Op T} (hflags : KeepsFlags z op (.at n p))
    (hstep : op.apply z (.at n p) = some loc) :
    (loc.cursor z).pos ≠ none ↔ GoesOn z op (.at n p) := by
  obtain ⟨-, hdirect⟩ := apply_shows h hp hflags hstep
  constructor
  · intro hpos
    cases op with
    | next => exact Classical.not_not.mp fun hnot => hpos ((goesOn_next h hp hstep).mpr hnot)
    | _ => trivial
  · intro hgoes hend
    obtain rfl := directAt_pos hdirect hend
    exact (goesOn_next h hp hstep).mp hend hgoes

/-- Without a flag on the level above, `root` does not find the new parent. -/
theorem remove_loses (h : z.Lawful) (hp : Good z p n) {op : Op T}
    (hflags : ¬ KeepsFlags z op (.at n p)) (hstep : op.apply z (.at n p) = some loc) :
    ¬ Tracks z ⟨loc, op.directAt z (plug z p n) (pos p)⟩ := by
  unfold KeepsFlags at hflags
  split at hflags
  case h_2 => exact absurd trivial hflags
  case h_1 fuel m pnodes ppath r changed heq =>
    cases heq
    obtain ⟨pnode, hpnode, rfl⟩ := Option.map_eq_some_iff.mp hstep
    have hmodify := removeFirst_eq h hp hpnode
    obtain ⟨pnode', hpnode', hbranch, -, hgood⟩ := hp
    obtain rfl : pnode' = pnode := Option.some.inj (hpnode'.symm.trans hpnode)
    rw [not_or, hpnode, Option.map_some, Option.some.injEq] at hflags
    obtain ⟨hflag, hchildren⟩ := hflags
    rintro ⟨c, hc, hroot⟩
    simp only [Op.directAt, removeAt, pos, List.length_nil, List.eraseIdx_zero, hmodify,
      Option.map_some, Option.some.injEq] at hc
    subst hc
    have hsame : z.make pnode' r = pnode' :=
      plug_injective h hgood.rooted
      (Option.some.inj (hroot.symm.trans (root_unflagged h hgood hflag _)))
    exact hchildren (by rw [← h.children_make pnode' r hbranch, hsame])

/-- A step of a session: `root` follows it when the condition holds, and then the session goes
on. -/
theorem Going.step (h : z.Lawful) {s s' : Session T} {op : Op T} (hgoing : Going z s)
    (hstep : s.step z op = some s') :
    (Tracks z s' ↔ Keeps z s op) ∧ (Keeps z s op → Going z s') := by
  obtain ⟨sloc, sdirect⟩ := s
  obtain ⟨n, p, hloc, hp, hdirect⟩ := hgoing
  obtain rfl : sloc = .at n p := hloc
  obtain rfl : sdirect = some ⟨plug z p n, some (pos p)⟩ := hdirect
  obtain ⟨loc, happly, rfl⟩ := Option.map_eq_some_iff.mp hstep
  by_cases hflags : KeepsFlags z op (.at n p)
  · have hshows := apply_shows h hp hflags happly
    have hpos := goesOn_iff h hp hflags happly
    refine ⟨(hshows.tracks h).trans ⟨fun hp => ⟨hflags, hpos.mp hp⟩,
      fun hkeeps => hpos.mpr hkeeps.2⟩, ?_⟩
    intro hkeeps
    exact hshows.going (hpos.mpr hkeeps.2)
  · exact ⟨iff_of_false (remove_loses h hp hflags happly) fun hkeeps => hflags hkeeps.1,
      fun hkeeps => absurd hkeeps.1 hflags⟩

/-- `root` gives the edited tree throughout a session exactly when every `remove` of a first child
finds the level above flagged and no `next` comes to the end. -/
theorem tracks_iff_keeps (h : z.Lawful) (t : T) {run : List (Op T × Session T)}
    (hrun : IsRun (fun s op s' => Session.step z s op = some s') (.start t) run) :
    Always (Tracks z) (.start t) run ↔ EachStep (Keeps z) (.start t) run := by
  have hstart : Going z (.start t) := ⟨t, .nil, rfl, trivial, rfl⟩
  have htracks : Tracks z (.start t) := ⟨_, rfl, rfl⟩
  exact always_iff_eachStep (fun _ _ _ hgoing _ _ hkeeps hstep => (hgoing.step h hstep).2 hkeeps)
    (fun _ _ _ hgoing _ _ hstep => (hgoing.step h hstep).1) hstart htracks hrun
    (EachStep.of_forall (fun _ _ => trivial) _ _)

end

/-- Nested vectors. -/
inductive Nested where
  | atom (n : Nat)
  | vector (elements : List Nested)

/-- `vector-zip`. -/
def vectorZip : Trees Nested where
  branch
    | .atom _ => false
    | .vector _ => true
  children
    | .atom _ => []
    | .vector elements => elements
  make _ children := .vector children

theorem vectorZip_lawful : vectorZip.Lawful where
  branch_make _ _ _ := rfl
  children_make _ _ _ := rfl
  make_children n hn := by
    cases n with
    | atom k => cases hn
    | vector elements => rfl
  make_make _ _ _ _ := rfl

/-- In `[1 [2 3]]`: 9 in place of 2, 4 put before it and removed again. -/
def editedRun : List (Op Nested) :=
  [.down, .right, .down, .replace (.atom 9), .up, .insertChild (.atom 4), .down, .remove 1, .left]

theorem editedRun_tracks :
    Always (Tracks vectorZip) (.start (.vector [.atom 1, .vector [.atom 2, .atom 3]]))
      (trace (Session.step vectorZip) (.start (.vector [.atom 1, .vector [.atom 2, .atom 3]]))
        editedRun) :=
  (tracks_iff_keeps vectorZip_lawful _ (trace_isRun _ _ _)).mpr
    ⟨⟨trivial, trivial⟩, ⟨trivial, trivial⟩, ⟨trivial, trivial⟩, ⟨trivial, trivial⟩,
      ⟨trivial, trivial⟩, ⟨trivial, trivial⟩, ⟨trivial, trivial⟩, ⟨.inl rfl, trivial⟩,
      ⟨trivial, trivial⟩, trivial⟩

/-- In `[[1 2]]` the 1 is removed, and `root` gives `[[1 2]]`. -/
theorem removeFirst_lost :
    vectorZip.Lawful ∧ ¬ ∀ (t : Nested) (run : List (Op Nested × Session Nested)),
    IsRun (fun s op s' => Session.step vectorZip s op = some s') (.start t) run →
    Always (Tracks vectorZip) (.start t) run := by
  refine ⟨vectorZip_lawful, ?_⟩
  intro h
  have hrun := h (.vector [.vector [.atom 1, .atom 2]])
    (trace (Session.step vectorZip) (.start (.vector [.vector [.atom 1, .atom 2]])) [.down, .down,
      .remove 1])
    (trace_isRun _ _ _)
  obtain ⟨c, hc, hroot⟩ := hrun.2.2.2
  have hdirect : some c = some ⟨.vector [.vector [.atom 2]], some [0]⟩ := hc.symm
  have hold : some c.tree = some (.vector [.vector [.atom 1, .atom 2]]) := hroot.symm
  cases hdirect
  simp at hold

end Fol.Zip
