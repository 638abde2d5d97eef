/-
Fol.Zip.Edits — the operations of a zipper are the operations on the tree.

A location stands for a tree (`plug`) and a position in it (`pos`). On each level of the path either
the flag is set, or the children of the node above are still those that the level has: then going
up gives what the location stands for (`root_eq`). All operations keep that, but for `remove` of a
first child: it changes the node above and sets no flag on its level.
-/
import Fol.Zip.Direct

namespace Fol.Zip

open Fol.Lib

variable {T : Type}

/-! ## §1 Plug -/

/-- The tree in which this node stands on this path. -/
def plug (z : Trees T) : Path T → T → T
  | .nil, n => n
  | .level l pnodes ppath r _, n =>
    plug z ppath (match pnodes.getLast? with
      | some pnode => z.make pnode (l.reverse ++ n :: r)
      | none => n)

def pos : Path T → List Nat
  | .nil => []
  | .level l _ ppath _ _ => l.length :: pos ppath

/-- Every level has a branch above it. -/
def Rooted (z : Trees T) : Path T → Prop
  | .nil => True
  | .level _ pnodes ppath _ _ => (∃ pnode, pnodes.getLast? = some pnode ∧ z.branch pnode = true) ∧
      Rooted z ppath

section

variable {z : Trees T} {p ppath : Path T} {l r pnodes : List T} {n pnode : T} {changed : Bool}

theorem plug_level (hpnode : pnodes.getLast? = some pnode) :
    plug z (.level l pnodes ppath r changed) n =
    plug z ppath (z.make pnode (l.reverse ++ n :: r)) := by
  rw [plug, hpnode]

theorem subtree_plug (h : z.Lawful) (hp : Rooted z p) (n : T) :
    z.subtree (plug z p n) (pos p) = some n := by
  induction p generalizing n with
  | nil => rfl
  | level l pnodes ppath r changed ih =>
    obtain ⟨⟨pnode, hpnode, hbranch⟩, hrooted⟩ := hp
    rw [plug_level hpnode, pos, Trees.subtree, ih hrooted, Option.bind_some, h.child_make hbranch,
      Trees.getElem?_zipped]

theorem modify_plug (h : z.Lawful) (hp : Rooted z p) (n : T) (f : T → Option T) :
    z.modify (plug z p n) (pos p) f = (f n).map (plug z p) := by
  induction p generalizing n f with
  | nil =>
    show f n = (f n).map fun m => m
    cases f n <;> rfl
  | level l pnodes ppath r changed ih =>
    obtain ⟨⟨pnode, hpnode, hbranch⟩, hrooted⟩ := hp
    rw [plug_level hpnode, pos, Trees.modify, ih hrooted, h.onChildren_make hbranch,
      Trees.onElement_zipped, Option.map_map, Option.map_map]
    refine congrArg (fun g => (f n).map g) (funext fun c => ?_)
    rw [Function.comp, Function.comp, plug_level hpnode]

/-- The siblings of the position, and a change of them. -/
theorem childrenAt_ppath (h : z.Lawful) (hpnode : pnodes.getLast? = some pnode)
    (hbranch : z.branch pnode = true) (l r : List T) (n : T) (changed : Bool)
    (hrooted : Rooted z ppath) :
    childrenAt z (plug z (.level l pnodes ppath r changed) n) (pos ppath) = l.reverse ++
    n :: r := by
  rw [plug_level hpnode, childrenAt, subtree_plug h hrooted]
  simp [h.branch_make pnode _ hbranch, h.children_make pnode _ hbranch]

theorem modify_ppath (h : z.Lawful) (hpnode : pnodes.getLast? = some pnode)
    (hbranch : z.branch pnode = true) (hrooted : Rooted z ppath) (f : List T → Option (List T)) :
    z.modify (plug z (.level l pnodes ppath r changed) n) (pos ppath) (z.onChildren f) =
      (f (l.reverse ++ n :: r)).map fun cs => plug z ppath (z.make pnode cs) := by
  rw [plug_level hpnode, modify_plug h hrooted, h.onChildren_make hbranch, Option.map_map]
  rfl

theorem childrenAt_pos (h : z.Lawful) (hrooted : Rooted z p) :
    childrenAt z (plug z p n) (pos p) = if z.branch n then z.children n else [] := by
  rw [childrenAt, subtree_plug h hrooted]

/-- Different nodes on one path make different trees. -/
theorem plug_injective (h : z.Lawful) (hrooted : Rooted z p) {m : T}
    (heq : plug z p n = plug z p m) : n = m := by
  have hsub := subtree_plug h hrooted m
  rw [← heq, subtree_plug h hrooted n] at hsub
  exact Option.some.inj hsub

/-! ## §2 Good -/

/-- On each level the flag is set, or the children of the node above are as they were. -/
def Good (z : Trees T) : Path T → T → Prop
  | .nil, _ => True
  | .level l pnodes ppath r changed, n =>
    ∃ pnode, pnodes.getLast? = some pnode ∧ z.branch pnode = true ∧
      (changed = false → z.children pnode = l.reverse ++ n :: r) ∧ Good z ppath pnode

theorem Good.rooted (hp : Good z p n) : Rooted z p := by
  induction p generalizing n with
  | nil => trivial
  | level l pnodes ppath r changed ih =>
    obtain ⟨pnode, hpnode, hbranch, -, hgood⟩ := hp
    exact ⟨⟨pnode, hpnode, hbranch⟩, ih hgood⟩

@[simp] theorem plug_flag (p : Path T) (n : T) : plug z p.flag n = plug z p n := by
  cases p <;> rfl

@[simp] theorem pos_flag (p : Path T) : pos p.flag = pos p := by
  cases p <;> rfl

@[simp] theorem depth_flag (p : Path T) : p.flag.depth = p.depth := by
  cases p <;> rfl

/-- Below a flag any node may stand. -/
theorem Good.flag (hp : Good z p n) (m : T) : Good z p.flag m := by
  cases p with
  | nil => trivial
  | level l pnodes ppath r changed =>
    obtain ⟨pnode, hpnode, hbranch, -, hgood⟩ := hp
    exact ⟨pnode, hpnode, hbranch, fun hflag => (by cases hflag), hgood⟩

theorem Good.unchanged (h : z.Lawful) (hp : Good z (.level l pnodes ppath r false) n)
    (hpnode : pnodes.getLast? = some pnode) : z.make pnode (l.reverse ++ n :: r) = pnode := by
  obtain ⟨pnode', hpnode', hbranch, hchildren, -⟩ := hp
  obtain rfl : pnode' = pnode := Option.some.inj (hpnode'.symm.trans hpnode)
  rw [← hchildren rfl]
  exact h.make_children pnode' hbranch

def Path.flagged : Path T → Bool
  | .nil => true
  | .level _ _ _ _ changed => changed

def Loc.Good (z : Trees T) : Loc T → Prop
  | .at n p => Zip.Good z p n
  | .theEnd _ => True

/-- What a location stands for. -/
def Loc.cursor (z : Trees T) : Loc T → Cursor T
  | .at n p => ⟨plug z p n, some (pos p)⟩
  | .theEnd n => ⟨n, none⟩

/-- Going up gives the parent as the location has it. -/
theorem up_good (h : z.Lawful) (hp : Good z (.level l pnodes ppath r changed) n) :
    ∃ n' p', up z (.at n (.level l pnodes ppath r changed)) = some (.at n' p') ∧ Good z p' n' ∧
      plug z p' n' = plug z (.level l pnodes ppath r changed) n ∧ pos p' = pos ppath ∧
      p'.depth = ppath.depth := by
  have hp' := hp
  obtain ⟨pnode, hpnode, hbranch, hchildren, hgood⟩ := hp'
  rw [up, hpnode, Option.map_some, plug_level hpnode]
  cases changed with
  | true => exact ⟨_, _, rfl, hgood.flag _, plug_flag _ _, pos_flag _, depth_flag _⟩
  | false =>
    rw [hp.unchanged h hpnode]
    exact ⟨_, _, rfl, hgood, rfl, rfl, rfl⟩

/-- `root` gives the tree that the location stands for. -/
theorem rootLoop_eq (h : z.Lawful) {k : Nat} (hk : p.depth = k) (hp : Good z p n) :
    rootLoop z k (.at n p) = some (plug z p n) := by
  induction k generalizing n p with
  | zero =>
    cases p with
    | nil => rfl
    | level l pnodes ppath r changed => cases hk
  | succ k ih =>
    cases p with
    | nil => cases hk
    | level l pnodes ppath r changed =>
      obtain ⟨n', p', hup, hgood, hplug, -, hdepth⟩ := up_good h hp
      rw [rootLoop, hup, ← hplug]
      exact ih (hdepth.trans (Nat.succ.inj hk)) hgood

theorem root_eq (h : z.Lawful) (hp : Good z p n) :
    root z (.at n p) = some (plug z p n) := rootLoop_eq h rfl hp

/-- Below a level without a flag `root` does not look at the node. -/
theorem root_unflagged (h : z.Lawful) (hp : Good z p n) (hflag : ¬ p.flagged = true) (m : T) :
    root z (.at m p) = some (plug z p n) := by
  cases p with
  | nil => exact absurd rfl hflag
  | level l pnodes ppath r changed =>
    obtain rfl : changed = false := Bool.eq_false_iff.mpr hflag
    obtain ⟨pnode, hpnode, -, -, hgood⟩ := id hp
    have hup : up z (.at m (.level l pnodes ppath r false)) = some (.at pnode ppath) := by
      rw [up, hpnode]
      rfl
    rw [root, Path.depth, rootLoop, hup, plug_level hpnode, hp.unchanged h hpnode]
    exact root_eq h hgood

/-! ## §3 Moves -/

/-- The location that a move leads to stands for the same tree, at this position. -/
structure Leads (z : Trees T) (t : T) (q : List Nat) (loc : Loc T) : Prop where
  good : loc.Good z
  cursor : loc.cursor z = ⟨t, some q⟩

theorem down_leads (h : z.Lawful) (hp : Good z p n) {loc : Loc T}
    (hdown : down z (.at n p) = some loc) :
    Leads z (plug z p n) (0 :: pos p) loc ∧ childrenAt z (plug z p n) (pos p) ≠ [] := by
  rw [childrenAt_pos h hp.rooted]
  rw [down] at hdown
  split at hdown
  · next hbranch =>
    split at hdown
    · cases hdown
    · next c cs hchildren =>
      cases hdown
      rw [if_pos hbranch, hchildren]
      have hlast : (p.pnodesBelow n).getLast? = some n := by cases p <;> simp [Path.pnodesBelow]
      have hmake : z.make n (c :: cs) = n := hchildren ▸ h.make_children n hbranch
      refine ⟨⟨⟨n, hlast, hbranch, fun _ => by simp [hchildren], hp⟩, ?_⟩, by simp⟩
      simp [Loc.cursor, plug_level hlast, pos, hmake]
  · cases hdown

theorem down_none (h : z.Lawful) (hp : Good z p n) (hdown : down z (.at n p) = none) :
    childrenAt z (plug z p n) (pos p) = [] := by
  rw [childrenAt_pos h hp.rooted]
  rw [down] at hdown
  split at hdown
  · next hbranch =>
    rw [if_pos hbranch]
    split at hdown
    · assumption
    · cases hdown
  · next hleaf => rw [if_neg hleaf]

/-- Along the siblings. -/
theorem sibling_leads (l' : List T) (x : T) (r' : List T)
    (hp : Good z (.level l pnodes ppath r changed) n)
    (hsame : l'.reverse ++ x :: r' = l.reverse ++ n :: r) :
    Leads z (plug z (.level l pnodes ppath r changed) n) (l'.length :: pos ppath)
      (.at x (.level l' pnodes ppath r' changed)) := by
  obtain ⟨pnode, hpnode, hbranch, hchildren, hgood⟩ := hp
  refine ⟨⟨pnode, hpnode, hbranch, fun hflag => (hchildren hflag).trans hsame.symm, hgood⟩, ?_⟩
  simp [Loc.cursor, plug_level hpnode, hsame, pos]

theorem rightLoop_eq (n : T) (l : List T) {k : Nat} (hk : r.length ≤ k) : ∃ x l',
    rightLoop k (.at n (.level l pnodes ppath r changed)) =
    .at x (.level l' pnodes ppath [] changed) ∧
      l'.reverse ++ [x] = l.reverse ++ n :: r := by
  induction k generalizing n l r with
  | zero =>
    obtain rfl := List.length_eq_zero_iff.mp (Nat.le_zero.mp hk)
    exact ⟨n, l, rfl, rfl⟩
  | succ k ih =>
    cases r with
    | nil => exact ⟨n, l, rfl, rfl⟩
    | cons y r =>
      obtain ⟨x, l', hloop, hsame⟩ := ih y (n :: l) (Nat.le_of_succ_le_succ hk)
      exact ⟨x, l', hloop, by rw [hsame]; simp⟩

theorem leftLoop_eq (n : T) (r : List T) {k : Nat} (hk : l.length ≤ k) : ∃ x r',
    leftLoop k (.at n (.level l pnodes ppath r changed)) =
    .at x (.level [] pnodes ppath r' changed) ∧
      x :: r' = l.reverse ++ n :: r := by
  induction k generalizing n l r with
  | zero =>
    obtain rfl := List.length_eq_zero_iff.mp (Nat.le_zero.mp hk)
    exact ⟨n, r, rfl, rfl⟩
  | succ k ih =>
    cases l with
    | nil => exact ⟨n, r, rfl, rfl⟩
    | cons y l =>
      obtain ⟨x, r', hloop, hsame⟩ := ih y (n :: r) (Nat.le_of_succ_le_succ hk)
      exact ⟨x, r', hloop, by rw [hsame]; simp⟩

/-- To the last of the siblings. -/
theorem rightmost_leads (h : z.Lawful) (hp : Good z p n) {loc : Loc T}
    (hright : rightmost (.at n p) = some loc) :
    ∃ q, Leads z (plug z p n) q loc ∧
      ((pos p = [] ∧ q = []) ∨ ∃ i q', pos p = i :: q' ∧
        q = ((childrenAt z (plug z p n) q').length - 1) :: q') := by
  cases hright
  cases p with
  | nil => exact ⟨[], ⟨trivial, rfl⟩, .inl ⟨rfl, rfl⟩⟩
  | level l pnodes ppath r changed =>
    obtain ⟨x, l', hloop, hsame⟩ :
      ∃ x l', rightLoop r.length (.at n (.level l pnodes ppath r changed)) =
        .at x (.level l' pnodes ppath [] changed) ∧ l'.reverse ++ [x] = l.reverse ++ n :: r :=
      rightLoop_eq n l (Nat.le_refl _)
    have hlead := sibling_leads _ _ _ hp hsame
    rw [Path.rights, hloop]
    refine ⟨_, hlead, .inr ⟨l.length, pos ppath, rfl, ?_⟩⟩
    obtain ⟨⟨pnode, hpnode, hbranch⟩, hrooted⟩ := hp.rooted
    rw [childrenAt_ppath h hpnode hbranch _ _ _ _ hrooted, ← hsame]
    simp

theorem leftmost_leads (hp : Good z p n) {loc : Loc T} (hleft : leftmost (.at n p) = some loc) :
    ∃ q, Leads z (plug z p n) q loc ∧
      ((pos p = [] ∧ q = []) ∨ ∃ i q', pos p = i :: q' ∧ q = 0 :: q') := by
  cases hleft
  cases p with
  | nil => exact ⟨[], ⟨trivial, rfl⟩, .inl ⟨rfl, rfl⟩⟩
  | level l pnodes ppath r changed =>
    obtain ⟨x, r', hloop, hsame⟩ :
      ∃ x r', leftLoop l.length (.at n (.level l pnodes ppath r changed)) =
        .at x (.level [] pnodes ppath r' changed) ∧ x :: r' = l.reverse ++ n :: r :=
      leftLoop_eq n r (Nat.le_refl _)
    rw [Path.lefts, hloop]
    exact ⟨_, sibling_leads [] _ _ hp hsame, .inr ⟨l.length, pos ppath, rfl, rfl⟩⟩

/-- Down the last children. -/
theorem descend_leads (h : z.Lawful) {fuel : Nat} {t : T} {q : List Nat} {loc loc' : Loc T}
    (hlead : Leads z t q loc) (hdescend : descend z fuel loc = some loc') :
    ∃ q', Leads z t q' loc' ∧ lastBelow z t fuel q = some q' := by
  induction fuel generalizing q loc with
  | zero => cases hdescend
  | succ fuel ih =>
    cases loc with
    | theEnd n => cases hlead.cursor
    | «at» n p =>
      have hgood : Good z p n := hlead.good
      obtain ⟨rfl, hq⟩ := Cursor.mk.inj hlead.cursor
      obtain rfl := Option.some.inj hq
      rw [descend] at hdescend
      rw [lastBelow]
      cases hdown : down z (.at n p) with
      | none =>
        rw [hdown] at hdescend
        cases hdescend
        rw [down_none h hgood hdown]
        exact ⟨_, hlead, rfl⟩
      | some child =>
        rw [hdown] at hdescend
        obtain ⟨last, hlast, hrest⟩ := Option.bind_eq_some_iff.mp hdescend
        obtain ⟨hchild, hne⟩ := down_leads h hgood hdown
        cases child with
        | theEnd m => cases hchild.cursor
        | «at» m p' =>
          obtain ⟨hplug, hpos⟩ := Cursor.mk.inj hchild.cursor
          have hpos' : pos p' = 0 :: pos p := Option.some.inj hpos
          obtain ⟨q', hlead', hwhere⟩ := rightmost_leads h hchild.good hlast
          rw [hplug] at hlead' hwhere
          obtain rfl : q' = ((childrenAt z (plug z p n) (pos p)).length - 1) :: pos p := by
            rcases hwhere with ⟨hnil, -⟩ | ⟨i, q'', hcons, hq⟩
            · rw [hpos'] at hnil
              cases hnil
            · rw [hpos'] at hcons
              cases hcons
              exact hq
          obtain ⟨k, hk⟩ :=
            Nat.exists_eq_succ_of_ne_zero (fun hzero => hne (List.length_eq_zero_iff.mp hzero))
          rw [hk] at hlead' ⊢
          exact ih hlead' hrest

/-- Up to a right sibling, or to the end. -/
theorem nextLoop_eq (h : z.Lawful) {k : Nat} (hk : p.depth = k) (hp : Good z p n) :
    (nextLoop z k (.at n p)).Good z ∧
      (nextLoop z k (.at n p)).cursor z = ⟨plug z p n, after z (plug z p n) (pos p)⟩ := by
  induction k generalizing n p with
  | zero =>
    cases p with
    | nil => exact ⟨trivial, rfl⟩
    | level l pnodes ppath r changed => cases hk
  | succ k ih =>
    cases p with
    | nil => cases hk
    | level l pnodes ppath r changed =>
      obtain ⟨n', p', hup, hgood, hplug, hpos, hdepth⟩ := up_good h hp
      obtain ⟨⟨pnode, hpnode, hbranch⟩, hrooted⟩ := hp.rooted
      have hsiblings := childrenAt_ppath h hpnode hbranch l r n changed hrooted
      rw [nextLoop, hup, pos, after, hsiblings]
      cases r with
      | nil =>
        rw [if_neg (by simp), ← hplug, ← hpos]
        exact ih (hdepth.trans (Nat.succ.inj hk)) hgood
      | cons x r =>
        have hlead := sibling_leads (n :: l) x r hp (by simp)
        rw [if_pos (by simp)]
        exact ⟨hlead.good, hlead.cursor⟩

/-! ## §4 Operations -/

theorem next_eq (h : z.Lawful) (hp : Good z p n) {loc : Loc T}
    (hnext : next z (.at n p) = some loc) :
    loc.Good z ∧ loc.cursor z =
      ⟨plug z p n, if childrenAt z (plug z p n) (pos p) = [] then after z (plug z p n) (pos p)
        else some (0 :: pos p)⟩ := by
  rw [next] at hnext
  cases hdown : down z (.at n p) with
  | some child =>
    rw [hdown] at hnext
    cases hnext
    obtain ⟨hlead, hne⟩ := down_leads h hp hdown
    rw [if_neg hne]
    exact ⟨hlead.good, hlead.cursor⟩
  | none =>
    rw [hdown] at hnext
    rw [if_pos (down_none h hp hdown)]
    cases hright : right (.at n p) with
    | none =>
      rw [hright] at hnext
      cases hnext
      exact nextLoop_eq h rfl hp
    | some sibling =>
      rw [hright] at hnext
      cases hnext
      unfold right at hright
      split at hright
      · next m l pnodes ppath x r changed heq =>
        cases heq
        cases hright
        obtain ⟨⟨pnode, hpnode, hbranch⟩, hrooted⟩ := hp.rooted
        have hlead := sibling_leads (n :: l) x r hp (by simp)
        rw [pos, after, childrenAt_ppath h hpnode hbranch _ _ _ _ hrooted, if_pos (by simp)]
        exact ⟨hlead.good, hlead.cursor⟩
      · cases hright

/-- A change of the siblings, with the flag set. -/
theorem siblings_eq (h : z.Lawful) (l' : List T) (x : T) (r' : List T)
    (f : List T → Option (List T)) (hp : Good z (.level l pnodes ppath r changed) n)
    (hf : f (l.reverse ++ n :: r) = some (l'.reverse ++ x :: r')) :
    (Loc.at x (.level l' pnodes ppath r' true)).Good z ∧
      z.modify (plug z (.level l pnodes ppath r changed) n) (pos ppath) (z.onChildren f) =
        some (plug z (.level l' pnodes ppath r' true) x) := by
  obtain ⟨pnode, hpnode, hbranch, -, hgood⟩ := hp
  refine ⟨⟨pnode, hpnode, hbranch, fun hflag => (by cases hflag), hgood⟩, ?_⟩
  rw [modify_ppath h hpnode hbranch hgood.rooted, hf, plug_level hpnode]
  rfl

theorem insertIdx_append_add (xs ys : List T) (i : Nat) (item : T) :
    (xs ++ ys).insertIdx (i + xs.length) item = xs ++ ys.insertIdx i item := by
  induction xs with
  | nil => rfl
  | cons x xs ih =>
      rw [List.cons_append, List.length_cons, ← Nat.add_assoc, List.insertIdx_succ_cons, ih]; rfl

@[simp] theorem insertIdx_zipped (item : T) :
    (l.reverse ++ n :: r).insertIdx l.length item = l.reverse ++ item :: n :: r := by
  rw [← List.length_reverse, ← Nat.zero_add l.reverse.length, insertIdx_append_add]
  rfl

@[simp] theorem insertIdx_succ_zipped (item : T) :
    (l.reverse ++ n :: r).insertIdx (l.length + 1) item = l.reverse ++ n :: item :: r := by
  rw [← List.length_reverse, Nat.add_comm, insertIdx_append_add]
  rfl

@[simp] theorem eraseIdx_zipped {x : T} :
    (l.reverse ++ x :: n :: r).eraseIdx (l.length + 1) = l.reverse ++ x :: r := by
  rw [← List.length_reverse, List.eraseIdx_append_of_length_le (Nat.le_succ _)]
  simp

theorem withChildren_some {f : List T → List T} {loc : Loc T}
    (hstep : withChildren z f (.at n p) = some loc) :
    z.branch n = true ∧ loc = .at (z.make n (f (z.children n))) p.flag := by
  rw [withChildren] at hstep
  split at hstep
  · next hbranch =>
    cases hstep
    exact ⟨hbranch, rfl⟩
  · cases hstep

/-- `remove` of a first child: what it stands for, with or without the flag. -/
theorem removeFirst_eq (h : z.Lawful) (hp : Good z (.level [] pnodes ppath r changed) n)
    (hpnode : pnodes.getLast? = some pnode) :
    z.modify (plug z (.level [] pnodes ppath r changed) n) (pos ppath)
        (z.onChildren fun cs => some cs.tail) = some (plug z ppath (z.make pnode r)) := by
  obtain ⟨pnode', hpnode', hbranch, -, hgood⟩ := hp
  obtain rfl : pnode' = pnode := Option.some.inj (hpnode'.symm.trans hpnode)
  rw [modify_ppath h hpnode hbranch hgood.rooted]
  rfl

theorem Good.reflag (hp : Good z p n) (hflag : p.flagged = true) (m : T) : Good z p m := by
  cases p with
  | nil => trivial
  | level l pnodes ppath r changed =>
    obtain ⟨pnode, hpnode, hbranch, -, hgood⟩ := hp
    have hchanged : changed = true := hflag
    exact ⟨pnode, hpnode, hbranch, fun hnot => absurd (hnot.symm.trans hchanged) (by simp), hgood⟩

end

end Fol.Zip
