/-
Fol.HashTrie.Places — where a binding stands among the others.

The keys of a trie are listed in the order of their hashes, read from the low end five bits at a
time, and those of one bucket in the order of the bucket (`Precedes`). A list of bindings is the one
the trie lists exactly if it has the bindings of the trie and stands in that order.
-/
import Fol.HashTrie.Position

namespace Fol.HashTrie

open Lib

variable {τ κ ν : Type}

/-! ## §1 Places -/

mutual

/-- The keys of each bucket, in its order. -/
def Node.buckets : Node τ κ ν → List (List κ)
  | .leaf _ => []
  | .collision _ leaves => [leaves.map Leaf.key]
  | .node _ children => bucketsAll children
  | .tnode _ _ children => bucketsAll children

def bucketsAll : List (Node τ κ ν) → List (List κ)
  | [] => []
  | n :: ns => n.buckets ++ bucketsAll ns

end

/-- The place of `a` in a trie is before that of `b`: it is in front of it in a bucket that has
both, or they share no bucket and its hash, read from the low end in chunks of five bits, is the
smaller one. -/
def StandsBefore {κ : Type} (sxhash : κ → Nat) (bs : List (List κ)) (shift : Nat) (a b : κ) :
    Prop :=
  (∃ ks ∈ bs, [a, b].Sublist ks) ∨
  ((∀ ks ∈ bs, a ∈ ks → b ∉ ks) ∧ before shift (sxhash a) (sxhash b))

/-- In the trie. -/
def Precedes (sxhash : κ → Nat) (h : Hamt τ κ ν) : κ → κ → Prop :=
  StandsBefore sxhash (bucketsAll h.root.toList) 0

/-! ## §2 Order -/

section Places

variable {sxhash : κ → Nat} {n : Node τ κ ν} {ns : List (Node τ κ ν)} {ks : List κ}
    {bs bs' : List (List κ)}
  {shift pre : Nat} {a b : κ}

theorem mem_bucketsAll : ks ∈ bucketsAll ns ↔ ∃ n ∈ ns, ks ∈ n.buckets := by
  induction ns with
  | nil => simp [bucketsAll]
  | cons n ns ih => simp [bucketsAll, ih]

theorem sublist_entriesList (h : n ∈ ns) : n.entries.Sublist (entriesList ns) := by
  obtain ⟨l, r, rfl⟩ := List.append_of_mem h
  rw [entriesList_append, entriesList_cons]
  exact (List.sublist_append_left _ _).trans (List.sublist_append_right _ _)

/-- A bucket is a part of the trie. -/
theorem bucket_sublist (h : ks ∈ n.buckets) : ks.Sublist (n.entries.map Prod.fst) := by
  induction n with
  | leaf l => cases h
  | collision hash leaves =>
    rw [List.mem_singleton.mp h, entries_collision, List.map_map]
    exact List.Sublist.refl _
  | node b children ih | tnode t b children ih =>
    obtain ⟨c, hc, h⟩ := mem_bucketsAll.mp h
    exact (ih c hc h).trans ((sublist_entriesList hc).map _)

theorem bucketsAll_sublist (h : ks ∈ bucketsAll ns) :
    ks.Sublist ((entriesList ns).map Prod.fst) := by
  obtain ⟨c, hc, h⟩ := mem_bucketsAll.mp h
  exact (bucket_sublist h).trans ((sublist_entriesList hc).map _)

/-- Other buckets do not matter to keys that are not in them. -/
theorem StandsBefore.more {shift' : Nat} (h : StandsBefore sxhash bs shift a b) (hsub : bs ⊆ bs')
    (hother : ∀ ks ∈ bs', ks ∉ bs → a ∉ ks)
    (hbefore : before shift (sxhash a) (sxhash b) → before shift' (sxhash a) (sxhash b)) :
    StandsBefore sxhash bs' shift' a b := by
  rcases h with ⟨ks, hks, hab⟩ | ⟨hapart, hlt⟩
  · exact .inl ⟨ks, hsub hks, hab⟩
  · refine .inr ⟨fun ks hks ha => ?_, hbefore hlt⟩
    by_cases hin : ks ∈ bs
    · exact hapart ks hin ha
    · exact absurd ha (hother ks hks hin)

theorem before_asymm {x y : Nat} (h : before shift x y) : ¬ before shift y x := by
  obtain ⟨m, hagree, hlt⟩ := h
  rintro ⟨k, hagree', hlt'⟩
  induction m generalizing shift k with
  | zero =>
    cases k with
    | zero => exact Nat.lt_asymm hlt hlt'
    | succ k => exact absurd (agree_succ.mp hagree').1 (Nat.ne_of_gt (by simpa using hlt))
  | succ m ih =>
    obtain ⟨hchunk, hrest⟩ := agree_succ.mp hagree
    have hshift : ∀ j, shift + bitShift * (j + 1) = shift + bitShift + bitShift * j := fun j => by
      rw [Nat.mul_succ]
      omega
    cases k with
    | zero => exact absurd hchunk (Nat.ne_of_gt (by simpa using hlt'))
    | succ k =>
      rw [hshift] at hlt hlt'
      exact ih hrest hlt k (agree_succ.mp hagree').2 hlt'

theorem not_sublist_swap {all : List κ} (hall : all.Nodup) (hab : [a, b].Sublist all) :
    ¬ [b, a].Sublist all := by
  induction all with
  | nil => cases hab
  | cons k all ih =>
    obtain ⟨hk, hall⟩ := List.nodup_cons.mp hall
    intro hba
    rcases List.sublist_cons_iff.mp hab with hab' | ⟨_, heq, hb⟩ <;>
      rcases List.sublist_cons_iff.mp hba with hba' | ⟨_, heq', ha⟩
    · exact ih hall hab' hba'
    · cases heq'
      exact hk (hab'.subset (List.mem_cons_of_mem _ List.mem_cons_self))
    · cases heq
      exact hk (hba'.subset (List.mem_cons_of_mem _ List.mem_cons_self))
    · cases heq
      cases heq'
      exact hk (hb.subset List.mem_cons_self)

/-- No key stands before one that stands before it. -/
theorem StandsBefore.asymm {all : List κ} (hall : all.Nodup) (hbs : ∀ ks ∈ bs, ks.Sublist all)
    (h : StandsBefore sxhash bs shift a b) : ¬ StandsBefore sxhash bs shift b a := by
  have hboth : ∀ {ks : List κ} {x y : κ}, [x, y].Sublist ks → x ∈ ks ∧ y ∈ ks := fun hsub =>
    ⟨hsub.subset (by simp), hsub.subset (by simp)⟩
  rintro (⟨ks', hks', hba⟩ | ⟨hapart', hlt'⟩) <;> rcases h with ⟨ks, hks, hab⟩ | ⟨hapart, hlt⟩
  · exact not_sublist_swap hall (hab.trans (hbs ks hks)) (hba.trans (hbs ks' hks'))
  · exact hapart ks' hks' (hboth hba).2 (hboth hba).1
  · exact hapart' ks hks (hboth hab).2 (hboth hab).1
  · exact before_asymm hlt hlt'

variable [BEq κ]

theorem children_stand (hpre : pre < 2 ^ shift) {cs : List Nat} (hcs : cs.Pairwise (· < ·))
    (hlt : ∀ c ∈ cs, c < 32) (hwf : List.Forall₂ (ChildWf sxhash shift pre) cs ns)
    (hstand : ∀ n ∈ ns, ∀ pre, pre < 2 ^ (shift + bitShift) → n.Wf sxhash (shift + bitShift) pre →
      (n.entries.map Prod.fst).Pairwise (StandsBefore sxhash (n.buckets) (shift + bitShift))) :
    ((entriesList ns).map Prod.fst).Pairwise (StandsBefore sxhash (bucketsAll ns) shift) := by
  induction hwf with
  | nil => exact List.Pairwise.nil
  | @cons c n cs ns hn hns ih =>
    obtain ⟨hc, hcs⟩ := List.pairwise_cons.mp hcs
    have hpath := extend_lt hpre (hlt c List.mem_cons_self)
    have hleft : ∀ k ∈ n.entries.map Prod.fst, chunk (sxhash k) shift = c := by
      intro k hk
      obtain ⟨e, he, rfl⟩ := List.mem_map.mp hk
      exact chunk_of_extend hpre (hn.mem_path hpath he)
    have hright : ∀ k ∈ (entriesList ns).map Prod.fst, c < chunk (sxhash k) shift := by
      intro k hk
      obtain ⟨e, he, rfl⟩ := List.mem_map.mp hk
      exact hc _ (chunk_of_children hpre (fun d hd => hlt d (List.mem_cons_of_mem _ hd)) hns e he)
    have hsplit : ∀ ks ∈ bucketsAll (n :: ns), ks ∈ n.buckets ∨ ks ∈ bucketsAll ns :=
      fun ks => List.mem_append.mp
    rw [entriesList_cons, List.map_append, List.pairwise_append]
    refine ⟨?_, ?_, fun a ha b hb => .inr ⟨fun ks hks hak hbk => ?_, ?_⟩⟩
    · refine (hstand n List.mem_cons_self _ hpath hn).imp_of_mem fun {a b} ha hb h => ?_
      refine h.more (List.subset_append_left _ _) (fun ks hks hno hak => ?_) ?_
      · have hin := (bucketsAll_sublist ((hsplit ks hks).resolve_left hno)).subset hak
        exact absurd (hleft a ha) (hright a hin).ne'
      · exact (before_of_chunk_eq ((hleft a ha).trans (hleft b hb).symm)).mpr
    · refine (ih hcs (fun d hd => hlt d (List.mem_cons_of_mem _ hd))
        fun m hm => hstand m (List.mem_cons_of_mem _ hm)).imp_of_mem fun {a b} ha hb h => ?_
      refine h.more (List.subset_append_right _ _) (fun ks hks hno hak => ?_) id
      have hin := (bucket_sublist ((hsplit ks hks).resolve_right hno)).subset hak
      exact absurd (hleft a hin) (hright a ha).ne'
    · rcases hsplit ks hks with hin | hin
      · exact absurd (hleft b ((bucket_sublist hin).subset hbk)) (hright b hb).ne'
      · exact absurd (hleft a ha) (hright a ((bucketsAll_sublist hin).subset hak)).ne'
    · exact before_of_chunk_lt (by rw [hleft a ha]; exact hright b hb)

/-- The keys of a trie stand in the order in which they are listed. -/
theorem entries_stand (hpre : pre < 2 ^ shift) (h : n.Wf sxhash shift pre) :
    (n.entries.map Prod.fst).Pairwise (StandsBefore sxhash (n.buckets) shift) := by
  induction n generalizing shift pre with
  | leaf l => simp
  | collision hash leaves =>
    rw [entries_collision, List.map_map, List.pairwise_iff_forall_sublist]
    exact fun hab => .inl ⟨_, List.mem_singleton_self _, hab⟩
  | node b children ih =>
    exact children_stand hpre (List.pairwise_lt_range.filter _) (fun c hc => lt_of_mem_slots hc)
      ((wf_node_iff sxhash).mp h).2 fun m hm _ => ih m hm
  | tnode t b children ih =>
    exact children_stand hpre (List.pairwise_lt_range.filter _) (fun c hc => lt_of_mem_slots hc)
      ((wf_tnode_iff sxhash).mp h).2 fun m hm _ => ih m hm

end Places

/-- A list is another one that is in order exactly if it has its elements and is in order. -/
theorem eq_iff_pairwise {β : Type} {R : β → β → Prop} {xs ys : List β}
    (hasymm : ∀ a b, R a b → ¬ R b a) (hys : ys.Pairwise R) :
    xs = ys ↔ (∀ e, e ∈ xs ↔ e ∈ ys) ∧ xs.Pairwise R := by
  constructor
  · rintro rfl
    exact ⟨fun _ => Iff.rfl, hys⟩
  · rintro ⟨hmem, hxs⟩
    have hne : ∀ {a b : β}, R a b → a ≠ b := fun h heq => hasymm _ _ h (heq ▸ heq ▸ h)
    have hperm := (List.perm_ext_iff_of_nodup (hxs.imp hne) (hys.imp hne)).mpr hmem
    exact hperm.eq_of_pairwise (fun a b _ _ hab hba => absurd hba (hasymm a b hab)) hxs hys

/-! ## §3 Tries -/

section Tries

variable [BEq κ] {sxhash : κ → Nat} {h : Hamt τ κ ν}

theorem Hamt.Valid.precedes (hv : h.Valid sxhash) : h.keys.Pairwise (Precedes sxhash h) := by
  unfold Hamt.keys Precedes
  cases hroot : h.root with
  | none => exact List.Pairwise.nil
  | some n => simpa [bucketsAll] using entries_stand (Nat.two_pow_pos 0) (hv.wf n hroot)

variable [LawfulBEq κ]

theorem Hamt.Valid.precedes_asymm (hv : h.Valid sxhash) (a b : κ) (hab : Precedes sxhash h a b) :
    ¬ Precedes sxhash h b a := by
  refine hab.asymm hv.keys_nodup fun ks hks => ?_
  unfold Hamt.keys
  cases hroot : h.root with
  | none => simp [hroot, bucketsAll] at hks
  | some n => exact bucket_sublist (by simpa [hroot, bucketsAll] using hks)

/-- Which list of keys is the one the trie lists. -/
theorem Hamt.Valid.keys_eq_iff (hv : h.Valid sxhash) {ks : List κ} :
    ks = h.keys ↔ (∀ k, k ∈ ks ↔ k ∈ h.keys) ∧ ks.Pairwise (Precedes sxhash h) :=
  eq_iff_pairwise hv.precedes_asymm hv.precedes

/-- Which list of bindings is. -/
theorem Hamt.Valid.entries_eq_iff (hv : h.Valid sxhash) {es : List (κ × ν)} :
    es = rootEntries h.root ↔
      (∀ e, e ∈ es ↔ e ∈ rootEntries h.root) ∧ es.Pairwise fun e f => Precedes sxhash h e.1 f.1 :=
  eq_iff_pairwise (fun e f => hv.precedes_asymm e.1 f.1) (List.pairwise_map.mp hv.precedes)

end Tries

end Fol.HashTrie
