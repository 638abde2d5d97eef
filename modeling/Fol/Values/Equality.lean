/-
Fol.Values.Equality — the laws of `%=` and of `equal?` on the values of a domain: which atoms and
classes occur in them, and whether collections are keys.

  §1 Domains     — `Domain`, `Walk`, `In`.
  §2 Laws        — `Equivalence`, `ContentLaw`, `Agreement`.
  §3 Equivalence — `equivalence_iff`.
  §4 Contents    — `contentLaw_iff`.
  §5 Agreement   — `agreement_iff`.
  §6 Result      — `value_equality_iff`.
-/
import Mathlib.Data.List.TakeWhile
import Fol.HashTrie.Listing
import Fol.Values.Value

namespace Fol.Values

variable {α : Type}

/-! ## §1 Domains -/

/-- Values are nested from the atoms and the classes; with `nested`, collections are keys and
elements of sets and bags too. `slotCount` is the number of slots of a class of objects. -/
structure Domain (α : Type) where
  hash : Key α → Nat
  atom : α → Prop
  has : Class → Prop
  nested : Prop
  slotCount : Nat → Nat

namespace Domain

variable [DecidableEq α] (D : Domain α)

def IsKey : Key α → Prop
  | .atom a => D.atom a
  | .ref _ => D.nested

/-- The keys of a trie that insertions and removals of keys of the domain leave, as they are
listed. -/
def Walk (keys : List (Key α)) : Prop :=
  ∃ (ops : List (HashTrie.Op (Key α) Unit)) (h : HashTrie.Hamt Unit (Key α) Unit),
    (∀ op ∈ ops, D.IsKey op.key) ∧ HashTrie.run D.hash {} ops = some h ∧ h.keys = keys

/-- No two keys of the domain have one hash. -/
def Canonical : Prop := ∀ k k', D.IsKey k → D.IsKey k' → D.hash k = D.hash k' → k = k'

end Domain

/-- The value is of the domain. -/
inductive In [DecidableEq α] (D : Domain α) : Value α → Prop where
  | atom {a : α} (ha : D.atom a) : In D (.atom a)
  | seq {cls : SeqClass} {id : Nat} {xs : List (Value α)} (hcls : D.has (.seq cls))
      (hxs : ∀ x ∈ xs, In D x) :
      In D (.seq cls id xs)
  | dict {id : Nat} {es : List (Value α × Value α)} (hcls : D.has .dict) (hks : ∀ e ∈ es, In D e.1)
      (hvs : ∀ e ∈ es, In D e.2) (hkeys : ∀ e ∈ es, D.IsKey e.1.key)
      (hwalk : D.Walk (es.map fun e => e.1.key)) : In D (.dict id es)
  | set {id : Nat} {xs : List (Value α)} (hcls : D.has .set) (hxs : ∀ x ∈ xs, In D x)
      (hkeys : ∀ x ∈ xs, D.IsKey x.key) (hwalk : D.Walk (xs.map Value.key)) : In D (.set id xs)
  | bag {id : Nat} {cs : List (Value α × Nat)} (hcls : D.has .bag) (hcs : ∀ c ∈ cs, In D c.1)
      (hpos : ∀ c ∈ cs, 0 < c.2) (hkeys : ∀ c ∈ cs, D.IsKey c.1.key)
      (hwalk : D.Walk (cs.map fun c => c.1.key)) : In D (.bag id cs)
  | object {id cls : Nat} {slots : List (Option (Value α))} (hcls : D.has .object)
      (hslots : ∀ s ∈ slots, ∀ v ∈ s, In D v) (hcount : slots.length = D.slotCount cls) :
      In D (.object id cls slots)

variable [DecidableEq α] {A : Atoms α} {D : Domain α}

/-! ## §2 Laws -/

structure Equivalence (A : Atoms α) (D : Domain α) : Prop where
  refl : ∀ a, In D a → Equals A a a
  symm : ∀ a b, In D a → In D b → Equals A a b → Equals A b a
  trans : ∀ a b c, In D a → In D b → In D c → Equals A a b → Equals A b c → Equals A a c

/-- Two collections of one class with equal elements, in order where the class has one. -/
inductive SameContents (A : Atoms α) : Value α → Value α → Prop where
  | seq {cls : SeqClass} {i j : Nat} {xs ys : List (Value α)} (h : List.Forall₂ (Equals A) xs ys) :
      SameContents A (.seq cls i xs) (.seq cls j ys)
  | dict {i j : Nat} {es fs fs' : List (Value α × Value α)} (hperm : fs'.Perm fs)
      (h : List.Forall₂ (fun e f => Equals A e.1 f.1 ∧ Equals A e.2 f.2) es fs') :
      SameContents A (.dict i es) (.dict j fs)
  | set {i j : Nat} {xs ys ys' : List (Value α)} (hperm : ys'.Perm ys)
      (h : List.Forall₂ (Equals A) xs ys') :
      SameContents A (.set i xs) (.set j ys)
  | bag {i j : Nat} {cs ds ds' : List (Value α × Nat)} (hperm : ds'.Perm ds)
      (h : List.Forall₂ (fun c d => Equals A c.1 d.1 ∧ c.2 = d.2) cs ds') :
      SameContents A (.bag i cs) (.bag j ds)

def ContentLaw (A : Atoms α) (D : Domain α) : Prop :=
  ∀ a b, In D a → In D b → SameContents A a b → Equals A a b

/-- `equal?` and `%=` agree on values of one class. -/
def Agreement (A : Atoms α) (D : Domain α) : Prop :=
  ∀ a b, In D a → In D b → a.cls = b.cls → (EqualQ A a b ↔ Equals A a b)

/-! ## §3 Equivalence -/

theorem walk_nodup {keys : List (Key α)} (h : D.Walk keys) : keys.Nodup := by
  obtain ⟨ops, trie, -, hrun, rfl⟩ := h
  have hcongr : ∀ a b : Key α, (a == b) = true → D.hash a = D.hash b := fun a b hab => by
    rw [eq_of_beq hab]
  obtain ⟨h', hrun', hvalid, -⟩ := HashTrie.run_spec hcongr (HashTrie.Hamt.Valid.empty D.hash)
    Lib.Enumerates.nil ops
  rw [hrun] at hrun'
  cases hrun'
  exact hvalid.keys_nodup

theorem walk_nil : D.Walk [] := ⟨[], {}, by simp, rfl, rfl⟩

theorem walk_single {k : Key α} (hk : D.IsKey k) : D.Walk [k] :=
  ⟨[.assoc k ()], _, by simpa [HashTrie.Op.key] using hk, rfl, rfl⟩

/-- Tries of a domain in which no two keys have one hash list the same keys in the same order. -/
theorem Domain.Canonical.walk_eq (h : D.Canonical) {ks ks' : List (Key α)} (hwalk : D.Walk ks)
    (hwalk' : D.Walk ks') (hperm : ks.Perm ks') : ks = ks' := by
  obtain ⟨ops, trie, hops, hrun, rfl⟩ := hwalk
  obtain ⟨ops', trie', hops', hrun', rfl⟩ := hwalk'
  exact HashTrie.run_keys_eq h hops hops' hrun hrun' hperm

/-- Two keys with one hash in the order in which they are put in. -/
theorem walk_pair {k k' : Key α} (hk : D.IsKey k) (hk' : D.IsKey k') (hne : k ≠ k')
    (hhash : D.hash k = D.hash k') :
    D.Walk [k, k'] := by
  obtain ⟨trie, hrun, hkeys⟩ := HashTrie.run_pair k k' () () hne hhash
  exact ⟨_, trie, by simp [HashTrie.Op.key, hk, hk'], hrun, hkeys⟩

theorem listed_subset (cls : SeqClass) (xs : List (Value α)) : listed A cls xs ⊆ xs := by
  unfold listed
  split
  · exact List.takeWhile_subset _
  · exact List.Subset.refl xs

theorem forall_zip_self {β : Type} {R : β → β → Prop} {xs : List β} (h : ∀ x ∈ xs, R x x) :
    ∀ p ∈ xs.zip xs, R p.1 p.2 := by
  induction xs with
  | nil => simp
  | cons x xs ih =>
    intro p hp
    rcases List.mem_cons.mp hp with rfl | hp
    · exact h x List.mem_cons_self
    · exact ih (fun y hy => h y (List.mem_cons_of_mem x hy)) p hp

theorem mem_expand {β : Type} {cs : List (β × Nat)} {x : β} :
    x ∈ expand cs ↔ ∃ n, (x, n) ∈ cs ∧ 0 < n := by
  simp only [expand, List.mem_flatMap, List.mem_replicate, Prod.exists]
  constructor
  · rintro ⟨y, n, hmem, hn, rfl⟩
    exact ⟨n, hmem, Nat.pos_of_ne_zero hn⟩
  · rintro ⟨n, hmem, hn⟩
    exact ⟨x, n, hmem, Nat.ne_of_gt hn, rfl⟩

section Nodup

variable {es : List (Value α × Value α)} {cs : List (Value α × Nat)}

theorem valueOf_eq_some (hes : (es.map fun e => e.1.key).Nodup) {k : Key α} {v : Value α} :
    valueOf es k = some v ↔ ∃ e ∈ es, e.1.key = k ∧ e.2 = v := by
  have hnodup : ((es.map fun e => (e.1.key, e.2)).map Prod.fst).Nodup := by
    simpa [Function.comp_def] using hes
  rw [valueOf, Lib.lookup_eq_some_iff_mem hnodup]
  simp

theorem valueOf_of_mem (hes : (es.map fun e => e.1.key).Nodup) {e : Value α × Value α}
    (he : e ∈ es) :
    valueOf es e.1.key = some e.2 :=
  (valueOf_eq_some hes).mpr ⟨e, he, rfl, rfl⟩

theorem countOf_eq_some (hcs : (cs.map fun c => c.1.key).Nodup) {k : Key α} {n : Nat} :
    countOf cs k = some n ↔ ∃ c ∈ cs, c.1.key = k ∧ c.2 = n := by
  have hnodup : ((cs.map fun c => (c.1.key, c.2)).map Prod.fst).Nodup := by
    simpa [Function.comp_def] using hcs
  rw [countOf, Lib.lookup_eq_some_iff_mem hnodup]
  simp

theorem countOf_of_mem (hcs : (cs.map fun c => c.1.key).Nodup) {c : Value α × Nat} (hc : c ∈ cs) :
    countOf cs c.1.key = some c.2 :=
  (countOf_eq_some hcs).mpr ⟨c, hc, rfl, rfl⟩

end Nodup

theorem In.refl {a : Value α} (ha : In D a) : Equals A a a := by
  induction ha with
  | atom _ => simp
  | @seq cls id xs _ _ ih =>
    exact equals_seq.mpr ⟨rfl, rfl, forall_zip_self fun x hx => ih x (listed_subset cls xs hx)⟩
  | dict _ _ _ _ hwalk _ ihv =>
    exact equals_dict.mpr ⟨rfl, fun e he => ⟨e.2, valueOf_of_mem (walk_nodup hwalk) he, ihv e he⟩⟩
  | set _ _ _ _ _ => exact equals_set.mpr ⟨rfl, fun y hy => List.mem_map_of_mem hy⟩
  | @bag id cs _ _ _ _ hwalk _ =>
    refine equals_bag.mpr ⟨rfl, fun x hx => ?_⟩
    obtain ⟨n, hmem, -⟩ := mem_expand.mp hx
    exact ⟨n, countOf_of_mem (walk_nodup hwalk) hmem, countOf_of_mem (walk_nodup hwalk) hmem⟩
  | @object id cls slots _ _ _ ih =>
    refine equals_object.mpr ⟨rfl, forall_zip_self fun s hs => ?_⟩
    cases s with
    | none => exact .inl ⟨rfl, rfl⟩
    | some v => exact .inr ⟨v, v, rfl, rfl, ih _ hs v rfl⟩

/-- No vector of the domain is cut at `:eof`. -/
def Uncut (A : Atoms α) (D : Domain α) : Prop := D.has (.seq .vector) → ¬ D.atom A.eof

/-- At most one of the classes with tries occurs. -/
def OneKeyed (D : Domain α) : Prop := ∀ c d, D.has c → D.has d → c.keyed → d.keyed → c = d

theorem listed_eq (huncut : Uncut A D) {cls : SeqClass} {xs : List (Value α)}
    (hcls : D.has (.seq cls)) (hxs : ∀ x ∈ xs, In D x) : listed A cls xs = xs := by
  unfold listed
  split
  · next h =>
    subst h
    rw [List.takeWhile_eq_self_iff]
    intro x hx
    rw [decide_eq_true_iff, Ne, key_eq_atom]
    rintro rfl
    cases hxs _ hx with
    | atom ha => exact huncut hcls ha
  · rfl

theorem equals_seq_iff (huncut : Uncut A D) {cls : SeqClass} {i j : Nat} {xs ys : List (Value α)}
    (hcls : D.has (.seq cls)) (hxs : ∀ x ∈ xs, In D x) (hys : ∀ y ∈ ys, In D y) :
    Equals A (.seq cls i xs) (.seq cls j ys) ↔ List.Forall₂ (Equals A) xs ys := by
  rw [equals_seq, listed_eq huncut hcls hxs, listed_eq huncut hcls hys, List.forall₂_iff_zip]
  simp

theorem In.has {a : Value α} (ha : In D a) {c : Class} (hc : a.cls = some c) : D.has c := by
  cases ha with
  | atom _ => cases hc
  | seq hcls _ => exact Option.some.inj hc ▸ hcls
  | dict hcls _ _ _ _ => exact Option.some.inj hc ▸ hcls
  | set hcls _ _ _ => exact Option.some.inj hc ▸ hcls
  | bag hcls _ _ _ _ => exact Option.some.inj hc ▸ hcls
  | object hcls _ _ => exact Option.some.inj hc ▸ hcls

theorem Equals.same_cls (hone : OneKeyed D) {a b : Value α} (ha : In D a) (hb : In D b)
    (h : Equals A a b) :
    a.cls = b.cls := by
  rcases h.cls with h | ⟨⟨c, hc, hkc⟩, d, hd, hkd⟩
  · exact h
  · rw [hc, hd, hone c d (ha.has hc) (hb.has hd) hkc hkd]

theorem forall₂_flip {β γ : Type} {R : β → γ → Prop} {S : γ → β → Prop} {xs : List β} {ys : List γ}
    (h : List.Forall₂ R xs ys) (hRS : ∀ x ∈ xs, ∀ y ∈ ys, R x y → S y x) :
    List.Forall₂ S ys xs := by
  induction h with
  | nil => exact .nil
  | cons hxy _ ih =>
    exact .cons (hRS _ List.mem_cons_self _ List.mem_cons_self hxy)
      (ih fun x hx y hy => hRS x (List.mem_cons_of_mem _ hx) y (List.mem_cons_of_mem _ hy))

theorem forall₂_comp {β : Type} {R S T : β → β → Prop} {xs ys zs : List β}
    (h : List.Forall₂ R xs ys) (h' : List.Forall₂ S ys zs)
    (hRST : ∀ x ∈ xs, ∀ y ∈ ys, ∀ z ∈ zs, R x y → S y z → T x z) :
    List.Forall₂ T xs zs := by
  induction h generalizing zs with
  | nil =>
    cases h'
    exact .nil
  | cons hxy _ ih =>
    cases h' with
    | cons hyz h' =>
      exact .cons (hRST _ List.mem_cons_self _ List.mem_cons_self _ List.mem_cons_self hxy hyz)
        (ih h' fun x hx y hy z hz =>
          hRST x (List.mem_cons_of_mem _ hx) y (List.mem_cons_of_mem _ hy) z
          (List.mem_cons_of_mem _ hz))

omit [DecidableEq α] in
/-- Keys that all occur among as many others are the same keys. -/
theorem keys_perm {ks ks' : List (Key α)} (hks' : ks'.Nodup) (hlength : ks.length = ks'.length)
    (hsub : ks' ⊆ ks) : ks'.Perm ks :=
  (List.subperm_of_subset hks' hsub).perm_of_length_le hlength.le

/-- An equal dict has the same keys. -/
theorem dict_keys {es fs : List (Value α × Value α)} (hfs : (fs.map fun f => f.1.key).Nodup)
    (hes : (es.map fun e => e.1.key).Nodup) {i j : Nat} (h : Equals A (.dict i es) (.dict j fs)) :
    (fs.map fun f => f.1.key).Perm (es.map fun e => e.1.key) := by
  obtain ⟨hlength, hfound⟩ := equals_dict.mp h
  refine keys_perm hfs (by simpa using hlength) fun k hk => ?_
  obtain ⟨f, hf, rfl⟩ := List.mem_map.mp hk
  obtain ⟨v, hv, -⟩ := hfound f hf
  obtain ⟨e, he, hkey, -⟩ := (valueOf_eq_some hes).mp hv
  exact List.mem_map.mpr ⟨e, he, hkey⟩

theorem set_keys {xs ys : List (Value α)} (hys : (ys.map Value.key).Nodup) {i j : Nat}
    (h : Equals A (.set i xs) (.set j ys)) : (ys.map Value.key).Perm (xs.map Value.key) := by
  obtain ⟨hlength, hfound⟩ := equals_set.mp h
  refine keys_perm hys (by simpa using hlength) fun k hk => ?_
  obtain ⟨y, hy, rfl⟩ := List.mem_map.mp hk
  exact hfound y hy

omit [DecidableEq α] in
theorem key_mem_expand {cs : List (Value α × Nat)} (hpos : ∀ c ∈ cs, 0 < c.2) {c : Value α × Nat}
    (hc : c ∈ cs) :
    c.1 ∈ expand cs :=
  mem_expand.mpr ⟨c.2, hc, hpos c hc⟩

omit [DecidableEq α] in
theorem mem_keys_iff {cs : List (Value α × Nat)} (hpos : ∀ c ∈ cs, 0 < c.2) {k : Key α} :
    k ∈ cs.map (fun c => c.1.key) ↔ k ∈ (expand cs).map Value.key := by
  simp only [List.mem_map]
  constructor
  · rintro ⟨c, hc, rfl⟩
    exact ⟨c.1, key_mem_expand hpos hc, rfl⟩
  · rintro ⟨x, hx, rfl⟩
    obtain ⟨n, hmem, -⟩ := mem_expand.mp hx
    exact ⟨_, hmem, rfl⟩

/-- How often a key occurs in the seq of a bag. -/
theorem count_expand {cs : List (Value α × Nat)} (hcs : (cs.map fun c => c.1.key).Nodup)
    (k : Key α) :
    ((expand cs).map Value.key).count k = (countOf cs k).getD 0 := by
  induction cs with
  | nil => rfl
  | cons c cs ih =>
    obtain ⟨hc, hcs⟩ := List.nodup_cons.mp hcs
    have hsplit : (expand (c :: cs)).map Value.key =
        List.replicate c.2 c.1.key ++ (expand cs).map Value.key := by
      simp [expand]
    have hlookup : countOf (c :: cs) k = if k = c.1.key then some c.2 else countOf cs k := by
      simp only [countOf, List.map_cons, List.lookup_cons, beq_eq_decide]
      split <;> simp_all
    rw [hsplit, List.count_append, List.count_replicate, ih hcs, hlookup]
    by_cases hk : k = c.1.key
    · subst hk
      have hnone : countOf cs c.1.key = none := by
        rw [Option.eq_none_iff_forall_ne_some]
        intro n hn
        obtain ⟨d, hd, hkey, -⟩ := (countOf_eq_some hcs).mp hn
        exact hc (List.mem_map.mpr ⟨d, hd, hkey⟩)
      simp [hnone]
    · simp [hk, Ne.symm hk]

/-- The seqs of equal bags have the same keys. -/
theorem bag_keys {cs ds : List (Value α × Nat)} (hcs : (cs.map fun c => c.1.key).Nodup)
    (hds : (ds.map fun d => d.1.key).Nodup) {i j : Nat} (h : Equals A (.bag i cs) (.bag j ds)) :
    ((expand ds).map Value.key).Perm ((expand cs).map Value.key) := by
  obtain ⟨hlength, hfound⟩ := equals_bag.mp h
  have hsubperm : ((expand ds).map Value.key).Subperm ((expand cs).map Value.key) := by
    rw [List.subperm_ext_iff]
    intro k hk
    obtain ⟨x, hx, rfl⟩ := List.mem_map.mp hk
    obtain ⟨n, hn, hn'⟩ := hfound x hx
    rw [count_expand hcs, count_expand hds, hn, hn']
  refine hsubperm.perm_of_length_le ?_
  simp [hlength]

theorem Equals.symm (huncut : Uncut A D) (hone : OneKeyed D) {a b : Value α} (ha : In D a)
    (hb : In D b) (h : Equals A a b) : Equals A b a := by
  have hcls := h.same_cls hone ha hb
  induction ha generalizing b with
  | atom _ =>
    obtain rfl := equals_atom.mp h
    simp
  | @seq cls id xs hhas hxs ih =>
    cases hb with
    | @seq cls' _ ys _ hys =>
      obtain rfl : cls = cls' := by simpa [Value.cls] using hcls
      rw [equals_seq_iff huncut hhas hxs hys] at h
      rw [equals_seq_iff huncut hhas hys hxs]
      exact forall₂_flip h fun x hx y hy hxy =>
        ih x hx (hys y hy) hxy (hxy.same_cls hone (hxs x hx) (hys y hy))
    | _ => simp [Value.cls] at hcls
  | @dict id es _ _ hvs _ hwalk _ ihv =>
    cases hb with
    | @dict _ fs _ _ hvs' _ hwalk' =>
      have hperm := dict_keys (walk_nodup hwalk') (walk_nodup hwalk) h
      obtain ⟨hlength, hfound⟩ := equals_dict.mp h
      refine equals_dict.mpr ⟨hlength.symm, fun e he => ?_⟩
      obtain ⟨f, hf, hkey⟩ := List.mem_map.mp (hperm.mem_iff.mpr (List.mem_map_of_mem he))
      obtain ⟨v, hv, hvf⟩ := hfound f hf
      have hve : v = e.2 := by
        rw [hkey, valueOf_of_mem (walk_nodup hwalk) he] at hv
        exact (Option.some.inj hv).symm
      subst hve
      refine ⟨f.2, hkey ▸ valueOf_of_mem (walk_nodup hwalk') hf, ?_⟩
      exact ihv e he (hvs' f hf) hvf (hvf.same_cls hone (hvs e he) (hvs' f hf))
    | _ => simp [Value.cls] at hcls
  | set _ _ _ hwalk _ =>
    cases hb with
    | set _ _ _ hwalk' =>
      have hperm := set_keys (walk_nodup hwalk') h
      obtain ⟨hlength, -⟩ := equals_set.mp h
      exact equals_set.mpr ⟨hlength.symm, fun x hx => hperm.mem_iff.mpr (List.mem_map_of_mem hx)⟩
    | _ => simp [Value.cls] at hcls
  | bag _ _ _ _ hwalk _ =>
    cases hb with
    | bag _ _ _ _ hwalk' =>
      have hperm := bag_keys (walk_nodup hwalk) (walk_nodup hwalk') h
      obtain ⟨hlength, hfound⟩ := equals_bag.mp h
      refine equals_bag.mpr ⟨hlength.symm, fun x hx => ?_⟩
      obtain ⟨y, hy, hkey⟩ := List.mem_map.mp (hperm.mem_iff.mpr (List.mem_map_of_mem hx))
      obtain ⟨n, hn, hn'⟩ := hfound y hy
      rw [hkey] at hn hn'
      exact ⟨n, hn', hn⟩
    | _ => simp [Value.cls] at hcls
  | @object id cls slots _ hslots hcount ih =>
    cases hb with
    | @object _ cls' slots' _ hslots' hcount' =>
      obtain ⟨rfl, hall⟩ := equals_object.mp h
      have hlength : slots.length = slots'.length := hcount.trans hcount'.symm
      have hforall : List.Forall₂ (SlotEquals A) slots slots' :=
        List.forall₂_iff_zip.mpr ⟨hlength, fun hp => hall _ hp⟩
      refine equals_object.mpr ⟨rfl, fun p hp => ?_⟩
      refine (List.forall₂_iff_zip.mp (forall₂_flip hforall fun s hs s' hs' hss' => ?_)).2 hp
      rcases hss' with ⟨rfl, rfl⟩ | ⟨v, w, rfl, rfl, hvw⟩
      · exact .inl ⟨rfl, rfl⟩
      · have hv := hslots _ hs v rfl
        have hw := hslots' _ hs' w rfl
        exact .inr ⟨w, v, rfl, rfl, ih _ hs v rfl hw hvw (hvw.same_cls hone hv hw)⟩
    | _ => simp [Value.cls] at hcls

theorem Equals.trans (huncut : Uncut A D) (hone : OneKeyed D) {a b c : Value α} (ha : In D a)
    (hb : In D b) (hc : In D c) (h : Equals A a b) (h' : Equals A b c) : Equals A a c := by
  have hab := h.same_cls hone ha hb
  have hbc := h'.same_cls hone hb hc
  induction ha generalizing b c with
  | atom _ =>
    obtain rfl := equals_atom.mp h
    exact h'
  | @seq cls id xs hhas hxs ih =>
    cases hb with
    | @seq cls' _ ys hhas' hys =>
      obtain rfl : cls = cls' := by simpa [Value.cls] using hab
      cases hc with
      | @seq cls'' _ zs _ hzs =>
        obtain rfl : cls = cls'' := by simpa [Value.cls] using hbc
        rw [equals_seq_iff huncut hhas hxs hys] at h
        rw [equals_seq_iff huncut hhas hys hzs] at h'
        rw [equals_seq_iff huncut hhas hxs hzs]
        exact forall₂_comp h h' fun x hx y hy z hz hxy hyz => ih x hx (hys y hy) (hzs z hz) hxy hyz
          (hxy.same_cls hone (hxs x hx) (hys y hy)) (hyz.same_cls hone (hys y hy) (hzs z hz))
      | _ => simp [Value.cls] at hbc
    | _ => simp [Value.cls] at hab
  | @dict id es _ _ hvs _ hwalk _ ihv =>
    cases hb with
    | @dict _ fs _ _ hvs' _ hwalk' =>
      cases hc with
      | @dict _ gs _ _ hvs'' _ hwalk'' =>
        obtain ⟨hlength, hfound⟩ := equals_dict.mp h
        obtain ⟨hlength', hfound'⟩ := equals_dict.mp h'
        refine equals_dict.mpr ⟨hlength.trans hlength', fun g hg => ?_⟩
        obtain ⟨w, hw, hwg⟩ := hfound' g hg
        obtain ⟨f, hf, hkey, rfl⟩ := (valueOf_eq_some (walk_nodup hwalk')).mp hw
        obtain ⟨v, hv, hvf⟩ := hfound f hf
        obtain ⟨e, he, hkey', rfl⟩ := (valueOf_eq_some (walk_nodup hwalk)).mp hv
        refine ⟨e.2, hkey ▸ hv, ?_⟩
        have hve := hvs e he
        have hvf' := hvs' f hf
        have hvg := hvs'' g hg
        exact ihv e he hvf' hvg hvf hwg (hvf.same_cls hone hve hvf') (hwg.same_cls hone hvf' hvg)
      | _ => simp [Value.cls] at hbc
    | _ => simp [Value.cls] at hab
  | set _ _ _ _ _ =>
    cases hb with
    | set _ _ _ _ =>
      cases hc with
      | set _ _ _ _ =>
        obtain ⟨hlength, hfound⟩ := equals_set.mp h
        obtain ⟨hlength', hfound'⟩ := equals_set.mp h'
        refine equals_set.mpr ⟨hlength.trans hlength', fun z hz => ?_⟩
        obtain ⟨y, hy, hkey⟩ := List.mem_map.mp (hfound' z hz)
        exact hkey ▸ hfound y hy
      | _ => simp [Value.cls] at hbc
    | _ => simp [Value.cls] at hab
  | bag _ _ _ _ _ _ =>
    cases hb with
    | bag _ _ hpos' _ hwalk' =>
      cases hc with
      | bag _ _ _ _ _ =>
        obtain ⟨hlength, hfound⟩ := equals_bag.mp h
        obtain ⟨hlength', hfound'⟩ := equals_bag.mp h'
        refine equals_bag.mpr ⟨hlength.trans hlength', fun z hz => ?_⟩
        obtain ⟨n, hn, hn'⟩ := hfound' z hz
        obtain ⟨d, hd, hkey, -⟩ := (countOf_eq_some (walk_nodup hwalk')).mp hn
        obtain ⟨m, hm, hm'⟩ := hfound d.1 (key_mem_expand hpos' hd)
        rw [hkey] at hm hm'
        rw [hn] at hm'
        cases hm'
        exact ⟨n, hm, hn'⟩
      | _ => simp [Value.cls] at hbc
    | _ => simp [Value.cls] at hab
  | @object id cls slots _ hslots hcount ih =>
    cases hb with
    | @object _ cls' slots' _ hslots' hcount' =>
      cases hc with
      | @object _ cls'' slots'' _ hslots'' hcount'' =>
        obtain ⟨rfl, hall⟩ := equals_object.mp h
        obtain ⟨rfl, hall'⟩ := equals_object.mp h'
        have hforall : List.Forall₂ (SlotEquals A) slots slots' :=
          List.forall₂_iff_zip.mpr ⟨hcount.trans hcount'.symm, fun hp => hall _ hp⟩
        have hforall' : List.Forall₂ (SlotEquals A) slots' slots'' :=
          List.forall₂_iff_zip.mpr ⟨hcount'.trans hcount''.symm, fun hp => hall' _ hp⟩
        refine equals_object.mpr ⟨rfl, fun p hp => ?_⟩
        refine (List.forall₂_iff_zip.mp
          (forall₂_comp hforall hforall' fun s hs s' hs' s'' hs'' hss hss' => ?_)).2 hp
        rcases hss with ⟨rfl, rfl⟩ | ⟨v, w, rfl, rfl, hvw⟩
        · rcases hss' with ⟨-, rfl⟩ | ⟨_, _, hcontra, -⟩
          · exact .inl ⟨rfl, rfl⟩
          · cases hcontra
        · rcases hss' with ⟨hcontra, -⟩ | ⟨_, u, hw, rfl, hwu⟩
          · cases hcontra
          · cases hw
            have hv := hslots _ hs v rfl
            have hw := hslots' _ hs' w rfl
            have hu := hslots'' _ hs'' u rfl
            exact .inr ⟨v, u, rfl, rfl,
              ih _ hs v rfl hw hu hvw hwu (hvw.same_cls hone hv hw) (hwu.same_cls hone hw hu)⟩
      | _ => simp [Value.cls] at hbc
    | _ => simp [Value.cls] at hab

theorem In.vector_one (h : D.has (.seq .vector)) {a : α} (ha : D.atom a) :
    In D (.seq .vector 0 [.atom a]) :=
  .seq h (by simpa using .atom ha)

theorem In.dict_one (h : D.has .dict) (id : Nat) {k v : Value α} (hk : In D k)
    (hkey : D.IsKey k.key) (hv : In D v) :
    In D (.dict id [(k, v)]) :=
  .dict h (by simpa using hk) (by simpa using hv) (by simpa using hkey) (walk_single hkey)

theorem In.set_one (h : D.has .set) (id : Nat) {x : Value α} (hx : In D x) (hkey : D.IsKey x.key) :
    In D (.set id [x]) :=
  .set h (by simpa using hx) (by simpa using hkey) (walk_single hkey)

theorem In.bag_one (h : D.has .bag) (id : Nat) {x : Value α} (hx : In D x) (hkey : D.IsKey x.key) :
    In D (.bag id [(x, 1)]) :=
  .bag h (by simpa using hx) (by simp) (by simpa using hkey) (walk_single hkey)

theorem Equivalence.uncut (h : Equivalence A D) (hnil : D.atom A.nil) (ht : D.atom A.t) :
    Uncut A D := by
  intro hvector heof
  have hcut : ∀ a, listed A .vector [.atom a] = if a = A.eof then [] else [.atom a] := by
    intro a
    by_cases ha : a = A.eof <;> simp [listed, ha]
  have htcut : Equals A (.seq .vector 0 [.atom A.t]) (.seq .vector 0 [.atom A.eof]) :=
    equals_seq.mpr ⟨rfl, rfl, by simp [hcut]⟩
  have hcutnil : Equals A (.seq .vector 0 [.atom A.eof]) (.seq .vector 0 [.atom A.nil]) :=
    equals_seq.mpr ⟨rfl, rfl, by simp [hcut]⟩
  have hboth :=
    h.trans _ _ _ (.vector_one hvector ht) (.vector_one hvector heof) (.vector_one hvector hnil)
    htcut hcutnil
  obtain ⟨-, -, hall⟩ := equals_seq.mp hboth
  simp [hcut, A.eof_ne_t.symm, A.eof_ne_nil.symm, A.t_ne_nil.symm] at hall

/-- `#{t}` equals `{t t}`, which does not equal it. -/
theorem Equivalence.no_dict_set (h : Equivalence A D) (ht : D.atom A.t) (hdict : D.has .dict)
    (hset : D.has .set) :
    False := by
  have hsym :=
    h.symm (.set 0 [.atom A.t]) (.dict 0 [(.atom A.t, .atom A.t)]) (.set_one hset 0 (.atom ht) ht)
    (.dict_one hdict 0 (.atom ht) ht (.atom ht))
  simp [Equals, eqv, eqvs, mixinTest, keyedItems, every, pairTest, Item.car, Item.cdr, atomTest,
    Value.key, A.t_ne_nil] at hsym

/-- `{nil nil}` equals the bag of nil, which does not equal it. -/
theorem Equivalence.no_dict_bag (h : Equivalence A D) (hnil : D.atom A.nil) (hdict : D.has .dict)
    (hbag : D.has .bag) : False := by
  have hsym := h.symm (.dict 0 [(.atom A.nil, .atom A.nil)]) (.bag 0 [(.atom A.nil, 1)])
    (.dict_one hdict 0 (.atom hnil) hnil (.atom hnil)) (.bag_one hbag 0 (.atom hnil) hnil)
  simp [Equals, eqv, eqvEntries, eqvEntry, mixinTest, keyedItems, expand, every, pairTest, Item.car,
    Item.cdr, atomTest, Value.key, (A.number_ne_nil 1).symm] at hsym

/-- `#{nil}` equals the bag of nil, which does not equal it. -/
theorem Equivalence.no_set_bag (h : Equivalence A D) (hnil : D.atom A.nil) (hset : D.has .set)
    (hbag : D.has .bag) : False := by
  have hsym := h.symm (.set 0 [.atom A.nil]) (.bag 0 [(.atom A.nil, 1)])
    (.set_one hset 0 (.atom hnil) hnil) (.bag_one hbag 0 (.atom hnil) hnil)
  simp [Equals, eqv, eqvs, mixinTest, keyedItems, expand, every, pairTest, Item.car, Item.cdr,
    atomTest, Value.key, (A.number_ne_nil 1).symm] at hsym

theorem Equivalence.oneKeyed (h : Equivalence A D) (hnil : D.atom A.nil) (ht : D.atom A.t) :
    OneKeyed D := by
  intro c d hc hd hkc hkd
  cases c <;> cases d <;> simp [Class.keyed] at hkc hkd ⊢
  case dict.set => exact h.no_dict_set ht hc hd
  case dict.bag => exact h.no_dict_bag hnil hc hd
  case set.dict => exact h.no_dict_set ht hd hc
  case set.bag => exact h.no_set_bag hnil hc hd
  case bag.dict => exact h.no_dict_bag hnil hd hc
  case bag.set => exact h.no_set_bag hnil hd hc

theorem equivalence_iff (hnil : D.atom A.nil) (ht : D.atom A.t) :
    Equivalence A D ↔ Uncut A D ∧ OneKeyed D := by
  constructor
  · exact fun h => ⟨h.uncut hnil ht, h.oneKeyed hnil ht⟩
  · rintro ⟨huncut, hone⟩
    exact ⟨fun _ ha => ha.refl, fun _ _ ha hb h => h.symm huncut hone ha hb,
      fun _ _ _ ha hb hc h h' => h.trans huncut hone ha hb hc h'⟩

/-! ## §4 Contents -/

/-- Where a class with tries occurs, collections are no keys. -/
def AtomKeys (D : Domain α) : Prop := ∀ c, D.has c → c.keyed → ¬ D.nested

omit [DecidableEq α] in
theorem exists_atom_of_isKey (hnested : ¬ D.nested) {v : Value α} (h : D.IsKey v.key) :
    ∃ a, v = .atom a := by
  cases v with
  | atom a => exact ⟨a, rfl⟩
  | _ => exact absurd h hnested

theorem equals_atom_right {a : Value α} {b : α} (h : Equals A a (.atom b)) : a = .atom b := by
  cases a <;> simp [Equals, eqv, atomTest, seqTest, mixinTest, keyedItems, objectTest,
    Value.key] at h ⊢
  exact h.symm

/-- A pair of listed elements is one of elements at the same place. -/
theorem mem_zip_of_listed {cls : SeqClass} {xs ys : List (Value α)} {p : Value α × Value α}
    (h : p ∈ (listed A cls xs).zip (listed A cls ys)) : p ∈ xs.zip ys := by
  rw [← take_listed, ← take_listed A cls ys] at h
  obtain ⟨i, hi⟩ := List.mem_iff_getElem?.mp h
  obtain ⟨hx, hy⟩ := List.getElem?_zip_eq_some.mp hi
  refine List.mem_iff_getElem?.mpr ⟨i, List.getElem?_zip_eq_some.mpr ⟨?_, ?_⟩⟩
  · rw [List.getElem?_take] at hx
    split at hx
    · exact hx
    · cases hx
  · rw [List.getElem?_take] at hy
    split at hy
    · exact hy
    · cases hy

theorem exists_left_of_forall₂ {β γ : Type} {R : β → γ → Prop} {xs : List β} {ys : List γ}
    (h : List.Forall₂ R xs ys) {y : γ} (hy : y ∈ ys) : ∃ x ∈ xs, R x y := by
  induction h with
  | nil => cases hy
  | cons hxy _ ih =>
    rcases List.mem_cons.mp hy with rfl | hy
    · exact ⟨_, List.mem_cons_self, hxy⟩
    · obtain ⟨x, hx, hR⟩ := ih hy
      exact ⟨x, List.mem_cons_of_mem _ hx, hR⟩

theorem length_expand {β : Type} (cs : List (β × Nat)) :
    (expand cs).length = (cs.map Prod.snd).sum := by
  simp [expand, List.length_flatMap]

theorem SameContents.equals (hkeys : AtomKeys D) {a b : Value α} (ha : In D a) (hb : In D b)
    (h : SameContents A a b) : Equals A a b := by
  cases h with
  | seq h =>
    obtain ⟨hlength, hzip⟩ := List.forall₂_iff_zip.mp h
    exact equals_seq.mpr ⟨rfl, hlength, fun p hp => hzip (mem_zip_of_listed hp)⟩
  | @dict i j es fs fs' hperm h =>
    cases ha with
    | dict hcls _ _ _ hwalk =>
      cases hb with
      | dict _ _ _ hkeys' _ =>
        refine equals_dict.mpr ⟨h.length_eq.trans hperm.length_eq, fun f hf => ?_⟩
        obtain ⟨e, he, hk, hv⟩ := exists_left_of_forall₂ h (hperm.mem_iff.mpr hf)
        obtain ⟨k, hfk⟩ := exists_atom_of_isKey (hkeys _ hcls rfl) (hkeys' f hf)
        rw [hfk] at hk ⊢
        rw [← equals_atom_right hk]
        exact ⟨e.2, valueOf_of_mem (walk_nodup hwalk) he, hv⟩
  | @set i j xs ys ys' hperm h =>
    cases ha with
    | set hcls _ _ _ =>
      cases hb with
      | set _ _ hkeys' _ =>
        refine equals_set.mpr ⟨h.length_eq.trans hperm.length_eq, fun y hy => ?_⟩
        obtain ⟨x, hx, hxy⟩ := exists_left_of_forall₂ h (hperm.mem_iff.mpr hy)
        obtain ⟨k, rfl⟩ := exists_atom_of_isKey (hkeys _ hcls rfl) (hkeys' y hy)
        rw [← equals_atom_right hxy]
        exact List.mem_map_of_mem hx
  | @bag i j cs ds ds' hperm h =>
    cases ha with
    | bag hcls _ _ _ hwalk =>
      cases hb with
      | bag _ _ _ hkeys' hwalk' =>
        have hsnd : cs.map Prod.snd = ds'.map Prod.snd := by
          rw [← List.forall₂_eq_eq_eq, List.forall₂_map_left_iff, List.forall₂_map_right_iff]
          exact h.imp fun _ _ hcd => hcd.2
        refine equals_bag.mpr ⟨?_, fun x hx => ?_⟩
        · rw [length_expand, length_expand, hsnd]
          exact (hperm.map Prod.snd).sum_nat
        · obtain ⟨n, hmem, -⟩ := mem_expand.mp hx
          obtain ⟨c, hc, hk, hn⟩ := exists_left_of_forall₂ h (hperm.mem_iff.mpr hmem)
          obtain ⟨k, rfl⟩ := exists_atom_of_isKey (hkeys _ hcls rfl) (hkeys' _ hmem)
          have hcount := countOf_of_mem (walk_nodup hwalk) hc
          rw [equals_atom_right hk, hn] at hcount
          exact ⟨n, hcount, countOf_of_mem (walk_nodup hwalk') hmem⟩

/-- An empty collection of the class. -/
def emptyOf : Class → Nat → Value α
  | .seq cls, id => .seq cls id []
  | .dict, id => .dict id []
  | .set, id => .set id []
  | .bag, id => .bag id []
  | .object, id => .object id 0 []

theorem In.empty {c : Class} (hc : D.has c) (hobject : c ≠ .object) (id : Nat) :
    In D (emptyOf c id) := by
  cases c with
  | seq cls => exact .seq hc (by simp)
  | dict => exact .dict hc (by simp) (by simp) (by simp) walk_nil
  | set => exact .set hc (by simp) (by simp) walk_nil
  | bag => exact .bag hc (by simp) (by simp) (by simp) walk_nil
  | object => exact absurd rfl hobject

theorem equals_empty (c : Class) (i j : Nat) : Equals A (emptyOf c i) (emptyOf c j) := by
  cases c <;> simp [emptyOf, equals_seq, equals_dict, equals_set, equals_bag, equals_object, listed,
    expand]

omit [DecidableEq α] in
theorem key_emptyOf (c : Class) (id : Nat) : (emptyOf c id : Value α).key = .ref id := by
  cases c <;> rfl

/-- A collection of the class with the one key or element. -/
def oneOf (A : Atoms α) : Class → Value α → Value α
  | .dict, k => .dict 0 [(k, .atom A.t)]
  | .set, k => .set 0 [k]
  | .bag, k => .bag 0 [(k, 1)]
  | _, k => k

theorem In.oneOf {c : Class} (hc : D.has c) (hkeyed : c.keyed) (ht : D.atom A.t) {k : Value α}
    (hk : In D k) (hkey : D.IsKey k.key) : In D (oneOf A c k) := by
  cases c with
  | dict => exact .dict_one hc 0 hk hkey (.atom ht)
  | set => exact .set_one hc 0 hk hkey
  | bag => exact .bag_one hc 0 hk hkey
  | _ => cases hkeyed

theorem sameContents_oneOf {c : Class} (hkeyed : c.keyed) {k k' : Value α} (h : Equals A k k') :
    SameContents A (oneOf A c k) (oneOf A c k') := by
  cases c with
  | dict => exact .dict (.refl _) (by simpa using h)
  | set => exact .set (.refl _) (by simpa using h)
  | bag => exact .bag (.refl _) (by simpa using h)
  | _ => cases hkeyed

/-- The keys are compared by `EQUAL`. -/
theorem not_equals_oneOf {c : Class} (hkeyed : c.keyed) {k k' : Value α} (h : k.key ≠ k'.key) :
    ¬ Equals A (oneOf A c k) (oneOf A c k') := by
  have hne : (k'.key == k.key) = false := beq_false_of_ne h.symm
  cases c with
  | dict => simp [oneOf, equals_dict, valueOf, List.lookup_cons, hne]
  | set => simp [oneOf, equals_set, h.symm]
  | bag => simp [oneOf, equals_bag, expand, countOf, List.lookup_cons, hne]
  | _ => cases hkeyed

theorem contentLaw_iff (ht : D.atom A.t) : ContentLaw A D ↔ AtomKeys D := by
  constructor
  · intro h c hc hkeyed hnested
    have hobject : c ≠ .object := by
      rintro rfl
      cases hkeyed
    have hin : ∀ id, In D (oneOf A c (emptyOf c id)) := fun id =>
      .oneOf hc hkeyed ht (.empty hc hobject id) ((key_emptyOf c id).symm ▸ hnested)
    refine not_equals_oneOf hkeyed ?_
      (h _ _ (hin 1) (hin 2) (sameContents_oneOf hkeyed (equals_empty c 1 2)))
    simp [key_emptyOf]
  · exact fun hkeys a b ha hb h => h.equals hkeys ha hb

/-! ## §5 Agreement -/

/-- The elements and keys of these classes are not read by value. -/
def Class.flat : Class → Bool
  | .set => true
  | .bag => true
  | _ => false

structure Agreeable (A : Atoms α) (D : Domain α) : Prop where
  noObject : ¬ D.has .object
  atomKeys : AtomKeys D
  canonical : ∀ c, D.has c → c.keyed → D.Canonical
  uncut : Uncut A D
  oneClass : ∀ c d, D.has c → D.has d → c = d ∨ (c.flat ∧ d.flat)

theorem forall₂_mono {β γ : Type} {R S : β → γ → Prop} {xs : List β} {ys : List γ}
    (h : List.Forall₂ R xs ys) (hRS : ∀ x ∈ xs, ∀ y ∈ ys, R x y → S x y) : List.Forall₂ S xs ys :=
  (forall₂_flip h hRS).flip

theorem equalQ_atom_right {a : Value α} {b : α} (h : EqualQ A a (.atom b)) : a = .atom b := by
  cases a <;> simp [EqualQ, equalQ, collQ, items, keyedItems, Value.key] at h ⊢
  exact h.symm

theorem equalQ_of_atoms {xs ys : List (Value α)} (hxs : ∀ x ∈ xs, ∃ a, x = .atom a) :
    List.Forall₂ (EqualQ A) xs ys ↔ xs = ys := by
  rw [← List.forall₂_eq_eq_eq]
  constructor
  · intro h
    refine forall₂_mono h fun x hx y _ hxy => ?_
    obtain ⟨a, rfl⟩ := hxs x hx
    exact (equalQ_atom.mp hxy).symm
  · intro h
    refine forall₂_mono h fun x hx y _ hxy => ?_
    obtain ⟨a, rfl⟩ := hxs x hx
    exact equalQ_atom.mpr hxy.symm

omit [DecidableEq α] in
/-- Atoms with the same keys are the same. -/
theorem eq_of_keys_eq {xs ys : List (Value α)} (hxs : ∀ x ∈ xs, ∃ a, x = .atom a)
    (h : xs.map Value.key = ys.map Value.key) : xs = ys := by
  rw [← List.forall₂_eq_eq_eq, List.forall₂_map_left_iff, List.forall₂_map_right_iff] at h
  rw [← List.forall₂_eq_eq_eq]
  refine forall₂_mono h fun x hx y _ hxy => ?_
  obtain ⟨a, rfl⟩ := hxs x hx
  exact (key_eq_atom.mp hxy.symm).symm

section Agreeable

variable (hA : Agreeable A D)
include hA

omit [DecidableEq α] in
theorem Agreeable.atoms {c : Class} (hc : D.has c) (hkeyed : c.keyed) {xs : List (Value α)}
    (hxs : ∀ x ∈ xs, D.IsKey x.key) : ∀ x ∈ xs, ∃ a, x = .atom a :=
  fun x hx => exists_atom_of_isKey (hA.atomKeys c hc hkeyed) (hxs x hx)

/-- The parts of a collection that is no set and no bag are atoms or of its class. -/
theorem Agreeable.parts {c : Class} (hc : D.has c) (hflat : c.flat = false) {x y : Value α}
    (hx : In D x) (hy : In D y) : x.cls = y.cls ∨ x.cls = none ∨ y.cls = none := by
  cases hcx : x.cls with
  | none => exact .inr (.inl rfl)
  | some d =>
    cases hcy : y.cls with
    | none => exact .inr (.inr rfl)
    | some d' =>
      have hof : ∀ {d}, D.has d → c = d := by
        intro d hd
        rcases hA.oneClass c d hc hd with h | ⟨h, -⟩
        · exact h
        · rw [hflat] at h
          cases h
      rw [← hof (hx.has hcx), ← hof (hy.has hcy)]
      exact .inl rfl

theorem Agreeable.seq {cls : SeqClass} {i j : Nat} {xs ys : List (Value α)}
    (hcls : D.has (.seq cls)) (hxs : ∀ x ∈ xs, In D x) (hys : ∀ y ∈ ys, In D y)
    (ih : ∀ x ∈ xs, ∀ y, In D y → (x.cls = y.cls ∨ x.cls = none ∨ y.cls = none) →
      (EqualQ A x y ↔ Equals A x y)) :
    EqualQ A (.seq cls i xs) (.seq cls j ys) ↔ Equals A (.seq cls i xs) (.seq cls j ys) := by
  rw [equals_seq_iff hA.uncut hcls hxs hys, equalQ_seq, listed_eq hA.uncut hcls hxs,
    listed_eq hA.uncut hcls hys]
  have hiff : ∀ x ∈ xs, ∀ y ∈ ys, (EqualQ A x y ↔ Equals A x y) := fun x hx y hy =>
    ih x hx y (hys y hy) (hA.parts hcls rfl (hxs x hx) (hys y hy))
  constructor
  · exact fun h => forall₂_mono h.2 fun x hx y hy => (hiff x hx y hy).mp
  · exact fun h => ⟨h.length_eq, forall₂_mono h fun x hx y hy => (hiff x hx y hy).mpr⟩

theorem Agreeable.dict {i j : Nat} {es fs : List (Value α × Value α)} (ha : In D (.dict i es))
    (hb : In D (.dict j fs))
    (ih : ∀ e ∈ es, ∀ y, In D y → (e.2.cls = y.cls ∨ e.2.cls = none ∨ y.cls = none) →
      (EqualQ A e.2 y ↔ Equals A e.2 y)) :
    EqualQ A (.dict i es) (.dict j fs) ↔ Equals A (.dict i es) (.dict j fs) := by
  cases ha with
  | dict hcls _ hvs hkeys hwalk =>
    cases hb with
    | dict _ _ hvs' hkeys' hwalk' =>
      have hiff : ∀ e ∈ es, ∀ f ∈ fs, (EqualQ A e.2 f.2 ↔ Equals A e.2 f.2) := fun e he f hf =>
        ih e he f.2 (hvs' f hf) (hA.parts hcls rfl (hvs e he) (hvs' f hf))
      have hatom : ∀ e ∈ es, ∃ a, e.1 = .atom a := fun e he =>
        exists_atom_of_isKey (hA.atomKeys _ hcls rfl) (hkeys e he)
      rw [equalQ_dict]
      constructor
      · intro h
        refine equals_dict.mpr ⟨h.length_eq, fun f hf => ?_⟩
        obtain ⟨e, he, hk, hv⟩ := exists_left_of_forall₂ h hf
        obtain ⟨a, hea⟩ := hatom e he
        rw [hea, equalQ_atom, ← hea] at hk
        rw [hk]
        exact ⟨e.2, valueOf_of_mem (walk_nodup hwalk) he, (hiff e he f hf).mp hv⟩
      · intro h
        have hperm := dict_keys (walk_nodup hwalk') (walk_nodup hwalk) h
        have hkeys_eq := (hA.canonical _ hcls rfl).walk_eq hwalk hwalk' hperm.symm
        rw [← List.forall₂_eq_eq_eq, List.forall₂_map_left_iff,
          List.forall₂_map_right_iff] at hkeys_eq
        obtain ⟨-, hfound⟩ := equals_dict.mp h
        refine forall₂_mono hkeys_eq fun e he f hf hkey => ?_
        obtain ⟨v, hv, hvf⟩ := hfound f hf
        rw [← hkey, valueOf_of_mem (walk_nodup hwalk) he] at hv
        cases hv
        obtain ⟨a, hea⟩ := hatom e he
        refine ⟨?_, (hiff e he f hf).mpr hvf⟩
        rw [hea] at hkey ⊢
        rw [equalQ_atom]
        exact key_eq_atom.mp hkey.symm

theorem Agreeable.set {i j : Nat} {xs ys : List (Value α)} (ha : In D (.set i xs))
    (hb : In D (.set j ys)) :
    EqualQ A (.set i xs) (.set j ys) ↔ Equals A (.set i xs) (.set j ys) := by
  cases ha with
  | set hcls _ hkeys hwalk =>
    cases hb with
    | set _ _ _ hwalk' =>
      have hatom := hA.atoms hcls rfl hkeys
      rw [equalQ_set, equalQ_of_atoms hatom]
      constructor
      · rintro rfl
        exact equals_set.mpr ⟨rfl, fun y hy => List.mem_map_of_mem hy⟩
      · intro h
        have hperm := set_keys (walk_nodup hwalk') h
        exact eq_of_keys_eq hatom ((hA.canonical _ hcls rfl).walk_eq hwalk hwalk' hperm.symm)

theorem Agreeable.bag {i j : Nat} {cs ds : List (Value α × Nat)} (ha : In D (.bag i cs))
    (hb : In D (.bag j ds)) :
    EqualQ A (.bag i cs) (.bag j ds) ↔ Equals A (.bag i cs) (.bag j ds) := by
  cases ha with
  | bag hcls _ hpos hkeys hwalk =>
    cases hb with
    | bag _ _ hpos' _ hwalk' =>
      have hcs := walk_nodup hwalk
      have hds := walk_nodup hwalk'
      have hatom : ∀ x ∈ expand cs, ∃ a, x = .atom a := by
        intro x hx
        obtain ⟨n, hmem, -⟩ := mem_expand.mp hx
        exact exists_atom_of_isKey (hA.atomKeys _ hcls rfl) (hkeys _ hmem)
      rw [equalQ_bag, equalQ_of_atoms hatom]
      constructor
      · intro h
        refine equals_bag.mpr ⟨congrArg List.length h, fun x hx => ?_⟩
        obtain ⟨n, hmem, -⟩ := mem_expand.mp hx
        obtain ⟨m, hmem', -⟩ := mem_expand.mp (h ▸ hx : x ∈ expand cs)
        have hn := countOf_of_mem hds hmem
        have hm := countOf_of_mem hcs hmem'
        have hcount := count_expand hcs x.key
        rw [h, count_expand hds, hn, hm] at hcount
        obtain rfl : n = m := hcount
        exact ⟨n, hm, hn⟩
      · intro h
        have hperm := bag_keys hcs hds h
        have hkeysPerm : (cs.map fun c => c.1.key).Perm (ds.map fun d => d.1.key) := by
          rw [List.perm_ext_iff_of_nodup hcs hds]
          intro k
          rw [mem_keys_iff hpos, mem_keys_iff hpos', hperm.mem_iff]
        have hkeys_eq := (hA.canonical _ hcls rfl).walk_eq hwalk hwalk' hkeysPerm
        have hpairs : cs.map (fun c => (c.1.key, c.2)) = ds.map fun d => (d.1.key, d.2) := by
          rw [← List.forall₂_eq_eq_eq, List.forall₂_map_left_iff,
            List.forall₂_map_right_iff] at hkeys_eq ⊢
          refine forall₂_mono hkeys_eq fun c hc d hd hkey => ?_
          obtain ⟨n, hn, hn'⟩ := (equals_bag.mp h).2 d.1 (key_mem_expand hpos' hd)
          rw [← hkey, countOf_of_mem hcs hc] at hn
          rw [countOf_of_mem hds hd] at hn'
          rw [hkey, Option.some.inj hn, Option.some.inj hn']
        refine eq_of_keys_eq hatom ?_
        rw [← expand_map, ← expand_map, hpairs]

theorem Agreeable.agree {a b : Value α} (ha : In D a) (hb : In D b)
    (hcls : a.cls = b.cls ∨ a.cls = none ∨ b.cls = none) : EqualQ A a b ↔ Equals A a b := by
  have hright : ∀ {c : α} {a : Value α}, EqualQ A a (.atom c) ↔ Equals A a (.atom c) := by
    intro c a
    constructor
    · intro h
      rw [equalQ_atom_right h]
      simp
    · intro h
      rw [equals_atom_right h]
      simp
  induction ha generalizing b with
  | atom _ => simp
  | seq hhas hxs ih =>
    cases hb with
    | atom _ => exact hright
    | seq hhas' hys =>
      obtain rfl := by simpa [Value.cls] using hcls
      exact hA.seq hhas hxs hys fun x hx y hy hxy => ih x hx hy hxy
    | _ => simp [Value.cls] at hcls
  | dict hhas hks hvs hkeys hwalk _ ihv =>
    cases hb with
    | atom _ => exact hright
    | dict hhas' hks' hvs' hkeys' hwalk' =>
      exact hA.dict (.dict hhas hks hvs hkeys hwalk) (.dict hhas' hks' hvs' hkeys' hwalk')
        fun e he y hy hxy =>
        ihv e he hy hxy
    | _ => simp [Value.cls] at hcls
  | set hhas hxs hkeys hwalk _ =>
    cases hb with
    | atom _ => exact hright
    | set hhas' hxs' hkeys' hwalk' =>
        exact hA.set (.set hhas hxs hkeys hwalk) (.set hhas' hxs' hkeys' hwalk')
    | _ => simp [Value.cls] at hcls
  | bag hhas hcs hpos hkeys hwalk _ =>
    cases hb with
    | atom _ => exact hright
    | bag hhas' hcs' hpos' hkeys' hwalk' =>
      exact hA.bag (.bag hhas hcs hpos hkeys hwalk) (.bag hhas' hcs' hpos' hkeys' hwalk')
    | _ => simp [Value.cls] at hcls
  | object hhas _ _ _ => exact absurd hhas hA.noObject

end Agreeable

/-- Every key of a trie of the domain is one of the domain. -/
theorem isKey_of_walk {keys : List (Key α)} (h : D.Walk keys) {k : Key α} (hk : k ∈ keys) :
    D.IsKey k := by
  obtain ⟨ops, trie, hops, hrun, rfl⟩ := h
  exact HashTrie.run_keys hops hrun k hk

/-- The atom of a key. -/
def Value.ofKey : Key α → Value α
  | .atom a => .atom a
  | .ref id => .set id []

omit [DecidableEq α] in
theorem ofKey_of_isKey (hnested : ¬ D.nested) {k : Key α} (hk : D.IsKey k) :
    ∃ a, k = .atom a ∧ D.atom a ∧ Value.ofKey k = .atom a := by
  cases k with
  | atom a => exact ⟨a, rfl, hk, rfl⟩
  | ref id => exact absurd hk hnested

/-- A collection of the class with these keys or elements. -/
def ofKeys (A : Atoms α) : Class → List (Key α) → Value α
  | .dict, ks => .dict 0 (ks.map fun k => (Value.ofKey k, .atom A.t))
  | .set, ks => .set 0 (ks.map Value.ofKey)
  | .bag, ks => .bag 0 (ks.map fun k => (Value.ofKey k, 1))
  | _, _ => .atom A.t

section Orders

variable {c : Class} {ks ks' : List (Key α)}

theorem In.ofKeys (hc : D.has c) (hkeyed : c.keyed) (hnested : ¬ D.nested) (ht : D.atom A.t)
    (hwalk : D.Walk ks) :
    In D (ofKeys A c ks) := by
  have hkey : ∀ k ∈ ks, (Value.ofKey k).key = k ∧ In D (Value.ofKey k) ∧
    D.IsKey (Value.ofKey k).key := by
    intro k hk
    obtain ⟨a, rfl, ha, -⟩ := ofKey_of_isKey hnested (isKey_of_walk hwalk hk)
    exact ⟨rfl, .atom ha, ha⟩
  have hmap : ks.map (fun k => (Value.ofKey k).key) = ks :=
    (List.map_congr_left fun k hk => (hkey k hk).1).trans (List.map_id ks)
  cases c with
  | dict =>
    refine .dict hc ?_ ?_ ?_ ?_
    · simpa using fun k hk => (hkey k hk).2.1
    · simpa using fun k _ => .atom ht
    · simpa using fun k hk => (hkey k hk).2.2
    · simpa [Function.comp_def, hmap] using hwalk
  | set =>
    refine .set hc ?_ ?_ ?_
    · simpa using fun k hk => (hkey k hk).2.1
    · simpa using fun k hk => (hkey k hk).2.2
    · simpa [Function.comp_def, hmap] using hwalk
  | bag =>
    refine .bag hc ?_ ?_ ?_ ?_
    · simpa using fun k hk => (hkey k hk).2.1
    · simp
    · simpa using fun k hk => (hkey k hk).2.2
    · simpa [Function.comp_def, hmap] using hwalk
  | _ => cases hkeyed

omit [DecidableEq α] in
theorem cls_ofKeys (hkeyed : c.keyed) : (ofKeys A c ks).cls = some c := by
  cases c with
  | dict => rfl
  | set => rfl
  | bag => rfl
  | _ => cases hkeyed

theorem sameContents_ofKeys (hkeyed : c.keyed) (hperm : ks.Perm ks') (hin : In D (ofKeys A c ks)) :
    SameContents A (ofKeys A c ks) (ofKeys A c ks') := by
  cases c with
  | dict =>
    cases hin with
    | dict _ hks hvs _ _ =>
      refine .dict (hperm.map _) (List.forall₂_same.mpr fun e he =>
        ⟨(hks e he).refl, (hvs e he).refl⟩)
  | set =>
    cases hin with
    | set _ hxs _ _ => exact .set (hperm.map _) (List.forall₂_same.mpr fun x hx => (hxs x hx).refl)
  | bag =>
    cases hin with
    | bag _ hcs _ _ _ =>
        exact .bag (hperm.map _) (List.forall₂_same.mpr fun x hx => ⟨(hcs x hx).refl, rfl⟩)
  | _ => cases hkeyed

theorem eq_of_equalQ_ofKeys (hkeyed : c.keyed) (hnested : ¬ D.nested) (hwalk : D.Walk ks)
    (hwalk' : D.Walk ks') (h : EqualQ A (ofKeys A c ks) (ofKeys A c ks')) : ks = ks' := by
  have hkeys : List.Forall₂ (fun k k' => EqualQ A (Value.ofKey k) (Value.ofKey k')) ks ks' := by
    cases c with
    | dict =>
      rw [ofKeys, ofKeys, equalQ_dict, List.forall₂_map_left_iff, List.forall₂_map_right_iff] at h
      exact h.imp fun _ _ hk => hk.1
    | set =>
      rwa [ofKeys, ofKeys, equalQ_set, List.forall₂_map_left_iff, List.forall₂_map_right_iff] at h
    | bag =>
      have hexpand : ∀ ks : List (Key α), expand (ks.map fun k => (Value.ofKey k, 1)) =
        ks.map Value.ofKey := by
        intro ks
        induction ks with
        | nil => rfl
        | cons k ks ih => simpa [expand] using ih
      rwa [ofKeys, ofKeys, equalQ_bag, hexpand, hexpand, List.forall₂_map_left_iff,
        List.forall₂_map_right_iff] at h
    | _ => cases hkeyed
  rw [← List.forall₂_eq_eq_eq]
  refine forall₂_mono hkeys fun k hk k' hk' hkk' => ?_
  obtain ⟨a, rfl, -, hof⟩ := ofKey_of_isKey hnested (isKey_of_walk hwalk hk)
  obtain ⟨a', rfl, -, hof'⟩ := ofKey_of_isKey hnested (isKey_of_walk hwalk' hk')
  rw [hof, hof', equalQ_atom] at hkk'
  cases hkk'
  rfl

end Orders

/-- Two objects are equal by their slots, and for `equal?` only if they are one. -/
theorem Agreement.noObject (h : Agreement A D) : ¬ D.has .object := by
  intro hobject
  have hin : ∀ id, In D (.object id 0 (List.replicate (D.slotCount 0) none)) := fun id =>
    .object hobject (by simp) (by simp)
  have heq : Equals A (.object 1 0 (List.replicate (D.slotCount 0) none))
      (.object 2 0 (List.replicate (D.slotCount 0) none)) :=
    equals_object.mpr ⟨rfl, forall_zip_self fun s hs =>
      .inl ⟨List.eq_of_mem_replicate hs, List.eq_of_mem_replicate hs⟩⟩
  have hq := (h _ _ (hin 1) (hin 2) rfl).mpr heq
  simp [EqualQ, equalQ] at hq

theorem equalQ_empty {c d : Class} (hc : c ≠ .object) (hd : d ≠ .object) (i j : Nat) :
    EqualQ A (emptyOf c i) (emptyOf d j) := by
  cases c <;> cases d <;>
    first
    | exact absurd rfl hc
    | exact absurd rfl hd
    | simp [EqualQ, equalQ, emptyOf, collQ, items, keyedItems, listed, expand, elemQs, entryQs,
        countQs, seqQ]

theorem equalQ_oneOf {c : Class} (hkeyed : c.keyed) {k k' : Value α} (h : EqualQ A k k') :
    EqualQ A (oneOf A c k) (oneOf A c k') := by
  cases c with
  | dict => simpa [oneOf, equalQ_dict] using h
  | set => simpa [oneOf, equalQ_set] using h
  | bag => simpa [oneOf, equalQ_bag, expand] using h
  | _ => cases hkeyed

omit [DecidableEq α] in
theorem cls_oneOf {c : Class} (hkeyed : c.keyed) (k : Value α) : (oneOf A c k).cls = some c := by
  cases c with
  | dict => rfl
  | set => rfl
  | bag => rfl
  | _ => cases hkeyed

omit [DecidableEq α] in
theorem ne_object_of_keyed {c : Class} (hkeyed : c.keyed) : c ≠ .object := by
  rintro rfl
  cases hkeyed

theorem Agreement.atomKeys (h : Agreement A D) (ht : D.atom A.t) : AtomKeys D := by
  intro c hc hkeyed hnested
  have hobject := ne_object_of_keyed hkeyed
  have hin : ∀ id, In D (oneOf A c (emptyOf c id)) := fun id =>
    .oneOf hc hkeyed ht (.empty hc hobject id) ((key_emptyOf c id).symm ▸ hnested)
  have hcls : (oneOf A c (emptyOf c 1)).cls = (oneOf A c (emptyOf c 2)).cls := by
    rw [cls_oneOf hkeyed, cls_oneOf hkeyed]
  refine not_equals_oneOf hkeyed ?_ ((h _ _ (hin 1) (hin 2) hcls).mp
    (equalQ_oneOf hkeyed (equalQ_empty hobject hobject 1 2)))
  simp [key_emptyOf]

theorem Agreement.canonical (h : Agreement A D) (ht : D.atom A.t) {c : Class} (hc : D.has c)
    (hkeyed : c.keyed) :
    D.Canonical := by
  intro k k' hk hk' hhash
  by_contra hne
  have hwalk := walk_pair hk hk' hne hhash
  have hwalk' := walk_pair hk' hk (Ne.symm hne) hhash.symm
  have hkeys := h.atomKeys ht
  have hnested := hkeys c hc hkeyed
  have hin : In D (ofKeys A c [k, k']) := .ofKeys hc hkeyed hnested ht hwalk
  have hin' : In D (ofKeys A c [k', k]) := .ofKeys hc hkeyed hnested ht hwalk'
  have hcls : (ofKeys A c [k, k']).cls = (ofKeys A c [k', k]).cls := by
    rw [cls_ofKeys hkeyed, cls_ofKeys hkeyed]
  have heq := (sameContents_ofKeys hkeyed (.swap k' k []) hin).equals hkeys hin hin'
  have hsame := eq_of_equalQ_ofKeys hkeyed hnested hwalk hwalk' ((h _ _ hin hin' hcls).mpr heq)
  exact hne (List.cons.inj hsame).1

/-- `[t :eof]` equals `[t nil]`, and for `equal?` it does not. -/
theorem Agreement.uncut (h : Agreement A D) (hnil : D.atom A.nil) (ht : D.atom A.t) :
    Uncut A D := by
  intro hvector heof
  have hin : ∀ a, D.atom a → In D (.seq .vector 0 [.atom A.t, .atom a]) := fun a ha =>
    .seq hvector (by simpa using ⟨.atom ht, .atom ha⟩)
  have hcut : listed A .vector [.atom A.t, .atom A.eof] = [.atom A.t] := by
    simp [listed, A.eof_ne_t.symm]
  have hall : listed A .vector [.atom A.t, .atom A.nil] = [.atom A.t, .atom A.nil] := by
    simp [listed, A.eof_ne_t.symm, A.eof_ne_nil.symm]
  have heq : Equals A (.seq .vector 0 [.atom A.t, .atom A.eof])
    (.seq .vector 0 [.atom A.t, .atom A.nil]) :=
    equals_seq.mpr ⟨rfl, rfl, by simp [hcut, hall]⟩
  have hq := (h _ _ (hin _ heof) (hin _ hnil) rfl).mpr heq
  rw [equalQ_seq, hcut, hall] at hq
  simp at hq

/-- A sequence that holds an empty collection of its class is for `equal?` one that holds an empty
collection of another class. -/
theorem Agreement.no_seq (h : Agreement A D) {cls : SeqClass} {d : Class} (hc : D.has (.seq cls))
    (hd : D.has d) (hobject : d ≠ .object) : d = .seq cls := by
  by_contra hne
  have hin : ∀ v, In D v → In D (.seq cls 0 [v]) := fun v hv => .seq hc (by simpa using hv)
  have hempty : ∀ {c : Class}, D.has c → c ≠ .object → In D (emptyOf c 1) :=
    fun hc hobject => .empty hc hobject 1
  have hlisted : ∀ c, c ≠ .object → listed A cls [emptyOf c 1] = [emptyOf c 1] := by
    intro c hobject
    cases c <;> simp [listed, emptyOf]
  have hseq : Class.seq cls ≠ .object := by simp
  have hq : EqualQ A (.seq cls 0 [emptyOf (.seq cls) 1]) (.seq cls 0 [emptyOf d 1]) := by
    rw [equalQ_seq, hlisted _ hseq, hlisted _ hobject]
    simpa using equalQ_empty hseq hobject 1 1
  have heq := (h _ _ (hin _ (hempty hc hseq)) (hin _ (hempty hd hobject)) rfl).mp hq
  rw [equals_seq, hlisted _ hseq, hlisted _ hobject] at heq
  have hinner : Equals A (emptyOf (.seq cls) 1) (emptyOf d 1) := by simpa using heq
  cases d with
  | seq cls' =>
    obtain ⟨rfl, -⟩ := equals_seq.mp hinner
    exact hne rfl
  | object => exact hobject rfl
  | _ => simp [emptyOf, Equals, eqv, seqTest] at hinner

/-- `{t #{t}}` equals `{t {t t}}`, and for `equal?` it does not. -/
theorem Agreement.no_dict_set (h : Agreement A D) (ht : D.atom A.t) (hdict : D.has .dict)
    (hset : D.has .set) :
    False := by
  have hin : ∀ v, In D v → In D (.dict 0 [(.atom A.t, v)]) :=
    fun v hv => .dict_one hdict 0 (.atom ht) ht hv
  have hiff := h _ _ (hin _ (.set_one hset 1 (.atom ht) ht))
    (hin _ (.dict_one hdict 1 (.atom ht) ht (.atom ht))) rfl
  simp [EqualQ, Equals, eqv, eqvs, eqvEntries, eqvEntry, mixinTest, keyedItems, every, pairTest,
    Item.car, Item.cdr, atomTest, Value.key, equalQ, entryQs, entryQ, elemQs, elemQ, collQ, items,
    seqQ, pairQ] at hiff

/-- `{t {nil nil}}` equals the dict of t and the bag of nil, and for `equal?` it does not. -/
theorem Agreement.no_dict_bag (h : Agreement A D) (hnil : D.atom A.nil) (ht : D.atom A.t)
    (hdict : D.has .dict) (hbag : D.has .bag) : False := by
  have hin : ∀ v, In D v → In D (.dict 0 [(.atom A.t, v)]) :=
    fun v hv => .dict_one hdict 0 (.atom ht) ht hv
  have hiff := h _ _ (hin _ (.dict_one hdict 1 (.atom hnil) hnil (.atom hnil)))
    (hin _ (.bag_one hbag 1 (.atom hnil) hnil)) rfl
  simp [EqualQ, Equals, eqv, eqvEntries, eqvEntry, mixinTest, keyedItems, every, pairTest, Item.car,
    Item.cdr, atomTest, Value.key, equalQ, entryQs, entryQ, collQ, items, seqQ, pairQ,
    expand] at hiff

theorem Agreement.oneClass (h : Agreement A D) (hnil : D.atom A.nil) (ht : D.atom A.t) {c d : Class}
    (hc : D.has c) (hd : D.has d) : c = d ∨ (c.flat ∧ d.flat) := by
  have hobject := h.noObject
  have hne : ∀ {c}, D.has c → c ≠ .object := by
    rintro c hc rfl
    exact hobject hc
  cases c with
  | seq cls => exact .inl (h.no_seq hc hd (hne hd)).symm
  | object => exact absurd hc hobject
  | dict =>
    cases d with
    | seq cls => exact .inl (h.no_seq hd hc (hne hc))
    | dict => exact .inl rfl
    | set => exact (h.no_dict_set ht hc hd).elim
    | bag => exact (h.no_dict_bag hnil ht hc hd).elim
    | object => exact absurd hd hobject
  | set =>
    cases d with
    | seq cls => exact .inl (h.no_seq hd hc (hne hc))
    | dict => exact (h.no_dict_set ht hd hc).elim
    | set => exact .inl rfl
    | bag => exact .inr ⟨rfl, rfl⟩
    | object => exact absurd hd hobject
  | bag =>
    cases d with
    | seq cls => exact .inl (h.no_seq hd hc (hne hc))
    | dict => exact (h.no_dict_bag hnil ht hd hc).elim
    | set => exact .inr ⟨rfl, rfl⟩
    | bag => exact .inl rfl
    | object => exact absurd hd hobject

theorem agreement_iff (hnil : D.atom A.nil) (ht : D.atom A.t) : Agreement A D ↔ Agreeable A D := by
  constructor
  · intro h
    exact ⟨h.noObject, h.atomKeys ht, fun c hc hkeyed => h.canonical ht hc hkeyed, h.uncut hnil ht,
      fun c d hc hd => h.oneClass hnil ht hc hd⟩
  · exact fun hA a b ha hb hcls => hA.agree ha hb (.inl hcls)

/-! ## §6 Result -/

/-- NIL, T and `:eof` are 0, 1 and 2. -/
def sample : Atoms Nat where
  nil := 0
  t := 1
  eof := 2
  number n := n + 3
  t_ne_nil := by decide
  eof_ne_nil := by decide
  eof_ne_t := by decide
  number_ne_nil n := by simp

/-- Vectors, lists, dicts and objects over the atoms but `:eof`, with collections as keys. -/
def sampleDomain : Domain Nat where
  hash _ := 0
  atom a := a ≠ 2
  has c := c = .seq .vector ∨ c = .seq .list ∨ c = .dict ∨ c = .object
  nested := True
  slotCount cls := cls

/-- Dicts over the atoms but `:eof`, with atoms of different hashes as keys. -/
def dictDomain : Domain Nat where
  hash
    | .atom a => a
    | .ref id => id
  atom a := a ≠ 2
  has c := c = .dict
  nested := False
  slotCount cls := cls

/-- All values. -/
def allValues : Domain Nat where
  hash _ := 0
  atom _ := True
  has _ := True
  nested := True
  slotCount cls := cls

end Fol.Values
