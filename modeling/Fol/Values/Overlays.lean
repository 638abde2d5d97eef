/-
Fol.Values.Overlays — what is stored under a key of the dicts and what is in the sets that `diff`
makes, and when the overlay of two of them equals a third.
-/
import Fol.Values.Diff

namespace Fol.Values

variable {α : Type} [DecidableEq α] {K : Keywords α} {fresh : Nat}

/-! ## §1 Entries -/

theorem valueOf_cons (e : Value α × Value α) (es : Entries α) (k : Key α) :
    valueOf (e :: es) k = if k = e.1.key then some e.2 else valueOf es k := by
  simp only [valueOf, List.map_cons, List.lookup_cons, beq_eq_decide]
  split <;> simp_all

@[simp] theorem valueOf_nil (k : Key α) : valueOf ([] : Entries α) k = none := rfl

omit [DecidableEq α] in
@[simp] theorem keysOf_cons (e : Value α × Value α) (es : Entries α) :
    keysOf (e :: es) = e.1.key :: keysOf es := rfl

theorem valueOf_eq_none {es : Entries α} {k : Key α} : valueOf es k = none ↔ k ∉ keysOf es := by
  induction es with
  | nil => simp
  | cons e es ih =>
    rw [valueOf_cons, keysOf_cons, List.mem_cons, not_or, ← ih]
    split <;> simp_all

theorem exists_valueOf {es : Entries α} {k : Key α} (h : k ∈ keysOf es) :
    ∃ e ∈ es, e.1.key = k ∧ valueOf es k = some e.2 := by
  induction es with
  | nil => cases h
  | cons e es ih =>
    rw [valueOf_cons]
    by_cases hk : k = e.1.key
    · exact ⟨e, List.mem_cons_self, hk.symm, if_pos hk⟩
    · obtain ⟨f, hf, hkey, hv⟩ := ih ((List.mem_cons.mp h).resolve_left hk)
      exact ⟨f, List.mem_cons_of_mem e hf, hkey, (if_neg hk).trans hv⟩

theorem valueOf_append (es fs : Entries α) (k : Key α) :
    valueOf (es ++ fs) k = (valueOf es k).or (valueOf fs k) := by
  induction es with
  | nil => simp
  | cons e es ih =>
    rw [List.cons_append, valueOf_cons, valueOf_cons, ih]
    split <;> simp

theorem eq_nil_of_valueOf {es : Entries α} (h : ∀ k, valueOf es k = none) : es = [] := by
  cases es with
  | nil => rfl
  | cons e es => simpa [valueOf_cons] using h e.1.key

@[simp] theorem valueOf_put (es : Entries α) (key value : Value α) (k : Key α) :
    valueOf (put es key value) k = if k = key.key then some value else valueOf es k := by
  induction es with
  | nil => simp [put, valueOf_cons]
  | cons e es ih =>
    rw [put]
    split
    · next h =>
      rw [valueOf_cons, valueOf_cons, h]
      split <;> rfl
    · next h =>
      rw [valueOf_cons, valueOf_cons, ih]
      split
      · next hk => rw [if_neg (hk ▸ h)]
      · rfl

theorem keysOf_put (es : Entries α) (key value : Value α) :
    keysOf (put es key value) = if key.key ∈ keysOf es then keysOf es
    else keysOf es ++ [key.key] := by
  induction es with
  | nil => simp [put]
  | cons e es ih =>
    rw [put]
    split
    · next h => simp [h]
    · next h =>
      rw [keysOf_cons, ih, keysOf_cons]
      simp only [List.mem_cons, Ne.symm h, false_or]
      split <;> rfl

theorem nodup_put {es : Entries α} (hes : (keysOf es).Nodup) (key value : Value α) :
    (keysOf (put es key value)).Nodup := by
  rw [keysOf_put]
  split
  · exact hes
  · next h => exact List.nodup_append_comm.mp (List.nodup_cons.mpr ⟨h, hes⟩)

theorem rel_none_iff {β γ : Type} {R : β → γ → Prop} {x : Option β} {y : Option γ}
    (h : Option.Rel R x y) :
    x = none ↔ y = none := by
  cases h <;> simp

theorem equals_dict_iff {A : Atoms α} {i j : Nat} {es fs : Entries α} (hes : (keysOf es).Nodup)
    (hfs : (keysOf fs).Nodup) : Equals A (.dict i es) (.dict j fs) ↔
      ∀ k, Option.Rel (Equals A) (valueOf es k) (valueOf fs k) := by
  constructor
  · intro h k
    have hperm := dict_keys hfs hes h
    by_cases hk : k ∈ keysOf fs
    · obtain ⟨f, hf, rfl, hv⟩ := exists_valueOf hk
      obtain ⟨v, hv', heq⟩ := (equals_dict.mp h).2 f hf
      rw [hv, hv']
      exact .some heq
    · rw [valueOf_eq_none.mpr hk, valueOf_eq_none.mpr fun hk' => hk (hperm.mem_iff.mpr hk')]
      exact .none
  · intro h
    have hmem : ∀ k, k ∈ keysOf es ↔ k ∈ keysOf fs := by
      intro k
      have hrel := h k
      rw [← not_iff_not, ← valueOf_eq_none, ← valueOf_eq_none]
      exact rel_none_iff hrel
    have hperm : (keysOf es).Perm (keysOf fs) := (List.perm_ext_iff_of_nodup hes hfs).mpr hmem
    refine equals_dict.mpr ⟨by simpa using hperm.length_eq, fun f hf => ?_⟩
    have hrel := h f.1.key
    rw [valueOf_of_mem hfs hf] at hrel
    cases hv : valueOf es f.1.key with
    | none =>
      rw [hv] at hrel
      cases hrel
    | some v =>
      rw [hv] at hrel
      cases hrel with
      | some heq => exact ⟨v, rfl, heq⟩

theorem Equals.nil_iff {a b : Value α} (h : Equals K.toAtoms a b) :
    a = .atom K.nil ↔ b = .atom K.nil := by
  constructor
  · rintro rfl
    exact equals_atom.mp h
  · rintro rfl
    exact equals_atom_right h

omit [DecidableEq α] in
@[simp] theorem dictOr_eq_nil {es : Entries α} : dictOr K fresh es = .atom K.nil ↔ es = [] := by
  unfold dictOr
  split <;> simp_all

theorem equals_dictOr {es fs : Entries α} (hes : (keysOf es).Nodup) (hfs : (keysOf fs).Nodup) :
    Equals K.toAtoms (dictOr K fresh es) (dictOr K fresh fs) ↔
      ∀ k, Option.Rel (Equals K.toAtoms) (valueOf es k) (valueOf fs k) := by
  rw [← equals_dict_iff (i := fresh) (j := fresh) hes hfs]
  unfold dictOr
  cases es with
  | nil =>
    cases fs with
    | nil => simp [equals_dict]
    | cons f fs => simp [equals_dict]
  | cons e es =>
    cases fs with
    | nil =>
      simp only [List.isEmpty_cons, List.isEmpty_nil, if_true, Bool.false_eq_true, if_false]
      rw [iff_false_right (by simp [equals_dict])]
      intro h
      cases equals_atom_right h
    | cons f fs => simp

/-! ## §2 Overlays -/

/-- What the overlay has under a key. -/
def overAt (K : Keywords α) (fresh : Nat) : Option (Value α) → Option (Value α) → Option (Value α)
  | some x, some z => some (overlay K fresh x z)
  | some x, none => some x
  | none, z => z

theorem overlays_eq (es : Entries α) :
    overlays K fresh es = es.map fun e => (e.1.key, overlay K fresh e.2) := by
  induction es with
  | nil => rfl
  | cons e es ih => rw [overlays, ih, List.map_cons, overlaid]

theorem lookup_overlays (es : Entries α) (k : Key α) :
    (overlays K fresh es).lookup k = (valueOf es k).map (overlay K fresh) := by
  rw [overlays_eq, valueOf, ← Lib.lookup_map, List.map_map]
  rfl

/-- The entries of an overlay of dicts. -/
def overEntries (K : Keywords α) (fresh : Nat) (es fs : Entries α) : Entries α :=
  fs.map (fun f => (f.1, (((overlays K fresh es).lookup f.1.key).getD fun z => z) f.2)) ++
    es.filter fun e => e.1.key ∉ keysOf fs

theorem valueOf_filter (p : Key α → Bool) (es : Entries α) (k : Key α) :
    valueOf (es.filter fun e => p e.1.key) k = if p k then valueOf es k else none := by
  induction es with
  | nil => simp
  | cons e es ih =>
    rw [List.filter_cons]
    split
    · next h =>
      rw [valueOf_cons, valueOf_cons, ih]
      split
      · next hk => rw [hk, if_pos h]
      · rfl
    · next h =>
      rw [valueOf_cons, ih]
      by_cases hk : k = e.1.key
      · simp [hk, h]
      · simp [hk]

theorem valueOf_overEntries (es fs : Entries α) (k : Key α) :
    valueOf (overEntries K fresh es fs) k = overAt K fresh (valueOf es k) (valueOf fs k) := by
  have hleft :
    valueOf (fs.map fun f => (f.1, (((overlays K fresh es).lookup f.1.key).getD fun z => z) f.2)) k
    =
      (valueOf fs k).map (((valueOf es k).map (overlay K fresh)).getD fun z => z) := by
    induction fs with
    | nil => rfl
    | cons f fs ih =>
      rw [List.map_cons, valueOf_cons, valueOf_cons, ih, lookup_overlays]
      split
      · next hk => simp [hk]
      · rfl
  rw [overEntries, valueOf_append, hleft, valueOf_filter fun k => k ∉ keysOf fs]
  by_cases hk : k ∈ keysOf fs
  · obtain ⟨f, -, -, hv⟩ := exists_valueOf hk
    cases hes : valueOf es k <;> simp [hv, overAt]
  · rw [valueOf_eq_none.mpr hk]
    cases hes : valueOf es k <;> simp [hk, overAt]

theorem nodup_overEntries {es fs : Entries α} (hes : (keysOf es).Nodup) (hfs : (keysOf fs).Nodup) :
    (keysOf (overEntries K fresh es fs)).Nodup := by
  have hkeys : keysOf (overEntries K fresh es fs) = keysOf fs ++ (keysOf es).filter fun k =>
    k ∉ keysOf fs := by
    simp [overEntries, keysOf, List.filter_map, Function.comp_def]
  rw [hkeys]
  refine List.Nodup.append hfs (hes.filter _) fun k hk hk' => ?_
  simpa [hk] using (List.mem_filter.mp hk').2

omit [DecidableEq α] in
theorem dictOr_of_ne {es : Entries α} (h : es ≠ []) : dictOr K fresh es = .dict fresh es := by
  simp [dictOr, h]

theorem overlay_dictOr (K : Keywords α) (fresh : Nat) {es fs : Entries α} (hes : (keysOf es).Nodup)
    (hfs : (keysOf fs).Nodup) (h : es ≠ [] ∨ fs ≠ []) :
    ∃ gs, overlay K fresh (dictOr K fresh es) (dictOr K fresh fs) = .dict fresh gs ∧
      (keysOf gs).Nodup ∧ ∀ k, valueOf gs k = overAt K fresh (valueOf es k) (valueOf fs k) := by
  by_cases hes' : es = []
  · subst hes'
    have hfs' := h.resolve_left fun h => h rfl
    refine ⟨fs, ?_, hfs, fun k => by simp [overAt]⟩
    simp [dictOr, overlay, hfs']
  · rw [dictOr_of_ne hes']
    by_cases hfs' : fs = []
    · subst hfs'
      refine ⟨es, by simp [dictOr, overlay], hes, fun k => ?_⟩
      cases valueOf es k <;> rfl
    · rw [dictOr_of_ne hfs']
      exact ⟨overEntries K fresh es fs, by rw [overlay, overEntries], nodup_overEntries hes hfs,
        valueOf_overEntries es fs⟩

theorem equals_overlay_dictOr {es fs gs : Entries α} (hes : (keysOf es).Nodup)
    (hfs : (keysOf fs).Nodup) (hgs : (keysOf gs).Nodup) {j : Nat} :
    Equals K.toAtoms (overlay K fresh (dictOr K fresh es) (dictOr K fresh fs)) (.dict j gs) ↔
      gs ≠ [] ∧ ∀ k, Option.Rel (Equals K.toAtoms) (overAt K fresh (valueOf es k) (valueOf fs k))
      (valueOf gs k) := by
  by_cases h : es ≠ [] ∨ fs ≠ []
  · obtain ⟨ks, hover, hks, hvalue⟩ := overlay_dictOr K fresh hes hfs h
    simp only [hover, equals_dict_iff hks hgs, hvalue]
    refine (and_iff_right_of_imp fun hrel => ?_).symm
    rintro rfl
    have hnone : ∀ k, overAt K fresh (valueOf es k) (valueOf fs k) = none :=
    fun k => (rel_none_iff (hrel k)).mpr rfl
    rcases h with h | h
    · refine h (eq_nil_of_valueOf fun k => ?_)
      have hk := hnone k
      cases hes : valueOf es k with
      | none => rfl
      | some x => cases hfs : valueOf fs k <;> simp [hes, hfs, overAt] at hk
    · refine h (eq_nil_of_valueOf fun k => ?_)
      have hk := hnone k
      cases hfs : valueOf fs k with
      | none => rfl
      | some z => cases hes : valueOf es k <;> simp [hes, hfs, overAt] at hk
  · obtain ⟨rfl, rfl⟩ : es = [] ∧ fs = [] := by simpa using h
    have hleft :
    ¬ Equals K.toAtoms (overlay K fresh (dictOr K fresh []) (dictOr K fresh [])) (.dict j gs) := by
      simp [dictOr, overlay]
    refine iff_of_false hleft fun hright => hright.1 (eq_nil_of_valueOf fun k => ?_)
    exact (rel_none_iff (hright.2 k)).mp rfl

/-! ## §3 Sets -/

theorem equals_set_iff {A : Atoms α} {i j : Nat} {xs ys : List (Value α)}
    (hxs : (xs.map Value.key).Nodup) (hys : (ys.map Value.key).Nodup) :
    Equals A (.set i xs) (.set j ys) ↔ ∀ k, k ∈ xs.map Value.key ↔ k ∈ ys.map Value.key := by
  constructor
  · exact fun h k => (set_keys hys h).mem_iff.symm
  · intro h
    have hperm := (List.perm_ext_iff_of_nodup hxs hys).mpr h
    exact equals_set.mpr ⟨by simpa using hperm.length_eq,
      fun y hy => (h y.key).mpr (List.mem_map_of_mem hy)⟩

omit [DecidableEq α] in
theorem key_mem_filter (p : Key α → Bool) (xs : List (Value α)) (k : Key α) :
    k ∈ (xs.filter fun x => p x.key).map Value.key ↔ k ∈ xs.map Value.key ∧ p k := by
  simp only [List.mem_map, List.mem_filter]
  constructor
  · rintro ⟨x, ⟨hx, hp⟩, rfl⟩
    exact ⟨⟨x, hx, rfl⟩, hp⟩
  · rintro ⟨⟨x, hx, rfl⟩, hp⟩
    exact ⟨x, ⟨hx, hp⟩, rfl⟩

omit [DecidableEq α] in
theorem nodup_filter {p : Value α → Bool} {xs : List (Value α)} (hxs : (xs.map Value.key).Nodup) :
    ((xs.filter p).map Value.key).Nodup :=
  hxs.sublist (List.filter_sublist.map _)

theorem difference_spec {xs : List (Value α)}
    (ys : List (Value α)) (hxs : (xs.map Value.key).Nodup) :
    ((difference xs ys).map Value.key).Nodup ∧
      ∀ k, k ∈ (difference xs ys).map Value.key ↔ k ∈ xs.map Value.key ∧ k ∉ ys.map Value.key := by
  induction ys generalizing xs with
  | nil => simp [difference, hxs]
  | cons y ys ih =>
    obtain ⟨hnodup, hmem⟩ := ih (nodup_filter (p := fun x => x.key ≠ y.key) hxs)
    refine ⟨hnodup, fun k => ?_⟩
    rw [difference, List.foldl_cons, ← difference, disj, hmem, key_mem_filter fun k => k ≠ y.key]
    simp [and_assoc]

theorem conj_spec {xs : List (Value α)} (hxs : (xs.map Value.key).Nodup) (y : Value α) :
    ((conj xs y).map Value.key).Nodup ∧
      ∀ k, k ∈ (conj xs y).map Value.key ↔ k ∈ xs.map Value.key ∨ k = y.key := by
  unfold conj
  split
  · next h =>
    refine ⟨hxs, fun k => ⟨.inl, ?_⟩⟩
    rintro (hk | rfl)
    · exact hk
    · exact h
  · next h =>
    rw [List.map_append]
    exact ⟨List.nodup_append_comm.mp (List.nodup_cons.mpr ⟨h, hxs⟩), by simp⟩

theorem intersection_spec (xs ys : List (Value α)) : ((intersection xs ys).map Value.key).Nodup ∧
    ∀ k, k ∈ (intersection xs ys).map Value.key ↔ k ∈ xs.map Value.key ∧ k ∈ ys.map Value.key := by
  have hfold : ∀ result : List (Value α), (result.map Value.key).Nodup →
      let r := xs.foldl (fun result x => if x.key ∈ ys.map Value.key then conj result x
        else result) result
      (r.map Value.key).Nodup ∧ ∀ k, k ∈ r.map Value.key ↔
        k ∈ result.map Value.key ∨ (k ∈ xs.map Value.key ∧ k ∈ ys.map Value.key) := by
    induction xs with
    | nil => intro result h; simpa using h
    | cons x xs ih =>
      intro result h
      rw [List.foldl_cons]
      split
      · next hx =>
        obtain ⟨hconj, hmem⟩ := conj_spec h x
        obtain ⟨hnodup, hmem'⟩ := ih _ hconj
        refine ⟨hnodup, fun k => ?_⟩
        rw [hmem', hmem, List.map_cons, List.mem_cons]
        grind
      · next hx =>
        obtain ⟨hnodup, hmem'⟩ := ih _ h
        refine ⟨hnodup, fun k => ?_⟩
        rw [hmem', List.map_cons, List.mem_cons]
        grind
  simpa [intersection] using hfold [] (by simp)

omit [DecidableEq α] in
@[simp] theorem setOr_eq_nil {xs : List (Value α)} : setOr K fresh xs = .atom K.nil ↔ xs = [] := by
  unfold setOr
  split <;> simp_all

omit [DecidableEq α] in
theorem eq_nil_of_keys {xs : List (Value α)} (h : ∀ k, k ∉ xs.map Value.key) : xs = [] := by
  simpa using List.eq_nil_iff_forall_not_mem.mpr h

theorem equals_setOr {xs ys : List (Value α)} (hxs : (xs.map Value.key).Nodup)
    (hys : (ys.map Value.key).Nodup) :
    Equals K.toAtoms (setOr K fresh xs) (setOr K fresh ys) ↔ ∀ k, k ∈ xs.map Value.key ↔
    k ∈ ys.map Value.key := by
  rw [← equals_set_iff (A := K.toAtoms) (i := fresh) (j := fresh) hxs hys]
  unfold setOr
  cases xs with
  | nil =>
    cases ys with
    | nil => simp [equals_set]
    | cons y ys => simp [equals_set]
  | cons x xs =>
    cases ys with
    | nil =>
      simp only [List.isEmpty_cons, List.isEmpty_nil, if_true, Bool.false_eq_true, if_false]
      rw [iff_false_right (by simp [equals_set])]
      intro h
      cases equals_atom_right h
    | cons y ys => simp

theorem equals_overlay_setOr {xs ys zs : List (Value α)} (hxs : (xs.map Value.key).Nodup)
    (hys : (ys.map Value.key).Nodup) (hzs : (zs.map Value.key).Nodup) {j : Nat} :
    Equals K.toAtoms (overlay K fresh (setOr K fresh xs) (setOr K fresh ys)) (.set j zs) ↔
      zs ≠ [] ∧ ∀ k, (k ∈ xs.map Value.key ∨ k ∈ ys.map Value.key) ↔ k ∈ zs.map Value.key := by
  have hkeys : (∀ k, (k ∈ xs.map Value.key ∨ k ∈ ys.map Value.key) ↔ k ∈ zs.map Value.key) →
    zs = [] →
      xs = [] ∧ ys = [] := by
    rintro h rfl
    exact ⟨eq_nil_of_keys fun k hk => by simpa using (h k).mp (.inl hk),
      eq_nil_of_keys fun k hk => by simpa using (h k).mp (.inr hk)⟩
  by_cases hxs' : xs = []
  · subst hxs'
    have hover : overlay K fresh (setOr K fresh []) (setOr K fresh ys) = setOr K fresh ys := by
      simp [setOr, overlay]
    rw [hover]
    by_cases hys' : ys = []
    · subst hys'
      refine iff_of_false (by simp [setOr]) fun h => h.1 (eq_nil_of_keys fun k hk => ?_)
      simpa using (h.2 k).mpr hk
    · have hset : setOr K fresh ys = .set fresh ys := by simp [setOr, hys']
      rw [hset, equals_set_iff hys hzs]
      simp only [List.map_nil, List.not_mem_nil, false_or] at hkeys ⊢
      exact (and_iff_right_of_imp fun h hzs => hys' (hkeys h hzs).2).symm
  · have hset : setOr K fresh xs = .set fresh xs := by simp [setOr, hxs']
    rw [hset]
    by_cases hys' : ys = []
    · subst hys'
      have hover :
      overlay K fresh (.set fresh xs) (setOr K fresh []) = .set fresh xs := by simp [setOr, overlay]
      rw [hover, equals_set_iff hxs hzs]
      simp only [List.map_nil, List.not_mem_nil, or_false] at hkeys ⊢
      exact (and_iff_right_of_imp fun h hzs => hxs' (hkeys h hzs).1).symm
    · have hset' : setOr K fresh ys = .set fresh ys := by simp [setOr, hys']
      have hnodup : ((ys ++ xs.filter fun x => x.key ∉ ys.map Value.key).map Value.key).Nodup := by
        rw [List.map_append]
        refine List.Nodup.append hys (nodup_filter hxs) fun k hk hk' => ?_
        simpa [hk] using ((key_mem_filter (fun k => k ∉ ys.map Value.key) xs k).mp hk').2
      have hmem : ∀ k, k ∈ (ys ++ xs.filter fun x => x.key ∉ ys.map Value.key).map Value.key ↔
          k ∈ xs.map Value.key ∨ k ∈ ys.map Value.key := by
        intro k
        rw [List.map_append, List.mem_append, key_mem_filter fun k => k ∉ ys.map Value.key,
          decide_eq_true_iff]
        grind
      rw [hset', overlay, equals_set_iff hnodup hzs]
      simp only [hmem]
      exact (and_iff_right_of_imp fun h hzs => hxs' (hkeys h hzs).1).symm

end Fol.Values
