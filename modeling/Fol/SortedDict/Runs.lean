/-
Fol.SortedDict.Runs — runs of a sorted dict against a finite map.

A run is a sequence of bulk loads, insertions and removals. `MapsTo` relates a
sorted dict to the map the run builds; every operation keeps it where the key is
no routing key of its search path. A lookup agrees with the map for exactly the
keys that are no routing keys of theirs.
-/
import Fol.SortedDict.BulkLoad
import Fol.SortedDict.TreeTheorems

namespace Fol.SortedDict

open Lib Std

variable {κ ν : Type}

/-! ## §1 Runs -/

/-- The operations on a sorted dict. -/
inductive Op (κ ν : Type) where
  | bulkLoad (pairs : List (κ × ν))
  | assoc (key : κ) (val : ν)
  | dissoc (key : κ)

section Runs

variable (cmp : κ → κ → Ordering) (isNil : κ → Bool)

/-- One operation; `none` is an error. -/
def step (d : BTreeDict κ ν) : Op κ ν → Option (BTreeDict κ ν)
  | .bulkLoad pairs => some (btreeBulkLoad cmp pairs)
  | .assoc key val => some (sortedDictAssoc cmp isNil d key val)
  | .dissoc key => sortedDictDissoc cmp d key

def run (d : BTreeDict κ ν) : List (Op κ ν) → Option (BTreeDict κ ν)
  | [] => some d
  | op :: ops => (step cmp isNil d op).bind fun d' => run d' ops

/-- What an operation does to the map. -/
def absStep [BEq κ] (m : FMap κ ν) : Op κ ν → FMap κ ν
  | .bulkLoad pairs => bindAll pairs
  | .assoc key val => m.insert key val
  | .dissoc key => m.erase key

def absRun [BEq κ] (ops : List (Op κ ν)) : FMap κ ν := ops.foldl absStep FMap.empty

/-- The key is no routing key of its search path, and: an insertion sends no NIL
up, a removal takes no node's only child. -/
def meets (d : BTreeDict κ ν) : Op κ ν → Bool
  | .bulkLoad _ => true
  | .assoc key _ => d.root.all fun t =>
    insertable cmp isNil key t && (promoted cmp key t).all fun k => !isNil k
  | .dissoc key => d.root.all fun t => !routing cmp key t && !emptiesLoneChild cmp key t

/-- Every operation is made in a state that meets its condition. -/
def runMeets (d : BTreeDict κ ν) : List (Op κ ν) → Bool
  | [] => true
  | op :: ops =>
    meets cmp isNil d op && ((step cmp isNil d op).all fun d' => runMeets d' ops)

end Runs

/-! ## §2 Steps -/

/-- The dict stands for the map. -/
structure MapsTo [BEq κ] (cmp : κ → κ → Ordering) (d : BTreeDict κ ν) (m : FMap κ ν) : Prop where
  wf : ∀ t, d.root = some t → t.Wf cmp
  enumerates : Enumerates (rootEntries d.root) m
  count_eq : d.count = (rootEntries d.root).length

section Steps

variable [BEq κ] [EquivBEq κ] {cmp : κ → κ → Ordering} [TransCmp cmp] [LawfulBEqCmp cmp]
  {isNil : κ → Bool} {d : BTreeDict κ ν} {m : FMap κ ν}

omit [EquivBEq κ] [TransCmp cmp] [LawfulBEqCmp cmp] in
theorem MapsTo.empty : MapsTo cmp ({} : BTreeDict κ ν) FMap.empty :=
  ⟨fun t ht => absurd ht.symm (Option.some_ne_none t), .nil, rfl⟩

/-- The root after an insertion. -/
theorem assoc_mapsTo (h : MapsTo cmp d m) {key : κ} (val : ν)
    (hm : meets cmp isNil d (.assoc key val) = true) :
    MapsTo cmp (sortedDictAssoc cmp isNil d key val) (m.insert key val) := by
  obtain ⟨hwf, henum, hcount⟩ := h
  unfold sortedDictAssoc
  cases hroot : d.root with
  | none =>
    rw [hroot] at henum hcount
    have hins : InsertsAt cmp key val [] [(key, val)] none :=
      ⟨[], [], Below.nil key, Above.nil key, .inl ⟨rfl, rfl, rfl⟩⟩
    refine ⟨fun t ht => ?_, hins.enumerates henum, congrArg (· + 1) hcount⟩
    cases ht
    exact ⟨List.cons_ne_nil _ _, rfl, List.pairwise_singleton _ _⟩
  | some t =>
    rw [hroot] at henum hcount
    rw [meets, hroot, Option.all_some, Bool.and_eq_true] at hm
    have hspec := btreeAssocNode_spec val (hwf t hroot) hm.1
    simp only
    generalize btreeAssocNode cmp isNil key val t = r at hspec
    have hfilter : (r.split.filter fun s => !isNil s.1) = r.split := by
      have hnil := hm.2
      rw [← hspec.promoted] at hnil
      cases hs : r.split with
      | none => rfl
      | some s =>
        rw [hs] at hnil
        exact if_pos hnil
    rw [hfilter]
    have henum' := hspec.inserts.enumerates henum
    have hlen := hspec.inserts.length
    have hsorted := hspec.inserts.sorted (hwf t hroot).sorted
    have hcount' : (if r.oldVal.isSome then d.count else d.count + 1) =
        (entriesList r.parts).length := by
      rw [hlen, hcount]
      rfl
    obtain ⟨n, split, old⟩ := r
    cases split with
    | none =>
      rw [show entriesList (AssocResult.parts ⟨n, none, old⟩) = n.entries from
        List.append_nil _] at henum' hcount'
      refine ⟨fun u hu => ?_, henum', hcount'⟩
      cases hu
      exact hspec.wf n List.mem_cons_self
    | some s =>
      refine ⟨fun u hu => ?_, henum', hcount'⟩
      cases hu
      exact (wf_node_iff cmp).mpr ⟨hspec.wf, hspec.routed, hsorted⟩

theorem dissoc_mapsTo (h : MapsTo cmp d m) {key : κ}
    (hm : meets cmp isNil d (.dissoc key) = true) :
    ∃ d', sortedDictDissoc cmp d key = some d' ∧ MapsTo cmp d' (m.erase key) := by
  obtain ⟨hwf, henum, hcount⟩ := h
  unfold sortedDictDissoc
  cases hroot : d.root with
  | none =>
    have hrem : RemovesAt cmp key ([] : List (κ × ν)) [] none :=
      ⟨[], [], Below.nil key, Above.nil key, .inl ⟨rfl, rfl, rfl⟩⟩
    refine ⟨d, rfl, hwf, ?_, hcount⟩
    rw [hroot] at henum ⊢
    exact hrem.enumerates henum
  | some t =>
    rw [meets, hroot, Option.all_some, Bool.and_eq_true, Bool.not_eq_true', Bool.not_eq_true'] at hm
    obtain ⟨⟨n, old⟩, hres, hspec⟩ := btreeDissocNode_spec (hwf t hroot) hm.1 hm.2
    simp only [hres, Option.map_some]
    refine ⟨_, rfl, ?_⟩
    have hlen := hspec.removes.length
    cases old with
    | none =>
      have hrem := hspec.removes
      rw [hrem.absent] at hrem
      refine ⟨hwf, ?_, hcount⟩
      rw [hroot] at henum
      show Enumerates (rootEntries d.root) _
      rw [hroot]
      exact hrem.enumerates henum
    | some v =>
      rw [hroot] at henum hcount
      refine ⟨hspec.wf, hspec.removes.enumerates henum, ?_⟩
      show d.count - 1 = (rootEntries n).length
      rw [hlen, hcount]
      rfl

/-- Every operation made under its condition succeeds and does to the dict what it
does to the map. -/
theorem step_mapsTo (h : MapsTo cmp d m) (op : Op κ ν) (hm : meets cmp isNil d op = true) :
    ∃ d', step cmp isNil d op = some d' ∧ MapsTo cmp d' (absStep m op) := by
  cases op with
  | bulkLoad pairs =>
    obtain ⟨hwf, henum, hcount⟩ := btreeBulkLoad_spec cmp pairs
    exact ⟨_, rfl, hwf, henum, hcount⟩
  | assoc key val => exact ⟨_, rfl, assoc_mapsTo h val hm⟩
  | dissoc key => exact dissoc_mapsTo h hm

theorem run_mapsTo (h : MapsTo cmp d m) (ops : List (Op κ ν))
    (hm : runMeets cmp isNil d ops = true) :
    ∃ d', run cmp isNil d ops = some d' ∧ MapsTo cmp d' (ops.foldl absStep m) := by
  induction ops generalizing d m with
  | nil => exact ⟨d, rfl, h⟩
  | cons op ops ih =>
    rw [runMeets, Bool.and_eq_true] at hm
    obtain ⟨d₁, hstep, h₁⟩ := step_mapsTo h op hm.1
    have hrest := hm.2
    rw [hstep, Option.all_some] at hrest
    obtain ⟨d', hrun, h'⟩ := ih h₁ hrest
    refine ⟨d', ?_, h'⟩
    rw [run, hstep]
    exact hrun

/-- A lookup agrees with the map exactly off the routing keys. -/
theorem ref_iff (h : MapsTo cmp d m) (key : κ) :
    sortedDictRef cmp d key = m key ↔ d.root.any (routing cmp key) = false := by
  obtain ⟨hwf, henum, -⟩ := h
  rw [henum.agrees, sortedDictRef]
  cases hroot : d.root with
  | none => exact ⟨fun _ => rfl, fun _ => rfl⟩
  | some t => exact btreeGet_iff (hwf t hroot) key

end Steps

/-! ## §3 Refinement -/

/-- Every run that inserts and removes only keys that are no routing keys of their
search paths (and sends no NIL up, and takes no only child) succeeds; its dict
counts the keys of the map, and answers as the map does for exactly the keys that
are no routing keys of their search paths. -/
theorem sorted_dict_refines_map [BEq κ] [EquivBEq κ] (cmp : κ → κ → Ordering) [TransCmp cmp]
    [LawfulBEqCmp cmp] (isNil : κ → Bool) (ops : List (Op κ ν))
    (h : runMeets cmp isNil {} ops = true) :
    ∃ d, run cmp isNil {} ops = some d ∧ HasCount (absRun ops) d.count ∧
      ∀ key, sortedDictRef cmp d key = absRun ops key ↔
        d.root.any (routing cmp key) = false := by
  obtain ⟨d, hrun, hmaps⟩ := run_mapsTo MapsTo.empty ops h
  exact ⟨d, hrun, ⟨_, hmaps.enumerates, hmaps.count_eq.symm⟩, ref_iff hmaps⟩

/-- Forty insertions, which split the root leaf, and a removal below the node. -/
def nodeRun : List (Op Nat Nat) := (List.range 40).map (fun k => .assoc (k + 10) k) ++ [.dissoc 12]

/-- The run ends in a tree with a node. -/
theorem sorted_dict_refines_map_small :
    runMeets (compare (α := Nat)) (fun _ => false) {} nodeRun = true ∧
      ∃ d, run compare (fun _ => false) {} nodeRun = some d ∧
        HasCount (absRun nodeRun) d.count ∧
        ∀ key, sortedDictRef compare d key = absRun nodeRun key ↔
          d.root.any (routing compare key) = false := by
  have hm : runMeets (compare (α := Nat)) (fun _ => false) {} nodeRun = true := by decide +kernel
  exact ⟨hm, sorted_dict_refines_map compare (fun _ => false) _ hm⟩

/-- The 33 insertions that split the first leaf, at 17. -/
def splittingRun : List (Op Nat Nat) := (List.range' 1 33).map fun k => .assoc k (10 * k)

/-- After them the map binds 17, and the search for 17 goes left of the routing key
17 and finds nothing. -/
theorem sorted_dict_misses_routing_key :
    (run compare (fun _ => false) {} splittingRun).map (sortedDictRef compare · 17) = some none ∧
      absRun splittingRun 17 = some 170 := by
  decide +kernel

end Fol.SortedDict
