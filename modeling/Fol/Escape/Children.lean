/-
Fol.Escape.Children — the children of an AST node, listed and put back.

`ast.lisp` has methods of `node-children` and `remake-node-with-children` for eight types of node;
a node of any other type has no children there and is returned as it is. The `node-children` of
`escape-analysis.lisp` looks into the slots instead, whatever the type. A remade node keeps the
form of the old one, and neither its position nor its type slot; a remade `fn` has no docstring.
-/
import Mathlib.Data.List.Forall2

namespace Fol.Children

variable {N : Type*}

/-! ## §1 Nodes -/

/-- What a slot can hold. A vector holds the list of its elements; `atom` is any other value, a
string among them. -/
inductive Datum (N : Type*) where
  | nil
  | atom (tag : Nat)
  | node (n : N)
  | cons (car cdr : Datum N)
  | vector (elements : Datum N)

def Datum.ofList : List (Datum N) → Datum N
  | [] => .nil
  | x :: xs => .cons x (ofList xs)

def Datum.ofNodes (ns : List N) : Datum N := .ofList (ns.map .node)

/-- The slots of a type. The eight types with methods of their own come first; a binding is a
pattern and a value, a clause parameters and a body. -/
inductive Slots (N : Type*) where
  | call (operator : N) (args : List N)
  | ifNode (test thn : N) (els : List N)
  | doNode (body : List N)
  | bind (bindings : List (Datum N × N)) (body : List N)
  | fn (name : Datum N) (clauses : List (Datum N × List N)) (docstring : Datum N)
  | defn (name : Datum N) (clauses : List (Datum N × List N)) (docstring : Datum N)
  | loop (bindings : List (Datum N × N)) (body : List N)
  | recur (args : List N)
  | other (type : String) (values : List (Datum N))

/-- A node, with the slots of the base structure. -/
structure Node (N : Type*) where
  form : Datum N
  position : Datum N
  type : Datum N
  slots : Slots N

/-! ## §2 Children -/

/-- `node-children` of `ast.lisp`. -/
def nodeChildren (node : Node N) : List N :=
  match node.slots with
  | .call operator args => operator :: args
  | .ifNode test thn els => test :: thn :: els
  | .doNode body => body
  | .bind bindings body | .loop bindings body => bindings.map (·.2) ++ body
  | .fn _ clauses _ | .defn _ clauses _ => clauses.flatMap (·.2)
  | .recur args => args
  | .other _ _ => []

/-- The loop over the bindings, on `(subseq new-children 0 num-bindings)`. -/
def remakeBindings (bindings : List (Datum N × N)) (newChildren : List N) :
    Option (List (Datum N × N)) :=
  if newChildren.length < bindings.length then none
  else some (List.zipWith (fun b init => (b.1, init)) bindings newChildren)

/-- The loop over the clauses. -/
def remakeClauses : List (Datum N × List N) → List N → Option (List (Datum N × List N))
  | [], _ => some []
  | clause :: clauses, childPtr =>
    if childPtr.length < clause.2.length then none
    else (remakeClauses clauses (childPtr.drop clause.2.length)).map
      ((clause.1, childPtr.take clause.2.length) :: ·)

/-- The slots of the remade node; `none` with too few children, where `subseq` fails or a slot would
hold no node. -/
def remakeSlots : Slots N → List N → Option (Slots N)
  | .call _ _, operator :: args => some (.call operator args)
  | .ifNode _ _ _, test :: thn :: els => some (.ifNode test thn els)
  | .doNode _, body => some (.doNode body)
  | .bind bindings _, new => (remakeBindings bindings new).map (.bind · (new.drop bindings.length))
  | .fn name clauses _, new => (remakeClauses clauses new).map (.fn name · .nil)
  | .defn name clauses docstring, new => (remakeClauses clauses new).map (.defn name · docstring)
  | .loop bindings _, new => (remakeBindings bindings new).map (.loop · (new.drop bindings.length))
  | .recur _, args => some (.recur args)
  | _, _ => none

/-- `remake-node-with-children`. -/
def remakeNodeWithChildren (node : Node N) (newChildren : List N) : Option (Node N) :=
  match node.slots with
  | .other _ _ => some node
  | slots => (remakeSlots slots newChildren).map (⟨node.form, .nil, .nil, ·⟩)

/-- `collect-ast-nodes`. -/
def collectAstNodes : Datum N → List N
  | .node n => [n]
  | .cons car cdr => collectAstNodes car ++ collectAstNodes cdr
  | .vector elements => collectAstNodes elements
  | _ => []

/-- The values of the slots that are not skipped, in the order of the structure. -/
def slotValues : Slots N → List (Datum N)
  | .call operator args => [.node operator, .ofNodes args]
  | .ifNode test thn els => [.node test, .node thn, .ofNodes els]
  | .doNode body => [.ofNodes body]
  | .bind bindings body | .loop bindings body =>
    [.ofList (bindings.map fun b => .cons b.1 (.node b.2)), .ofNodes body]
  | .fn name clauses docstring | .defn name clauses docstring =>
    [name, .ofList (clauses.map fun c => .cons c.1 (.ofNodes c.2)), docstring]
  | .recur args => [.ofNodes args]
  | .other _ values => values

/-- `node-children` of `escape-analysis.lisp`. -/
def slotChildren (node : Node N) : List N := (slotValues node.slots).flatMap collectAstNodes

/-! ## §3 Laws -/

/-- Rebuilding is the inverse of listing. With the old children a node remade with others is the old
node again, so nothing but the children is lost on the way. -/
structure Rebuilds (node : Node N) : Prop where
  back : remakeNodeWithChildren node (nodeChildren node) = some node
  replaced : ∀ new : List N, new.length = (nodeChildren node).length → ∃ node',
    remakeNodeWithChildren node new = some node' ∧ nodeChildren node' = new ∧
      remakeNodeWithChildren node' (nodeChildren node) = some node
  found : nodeChildren node = slotChildren node

/-- What remaking leaves out is empty. -/
def Kept (node : Node N) : Prop :=
  match node.slots with
  | .other _ _ => True
  | .fn _ _ docstring => node.position = .nil ∧ node.type = .nil ∧ docstring = .nil
  | _ => node.position = .nil ∧ node.type = .nil

/-- No nodes in the names, patterns, parameters and docstrings, nor in a node without methods of its
own. -/
def Bare : Slots N → Prop
  | .bind bindings _ | .loop bindings _ => ∀ b ∈ bindings, collectAstNodes b.1 = []
  | .fn name clauses docstring | .defn name clauses docstring =>
    collectAstNodes name = [] ∧ (∀ c ∈ clauses, collectAstNodes c.1 = []) ∧
      collectAstNodes docstring = []
  | .other _ values => ∀ x ∈ values, collectAstNodes x = []
  | _ => True

section Laws

theorem collectAstNodes_ofList (xs : List (Datum N)) :
    collectAstNodes (.ofList xs) = xs.flatMap collectAstNodes := by
  induction xs with
  | nil => rfl
  | cons x xs ih => rw [Datum.ofList, collectAstNodes, ih, List.flatMap_cons]

@[simp] theorem collectAstNodes_ofNodes (ns : List N) : collectAstNodes (.ofNodes ns) = ns := by
  rw [Datum.ofNodes, collectAstNodes_ofList, List.flatMap_map]
  exact List.flatMap_singleton' ns

theorem length_flatMap_append {α : Type*} (xs : List α) (own extra : α → List N) :
    (xs.flatMap fun x => extra x ++ own x).length =
    (xs.flatMap extra).length + (xs.flatMap own).length := by
  induction xs with
  | nil => rfl
  | cons x xs ih =>
    simp only [List.flatMap_cons, List.length_append, ih]
    omega

/-- Nothing else is found among the parts exactly when there is nothing else in them. -/
theorem flatMap_eq_iff {α : Type*} (xs : List α) (own extra : α → List N) :
    xs.flatMap own = xs.flatMap (fun x => extra x ++ own x) ↔ ∀ x ∈ xs, extra x = [] := by
  constructor
  · intro h
    have hlen := congrArg List.length h
    rw [length_flatMap_append] at hlen
    exact List.flatMap_eq_nil_iff.mp (List.length_eq_zero_iff.mp (by omega))
  · intro h
    exact List.flatMap_congr fun x hx => by rw [h x hx, List.nil_append]

theorem bindings_found_iff {bindings : List (Datum N × N)} :
    bindings.map (·.2) = collectAstNodes (.ofList (bindings.map fun b => .cons b.1 (.node b.2))) ↔
      ∀ b ∈ bindings, collectAstNodes b.1 = [] := by
  rw [collectAstNodes_ofList, List.flatMap_map, List.map_eq_flatMap]
  exact flatMap_eq_iff bindings (fun b => [b.2]) fun b => collectAstNodes b.1

theorem clauses_found_iff {name docstring : Datum N} {clauses : List (Datum N × List N)} :
    clauses.flatMap (·.2) = collectAstNodes name ++
        (collectAstNodes (.ofList (clauses.map fun c => .cons c.1 (.ofNodes c.2))) ++
          collectAstNodes docstring) ↔
      collectAstNodes name = [] ∧ (∀ c ∈ clauses, collectAstNodes c.1 = []) ∧
      collectAstNodes docstring = [] := by
  rw [← flatMap_eq_iff clauses (·.2) fun c => collectAstNodes c.1, collectAstNodes_ofList,
    List.flatMap_map]
  simp only [collectAstNodes, collectAstNodes_ofNodes]
  constructor
  · intro h
    have hlen : (clauses.flatMap Prod.snd).length = _ := congrArg List.length h
    simp only [List.length_append, length_flatMap_append] at hlen
    have hname : collectAstNodes name = [] := List.length_eq_zero_iff.mp (by omega)
    have hdoc : collectAstNodes docstring = [] := List.length_eq_zero_iff.mp (by omega)
    exact ⟨hname, by simpa [hname, hdoc] using h, hdoc⟩
  · rintro ⟨hname, h, hdoc⟩
    rw [hname, hdoc, ← h, List.nil_append, List.append_nil]

/-- The nodes are found in the same order exactly when a node is bare. -/
theorem found_iff (node : Node N) : nodeChildren node = slotChildren node ↔ Bare node.slots := by
  obtain ⟨form, position, type, slots⟩ := node
  cases slots with
  | bind | loop => simpa [nodeChildren, slotChildren, slotValues, Bare] using bindings_found_iff
  | fn | defn => simpa [nodeChildren, slotChildren, slotValues, Bare] using clauses_found_iff
  | other =>
    rw [nodeChildren, slotChildren, slotValues, Bare, eq_comm]
    exact List.flatMap_eq_nil_iff
  | _ => simp [nodeChildren, slotChildren, slotValues, Bare, collectAstNodes]

/-- The same patterns, or the same parameters and lengths of bodies. -/
def SamePatterns (bindings bindings' : List (Datum N × N)) : Prop :=
  bindings.map (·.1) = bindings'.map (·.1)

def SameShape (clauses clauses' : List (Datum N × List N)) : Prop :=
  clauses.map (fun c => (c.1, c.2.length)) = clauses'.map fun c => (c.1, c.2.length)

theorem remakeBindings_same {bindings bindings' : List (Datum N × N)}
    (h : SamePatterns bindings bindings') (body : List N) :
    remakeBindings bindings (bindings'.map (·.2) ++ body) = some bindings' := by
  have hlen : bindings.length = bindings'.length := by simpa using congrArg List.length h
  rw [remakeBindings, if_neg (by simp [hlen])]
  refine congrArg some (List.ext_getElem (by simp [hlen]) fun i hi hi' => ?_)
  have hfst : (bindings.map (·.1))[i]? = (bindings'.map (·.1))[i]? := by rw [h]
  have hi₀ : i < bindings.length := by omega
  simp only [List.getElem?_map, List.getElem?_eq_getElem hi', List.getElem?_eq_getElem hi₀,
    Option.map_some, Option.some.injEq] at hfst
  simp [List.getElem_zipWith, hfst, List.getElem_append_left, hi']

theorem exists_samePatterns (bindings : List (Datum N × N)) (body : List N) {new : List N}
    (h : new.length = (bindings.map (·.2) ++ body).length) :
    ∃ bindings', SamePatterns bindings bindings' ∧ bindings'.length = bindings.length ∧
      bindings'.map (·.2) ++ new.drop bindings.length = new := by
  have hle : bindings.length ≤ new.length := by simp at h; omega
  refine ⟨List.zipWith (fun b init => (b.1, init)) bindings (new.take bindings.length),
    ?_, by simp [hle], ?_⟩
  · rw [SamePatterns, List.map_zipWith]
    exact List.ext_getElem (by simp [hle]) fun i hi hi' => by simp
  · rw [List.map_zipWith]
    have htake : List.zipWith (fun _ init => init) bindings (new.take bindings.length) =
    new.take bindings.length :=
      List.ext_getElem (by simp [hle]) fun i hi hi' => by simp
    rw [htake, List.take_append_drop]

theorem remakeClauses_same {clauses clauses' : List (Datum N × List N)}
    (h : SameShape clauses clauses') :
    remakeClauses clauses (clauses'.flatMap (·.2)) = some clauses' := by
  induction clauses generalizing clauses' with
  | nil =>
    obtain rfl := List.map_eq_nil_iff.mp h.symm
    rfl
  | cons clause clauses ih =>
    cases clauses' with
    | nil => cases h
    | cons clause' clauses' =>
      obtain ⟨hclause, hrest⟩ := List.cons.inj h
      obtain ⟨hparams, hlen⟩ := Prod.mk.inj hclause
      rw [remakeClauses, List.flatMap_cons, hlen, if_neg (by simp), List.drop_left, List.take_left,
        ih hrest, hparams]
      rfl

theorem exists_sameShape (clauses : List (Datum N × List N)) {new : List N}
    (h : new.length = (clauses.flatMap (·.2)).length) :
    ∃ clauses', SameShape clauses clauses' ∧ clauses'.flatMap (·.2) = new := by
  induction clauses generalizing new with
  | nil => exact ⟨[], rfl, (List.length_eq_zero_iff.mp h).symm⟩
  | cons clause clauses ih =>
    rw [List.flatMap_cons, List.length_append] at h
    obtain ⟨clauses', hshape, hnew⟩ :=
      @ih (new.drop clause.2.length) (by rw [List.length_drop]; omega)
    have hlen : (new.take clause.2.length).length = clause.2.length := by simp; omega
    refine ⟨(clause.1, new.take clause.2.length) :: clauses', ?_, ?_⟩
    · rw [SameShape, List.map_cons, List.map_cons, hlen, hshape]
    · rw [List.flatMap_cons, hnew, List.take_append_drop]

/-- The node given back is the old one exactly when it has nothing that remaking leaves out. -/
theorem back_iff (node : Node N) :
    remakeNodeWithChildren node (nodeChildren node) = some node ↔ Kept node := by
  obtain ⟨form, position, type, slots⟩ := node
  cases slots with
  | bind bindings body | loop bindings body =>
    have hdrop : (bindings.map (·.2) ++ body).drop bindings.length = body := by simp
    simp [remakeNodeWithChildren, nodeChildren, remakeSlots, remakeBindings_same rfl, hdrop, Kept,
      eq_comm]
  | fn | defn =>
    simp [remakeNodeWithChildren, nodeChildren, remakeSlots, remakeClauses_same rfl, Kept, eq_comm]
  | other => simp [remakeNodeWithChildren, Kept]
  | _ => simp [remakeNodeWithChildren, nodeChildren, remakeSlots, Kept, eq_comm]

/-- New children come back from the remade node, and the old ones give the old node. -/
theorem replaced_of_kept {node : Node N} (h : Kept node) {new : List N}
    (hlen : new.length = (nodeChildren node).length) :
    ∃ node', remakeNodeWithChildren node new = some node' ∧
      nodeChildren node' = new ∧ remakeNodeWithChildren node' (nodeChildren node) = some node := by
  obtain ⟨form, position, type, slots⟩ := node
  cases slots with
  | call operator args =>
    obtain ⟨rfl, rfl⟩ := h
    cases new with
    | nil => cases hlen
    | cons o new => exact ⟨_, rfl, rfl, rfl⟩
  | ifNode test thn els =>
    obtain ⟨rfl, rfl⟩ := h
    cases new with
    | nil => cases hlen
    | cons t new =>
      cases new with
      | nil => cases hlen
      | cons a new => exact ⟨_, rfl, rfl, rfl⟩
  | doNode | recur =>
    obtain ⟨rfl, rfl⟩ := h
    exact ⟨_, rfl, rfl, rfl⟩
  | bind bindings body =>
    obtain ⟨rfl, rfl⟩ := h
    obtain ⟨bindings', hsame, hlength, hnew⟩ := exists_samePatterns bindings body hlen
    have hremade := remakeBindings_same hsame (new.drop bindings.length)
    rw [hnew] at hremade
    refine ⟨⟨form, .nil, .nil, .bind bindings' (new.drop bindings.length)⟩, ?_, hnew, ?_⟩ <;>
      simp [remakeNodeWithChildren, nodeChildren, remakeSlots, hremade,
        remakeBindings_same hsame.symm, hlength]
  | loop bindings body =>
    obtain ⟨rfl, rfl⟩ := h
    obtain ⟨bindings', hsame, hlength, hnew⟩ := exists_samePatterns bindings body hlen
    have hremade := remakeBindings_same hsame (new.drop bindings.length)
    rw [hnew] at hremade
    refine ⟨⟨form, .nil, .nil, .loop bindings' (new.drop bindings.length)⟩, ?_, hnew, ?_⟩ <;>
      simp [remakeNodeWithChildren, nodeChildren, remakeSlots, hremade,
        remakeBindings_same hsame.symm, hlength]
  | fn name clauses docstring =>
    obtain ⟨rfl, rfl, rfl⟩ := h
    obtain ⟨clauses', hsame, rfl⟩ := exists_sameShape clauses hlen
    refine ⟨⟨form, .nil, .nil, .fn name clauses' .nil⟩, ?_, rfl, ?_⟩ <;>
      simp [remakeNodeWithChildren, nodeChildren, remakeSlots, remakeClauses_same hsame,
        remakeClauses_same hsame.symm]
  | defn name clauses docstring =>
    obtain ⟨rfl, rfl⟩ := h
    obtain ⟨clauses', hsame, rfl⟩ := exists_sameShape clauses hlen
    refine ⟨⟨form, .nil, .nil, .defn name clauses' docstring⟩, ?_, rfl, ?_⟩ <;>
      simp [remakeNodeWithChildren, nodeChildren, remakeSlots, remakeClauses_same hsame,
        remakeClauses_same hsame.symm]
  | other => exact ⟨_, rfl, (List.length_eq_zero_iff.mp hlen).symm, rfl⟩

/-- **Rebuilding is the inverse of listing** exactly for the nodes that have nothing remaking leaves
out, and no nodes where the methods do not look for them. -/
theorem rebuilds_iff (node : Node N) : Rebuilds node ↔ Kept node ∧ Bare node.slots :=
  ⟨fun h => ⟨(back_iff node).mp h.back, (found_iff node).mp h.found⟩, fun h =>
    ⟨(back_iff node).mpr h.1, fun _ hlen => replaced_of_kept h.1 hlen, (found_iff node).mpr h.2⟩⟩

end Laws

/-- The node of the vector literal `[x]` has no children for `ast.lisp`. -/
theorem rebuilds_fails :
    ¬ Rebuilds (N := Nat) ⟨.nil, .nil, .nil, .other "vector-node" [.ofNodes [0]]⟩ := by
  intro h
  cases h.found

end Fol.Children
