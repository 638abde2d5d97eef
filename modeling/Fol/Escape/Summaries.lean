/-
Fol.Escape.Summaries — escape summaries and the environment the analysis runs in
(`summaries.lisp` and the tables of `escape-analysis.lisp`).

`Env` holds the tables that change while a program is compiled: the summaries
inferred for user functions (Tier 2) and the inlinable helpers. Two facts about the
running image are fields of it as well: which generic functions carry method
combinations (`tier1-op-customized-p`) and which classes are persistent objects.
-/
import Fol.Escape.Ast

namespace Fol.Escape

/-! ## §1 Summaries -/

/-- `+effect-order+`, weakest first. -/
inductive Effect where
  | none
  | invoked
  | sharedWithResult
  | retained
deriving DecidableEq

/-- `returns-kind`. -/
inductive Collection where
  | dict
  | vector
  | set
deriving DecidableEq

structure EscapeSummary where
  paramEffects : List Effect := []
  restEffect : Option Effect := .none
  returnsFresh : Bool := false
  returnsKind : Option Collection := .none
  freshIfClassesTrusted : List Symbol := []
  barrier : Bool := false
deriving DecidableEq

/-- `effect-for-arg`. -/
def effectForArg (summary : EscapeSummary) (index : Nat) : Effect :=
  match summary.paramEffects[index]? with
  | some e => e
  | .none => summary.restEffect.getD .retained

/-- The entries `define-stdlib-summary` makes, several names to a row where the
entries are equal. -/
def stdlibTable : List (List String × EscapeSummary) :=
  [(["GET", "GET-IN", "NTH"], { paramEffects := [.none, .none, .sharedWithResult] }),
    (["FIRST", "SECOND", "THIRD", "LAST", "PEEK", "KEY", "VAL"], { paramEffects := [.none] }),
    (["FIND"], { paramEffects := [.none, .none] }),
    (["COUNT", "SIZE", "EMPTY?"], { paramEffects := [.none], returnsFresh := true }),
    (["CONTAINS?"], { paramEffects := [.none, .none], returnsFresh := true }),
    (["NOT-EMPTY"], { paramEffects := [.sharedWithResult] }),
    (["ASSOC"],
      { paramEffects := [.none, .sharedWithResult, .sharedWithResult]
        restEffect := some .sharedWithResult, returnsFresh := true }),
    (["DISSOC", "DISJ"],
      { paramEffects := [.none, .none], restEffect := some .none, returnsFresh := true }),
    (["CONJ"],
      { paramEffects := [.none, .sharedWithResult], restEffect := some .sharedWithResult
        returnsFresh := true }),
    (["PUSH"], { paramEffects := [.none, .sharedWithResult], returnsFresh := true }),
    (["POP", "REST", "KEYS", "VALS"], { paramEffects := [.none], returnsFresh := true }),
    (["SUBVEC"], { paramEffects := [.none, .none, .none], returnsFresh := true }),
    (["ASSOC-IN"], { paramEffects := [.none, .none, .sharedWithResult], returnsFresh := true }),
    (["MERGE"], { paramEffects := [.none], restEffect := some .none, returnsFresh := true }),
    (["SELECT-KEYS"], { paramEffects := [.none, .none], returnsFresh := true }),
    (["UPDATE", "UPDATE-IN"],
      { paramEffects := [.none, .none, .invoked], restEffect := some .retained
        returnsFresh := true }),
    (["VECTOR", "DICT", "SET", "LIST", "F64-ARRAY", "F32-ARRAY", "FIXNUM-ARRAY"],
      { restEffect := some .sharedWithResult, returnsFresh := true }),
    (["VEC"], { paramEffects := [.sharedWithResult] }),
    (["INTO"], { paramEffects := [.sharedWithResult, .none] }),
    (["RANGE"], { paramEffects := [.none, .none, .none], returnsFresh := true }),
    (["MAPV", "MAP", "MAPCAT"],
      { paramEffects := [.invoked, .none], restEffect := some .none, returnsFresh := true }),
    (["FILTER", "FILTERV", "REMOVE", "KEEP", "EVERY", "TAKE-WHILE", "DROP-WHILE", "SORT-BY",
        "PARTITION-BY"],
      { paramEffects := [.invoked, .none], returnsFresh := true }),
    (["REDUCE"], { paramEffects := [.invoked, .sharedWithResult, .none] }),
    (["SOME"], { paramEffects := [.invoked, .none] }),
    (["TAKE", "DROP", "PARTITION-ALL"], { paramEffects := [.none, .none], returnsFresh := true }),
    (["CONCAT"], { restEffect := some .none, returnsFresh := true }),
    (["REVERSE", "SORT", "DISTINCT"], { paramEffects := [.none], returnsFresh := true }),
    (["INTERPOSE"], { paramEffects := [.sharedWithResult, .none], returnsFresh := true }),
    (["+", "-", "*", "/", "INC", "DEC", "ABS", "MOD", "MIN", "MAX", "=", "<", ">", "<=", ">=",
        "NOT=", "/=", "NOT", "AND", "OR"],
      { restEffect := some .none, returnsFresh := true }),
    (["NIL?", "SOME?", "ZERO?", "POSITIVE?", "NEGATIVE?", "ODD?", "EVEN?", "VECTOR?", "MAP?",
        "STRING?", "NUMBER?", "KEYWORD?", "SYMBOL?", "INTEGER?", "FN?", "COLL?", "SEQ?", "LIST?"],
      { paramEffects := [.none], returnsFresh := true }),
    (["STR"], { restEffect := some .none, returnsFresh := true }),
    (["SUBS"], { paramEffects := [.none, .none, .none], returnsFresh := true }),
    (["JOIN", "SPLIT"], { paramEffects := [.none, .none], returnsFresh := true }),
    (["PRINT", "PRINTLN"], { restEffect := some .none }),
    (["IDENTITY"], { paramEffects := [.sharedWithResult] }),
    (["APPLY", "FUNCALL"], { paramEffects := [.invoked], restEffect := some .retained })]

/-- `*stdlib-summaries*`. -/
def stdlibSummaries (name : String) : Option EscapeSummary :=
  (stdlibTable.find? fun row => row.1.contains name).map (·.2)

/-! ## §2 Environment -/

/-- An entry of `*tr-inlinable-fns*`. -/
structure Helper where
  params : List Symbol
  body : Ast
  accPos : Nat
  accRefCount : Nat

/-- A representation kind: a built-in collection or the class of a persistent
object. -/
inductive Kind where
  | collection (c : Collection)
  | persistentObject (className : Symbol)
deriving DecidableEq

structure Env where
  /-- `*inferred-summaries*` -/
  inferred : Symbol → Option EscapeSummary := fun _ => .none
  /-- `*tr-inlinable-fns*` -/
  inlinableFns : Symbol → Option Helper := fun _ => .none
  /-- `*name-exclusions*` -/
  nameExclusions : List String := []
  /-- `*resolve-by-name*` -/
  resolveByName : Bool := true
  /-- `tier1-op-customized-p` -/
  customized : String → Kind → Bool := fun _ _ => false
  /-- `%persistent-object-class-p` -/
  persistentClass : Symbol → Bool := fun _ => false
  /-- `%reads-forbidden-p` -/
  readsForbidden : Bool := false

/-- `*fol-function-packages*`. -/
def folFunctionPackages : List String :=
  ["FOL.COMPILER.COLLECTION-FUNCTIONS", "FOL.COMPILER.SEQ-FUNCTIONS",
    "FOL.COMPILER.ARRAY-FUNCTIONS", "FOL.COMPILER.ARITHMETIC-FUNCTIONS",
    "FOL.COMPILER.STRING-FUNCTIONS", "FOL.COMPILER.PRIMITIVE-FUNCTIONS",
    "FOL.COMPILER.MERGED-FUNCTIONS", "FOL.COMPILER.COMPAREOPS",
    "FOL.COMPILER.LOGICAL-OPERATION-FUNCTIONS", "FOL.COMPILER.FUNCTIONAL",
    "FOL.COMPILER.ADVERBS", "FOL.COMPILER.COLLECTIONS", "FOL.COMPILER.MISC-FUNCTIONS"]

/-- `fol-stdlib-symbol-p`. -/
def folStdlibSymbolP (s : Symbol) : Bool := folFunctionPackages.contains s.package

def keywordPackage : String := "KEYWORD"

namespace Env

variable (Γ : Env)

/-- Is the symbol resolved against the Tier-1 tables? -/
def resolves (s : Symbol) : Bool :=
  folStdlibSymbolP s || (Γ.resolveByName && !Γ.nameExclusions.contains s.name)

/-- `lookup-summary`. -/
def lookupSummary (s : Symbol) : Option EscapeSummary :=
  if s.package = keywordPackage then .none
  else (Γ.inferred s).or (if Γ.resolves s then stdlibSummaries s.name else .none)

/-- `transient-op-for`. -/
def transientOpFor (s : Symbol) : Option String :=
  if s.package ≠ keywordPackage ∧ Γ.resolves s then
    [("ASSOC", "ASSOC!"), ("CONJ", "CONJ!"), ("DISSOC", "DISSOC!"), ("DISJ", "DISJ!"),
      ("POP", "POP!")].lookup s.name
  else .none

/-- `transient-safe-op-p`. -/
def transientSafeOpP (s : Symbol) : Bool := (Γ.transientOpFor s).isSome

end Env

end Fol.Escape
