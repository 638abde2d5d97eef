/-
Fol.Emit.ClNumbers — numbers that meet the laws of `Arithmetic`: integers and ratios
exact, floats as exact rationals of a kind, complex numbers without their parts.

`fine` is the smallest type of a number. A law of `Arithmetic` about all types of the
operands is one about their smallest types, as contagion is monotone.
-/
import Mathlib.Data.Rat.Defs
import Fol.Emit.NumericRuns

namespace Fol.Numeric

open Fol.Escape

/-! ## §1 Numbers -/

inductive ClNumber where
  | int (n : Int)
  | ratio (q : ℚ)
  | single (q : ℚ)
  | double (q : ℚ)
  | complex
  | other
deriving DecidableEq

namespace ClNumber

/-- The smallest type of the value. -/
def fine : ClNumber → Option NumType
  | .int _ => some .integer
  | .ratio _ => some .number
  | .single _ => some .single
  | .double _ => some .double
  | .complex => some .number
  | .other => none

def real : ClNumber → Option ℚ
  | .int n => some n
  | .ratio q => some q
  | .single q => some q
  | .double q => some q
  | _ => none

/-- A rational, an integer where it is one. -/
def ofRat (q : ℚ) : ClNumber := if q.den = 1 then .int q.num else .ratio q

def ofLiteral : Literal → ClNumber
  | .num n => .int n
  | .ratio num den => .ratio (num / den)
  | .float isDouble mantissa exponent =>
    if isDouble then .double (mantissa * 2 ^ exponent) else .single (mantissa * 2 ^ exponent)
  | .complex _ _ => .complex
  | _ => .other

/-! ## §2 Operations -/

/-- A real of the kind of the number, of the type of a ratio for a ratio. -/
def likeKind (v : ClNumber) (q : ℚ) : ClNumber :=
  match v with
  | .single _ => .single q
  | .double _ => .double q
  | .complex => .complex
  | .other => .other
  | _ => ofRat q

/-- `+`, `-`, `*` and `/` of two rationals. -/
def ratOp (op : String) (p q : ℚ) : ℚ :=
  if op = "+" then p + q else if op = "-" then p - q else if op = "*" then p * q else p / q

/-- One argument: `1+`, `1-`, negation, reciprocal, or the number itself. -/
def unary (op : String) : ClNumber → Option ClNumber
  | .other => none
  | .int n =>
    if op = "INC" then some (.int (n + 1)) else if op = "DEC" then some (.int (n - 1))
    else if op = "-" then some (.int (-n))
    else if op = "/" then (if n = 0 then none else some (ofRat (1 / n)))
    else some (.int n)
  | .complex => some .complex
  | v => v.real.map fun q => v.likeKind <|
      if op = "INC" then q + 1 else if op = "DEC" then q - 1 else if op = "-" then -q
      else if op = "/" then 1 / q else q

/-- Two arguments: the result is of the kind contagion says. -/
def binary (op : String) (v u : ClNumber) : Option ClNumber :=
  if op = "/" ∧ u.real = some 0 then none
  else
    match if op = "/" then numDiv v.fine u.fine else numContagion v.fine u.fine, v.real, u.real with
    | some .double, some p, some q => some (.double (ratOp op p q))
    | some .single, some p, some q => some (.single (ratOp op p q))
    | some .integer, some p, some q => some (.int (ratOp op p q).num)
    | some .number, some p, some q => some (ofRat (ratOp op p q))
    | some .number, _, _ => some .complex
    | _, _, _ => none

theorem fine_ofRat (q : ℚ) : Below (fine (ofRat q)) (some .number) := by
  unfold ofRat
  split <;> exact .inr (.inr ⟨rfl, nofun⟩)

theorem fine_unary {op : String} (hop : op ≠ "/") {v w : ClNumber} (h : unary op v = some w) :
    Below (fine w) (fine v) := by
  cases v with
  | other => cases h
  | int n =>
    simp only [unary, hop, if_false] at h
    split_ifs at h <;> cases h <;> exact .refl _
  | ratio q =>
    cases h
    exact fine_ofRat _
  | _ =>
    cases h
    exact .refl _

/-- The reciprocal of an integer is a number, of the others one of their kind. -/
theorem fine_reciprocal {v w : ClNumber} (h : unary "/" v = some w) :
    Below (fine w) (numDiv (fine v) (fine v)) := by
  cases v with
  | other => cases h
  | int n =>
    have hq : w = ofRat (1 / n) := by
      simp only [unary] at h
      split_ifs at h <;> simp_all
    rw [hq]
    exact fine_ofRat _
  | ratio q =>
    cases h
    exact fine_ofRat _
  | _ =>
    cases h
    exact .refl _

theorem fine_binary {op : String} {v u w : ClNumber} (h : binary op v u = some w) :
    Below (fine w) (if op = "/" then numDiv (fine v) (fine u)
      else numContagion (fine v) (fine u)) := by
  unfold binary at h
  split at h
  · cases h
  · revert h
    generalize (if op = "/" then numDiv v.fine u.fine else numContagion v.fine u.fine) = t
    intro h
    split at h <;> cases h
    case h_4 => exact fine_ofRat _
    all_goals exact .refl _

end ClNumber

/-! ## §3 Arithmetic -/

open ClNumber in
/-- The numbers of `ClNumber`; a value has a type when its smallest type is below it. -/
def clArithmetic : Arithmetic ClNumber where
  hasType t v := Below v.fine (some t)
  literal := ofLiteral
  constant op := if op = "*" then some (.int 1) else if op = "+" then some (.int 0) else none
  unary := ClNumber.unary
  binary := ClNumber.binary
  number_of := by
    intro t v h
    exact h.trans (.number t)
  literal_type := by
    intro l t h
    cases l with
    | float isDouble _ _ =>
      cases isDouble <;>
      · cases h
        exact .refl _
    | num _ | ratio _ _ | complex _ _ =>
      cases h
      exact .refl _
    | _ => cases h
  constant_type := by
    intro op v h
    split_ifs at h <;> cases h <;> exact .refl _
  unary_type := by
    intro op t v w hop hv hw
    exact (fine_unary hop hw).trans hv
  reciprocal_type := by
    intro t v w ht hv hw
    refine (fine_reciprocal hw).trans ((Below.div hv hv).trans ?_)
    cases t with
    | integer => exact absurd rfl ht
    | _ => exact .refl _
  binary_type := by
    intro op t t' u v w x hop hv hu hw hx
    have h := fine_binary hw
    rw [if_neg hop] at h
    exact h.trans (hx ▸ Below.contagion hv hu)
  quotient_type := by
    intro t t' u v w x hv hu hw hx
    have h := fine_binary hw
    rw [if_pos rfl] at h
    exact h.trans (hx ▸ Below.div hv hu)

end Fol.Numeric
