/-
Fol.Emit.Shorthand — `#(…)` of reader.lisp, the function shorthand.

Two walks go over the forms between the parentheses. The scan looks for placeholders by
their names, in conses and in vector, dict and set literals, and the largest number it meets
is the number of parameters. The substitution puts `%1` for `%`, and goes through conses only.
A body of one form is the body of the function as it is, any other is taken for a call.
-/
import Fol.Emit.SyntaxQuote
import Mathlib.Order.Lattice
import Std.Data.String.ToNat

namespace Fol.Emit.Shorthand

open SyntaxQuote

/-! ## §1 Reading -/

/-- `*package*`: the symbol that `intern` finds or makes for a name. -/
structure Package where
  intern : String → Sym
  name_intern : ∀ name, (intern name).name = name

attribute [simp] Package.name_intern

/-- `:eof`. -/
def eof : Sym := .named "KEYWORD" "EOF"

/-- `(list …)`. -/
def listForm (forms : List Form) : Form := forms.foldr .cons .nil

/-- The number in a name that is `%` and digits. -/
def numbered (name : String) : Option Nat :=
  match name.toList with
  | '%' :: d :: ds =>
    if (d :: ds).all Char.isDigit then some (Nat.ofDigitChars 10 (d :: ds) 0) else none
  | _ => none

/-- `max-param` and `has-rest`. -/
structure Scan where
  maxParam : Nat := 0
  hasRest : Bool := false
deriving DecidableEq

/-- The symbol branch of `scan`. -/
def scanSymbol (x : Sym) (s : Scan) : Scan :=
  if x.name = "%" then { s with maxParam := max s.maxParam 1 }
  else
    match numbered x.name with
    | some n => { s with maxParam := max s.maxParam n }
    | none => if x.name = "%&" then { s with hasRest := true } else s

mutual

/-- `scan`. -/
def scan (form : Form) (s : Scan) : Scan :=
  match form with
  | .sym x => scanSymbol x s
  | .cons a d => scan d (scan a s)
  | .coll .vector items => scanItems .vector items s
  | .coll .dict items => scanItems .dict items s
  | .coll .set items => scanItems .set items s
  -- a bag is no `<set>`, a deque no `<vector>`
  | _ => s

/-- The loop over the `collection-seq` of a literal, which ends at an `:eof` of a vector. -/
def scanItems (kind : Kind) (items : List Form) (s : Scan) : Scan :=
  match items with
  | [] => s
  | x :: xs => if kind = .vector ∧ x.isSym eof then s else scanItems kind xs (scan x s)

end

/-- `(dolist (f body-forms) (scan f))`. -/
def scanForms (bodyForms : List Form) : Scan := bodyForms.foldl (fun s f => scan f s) {}

section Reading

variable (pkg : Package)

/-- `%1` to `%n`. -/
def numberedParams (n : Nat) : List Sym :=
  (List.range n).map fun i => pkg.intern ("%" ++ toString (i + 1))

/-- `final-params`. -/
def finalParams (s : Scan) : List Sym :=
  numberedParams pkg s.maxParam ++ if s.hasRest then [pkg.intern "&", pkg.intern "%&"] else []

/-- `subst-percent`. -/
def substPercent : Form → Form
  | .sym x => if x.name = "%" then .sym (pkg.intern "%1") else .sym x
  | .cons a d => .cons (substPercent a) (substPercent d)
  | form => form

/-- `(fn PARAMS BODY)`. -/
def fnForm (params : List Sym) (body : Form) : Form :=
  listForm [.sym (.named "FOL.COMPILER.READER" "FN"), .coll .vector (params.map .sym), body]

/-- `read-fol-fn-shorthand`, on the forms that `read-delimited-list` returns. -/
def readFnShorthand (bodyForms : List Form) : Form :=
  let finalBody := bodyForms.map (substPercent pkg)
  fnForm (finalParams pkg (scanForms bodyForms))
    (match finalBody with
      | [form] => form
      | forms => listForm forms)

end Reading

/-! ## §2 Meaning -/

mutual

/-- The symbols of a form, at every depth. -/
def symbols : Form → List Sym
  | .sym x => [x]
  | .cons a d => symbols a ++ symbols d
  | .coll _ items => itemSymbols items
  | .nil => []
  | .lit _ => []

def itemSymbols : List Form → List Sym
  | [] => []
  | x :: xs => symbols x ++ itemSymbols xs

end

section Meaning

variable (pkg : Package)

/-- The parameter that a placeholder stands for: `%` and `%1` for the first, `%k` for the k-th. No
other symbol has one. -/
def index (x : Sym) : Nat :=
  if x = pkg.intern "%" then 1
  else
    match numbered x.name with
    | some k => if x = pkg.intern ("%" ++ toString k) then k else 0
    | none => 0

/-- A placeholder, by the parameter it denotes. -/
def denoted (x : Sym) : Sym := if x = pkg.intern "%" then pkg.intern "%1" else x

mutual

/-- The form with every `%` denoting the first parameter. -/
def fill : Form → Form
  | .sym x => .sym (denoted pkg x)
  | .cons a d => .cons (fill a) (fill d)
  | .coll kind items => .coll kind (fillItems items)
  | .nil => .nil
  | .lit text => .lit text

def fillItems : List Form → List Form
  | [] => []
  | x :: xs => fill x :: fillItems xs

end

/-- The largest of the numbers. -/
def largest (number : Sym → Nat) (xs : List Sym) : Nat := (xs.map number).foldr max 0

/-- The parameters of a function with the placeholders of the body. -/
def intendedParams (bodyForms : List Form) : List Sym :=
  numberedParams pkg (largest (index pkg) (itemSymbols bodyForms)) ++
    if pkg.intern "%&" ∈ itemSymbols bodyForms then [pkg.intern "&", pkg.intern "%&"] else []

/-- A placeholder: `%`, `%k` for a positive k, or `%&`. -/
def IsPlaceholder (x : Sym) : Prop := 0 < index pkg x ∨ x = pkg.intern "%&"

/-- The form is the function over the placeholders of the body: its parameters are `%1` up to the
largest index (and the rest), its body is the call as written, and every placeholder is bound. -/
structure Denotes (bodyForms : List Form) (form : Form) : Prop where
  reads : form = fnForm (intendedParams pkg bodyForms) (listForm (bodyForms.map (fill pkg)))
  bound : ∀ x ∈ itemSymbols (bodyForms.map (fill pkg)), IsPlaceholder pkg x →
    x ∈ intendedParams pkg bodyForms

end Meaning

/-! ## §3 Scan -/

mutual

/-- The symbols that the scan reaches. -/
def scanned : Form → List Sym
  | .sym x => [x]
  | .cons a d => scanned a ++ scanned d
  | .coll .vector items => scannedItems .vector items
  | .coll .dict items => scannedItems .dict items
  | .coll .set items => scannedItems .set items
  | _ => []

def scannedItems (kind : Kind) : List Form → List Sym
  | [] => []
  | x :: xs => if kind = .vector ∧ x.isSym eof then [] else scanned x ++ scannedItems kind xs

end

/-- The number the scan takes a symbol for. -/
def counted (x : Sym) : Nat := if x.name = "%" then 1 else (numbered x.name).getD 0

/-- What the scan makes of some symbols. -/
def Scan.over (s : Scan) (xs : List Sym) : Scan :=
  { maxParam := max s.maxParam (largest counted xs)
    hasRest := s.hasRest || xs.any fun x => x.name == "%&" }

@[simp] theorem largest_nil (number : Sym → Nat) : largest number [] = 0 := rfl

@[simp] theorem largest_cons (number : Sym → Nat) (x : Sym) (xs : List Sym) :
    largest number (x :: xs) = max (number x) (largest number xs) := rfl

@[simp] theorem largest_append (number : Sym → Nat) (xs ys : List Sym) :
    largest number (xs ++ ys) = max (largest number xs) (largest number ys) := by
  induction xs with
  | nil => simp
  | cons x xs ih => simp [ih, max_assoc]

theorem le_largest {number : Sym → Nat} {x : Sym} {xs : List Sym} (h : x ∈ xs) :
    number x ≤ largest number xs := by
  induction xs with
  | nil => cases h
  | cons y ys ih =>
    rw [largest_cons]
    rcases List.mem_cons.mp h with rfl | h
    · exact le_max_left _ _
    · exact le_trans (ih h) (le_max_right _ _)

@[simp] theorem over_nil (s : Scan) : s.over [] = s := by
  cases s
  simp [Scan.over]

theorem over_append (s : Scan) (xs ys : List Sym) : s.over (xs ++ ys) = (s.over xs).over ys := by
  simp [Scan.over, max_assoc, Bool.or_assoc]

theorem numbered_rest : numbered "%&" = none := by decide

theorem scanSymbol_eq (x : Sym) (s : Scan) : scanSymbol x s = s.over [x] := by
  unfold scanSymbol Scan.over
  by_cases hpercent : x.name = "%"
  · simp [counted, hpercent]
  · by_cases hrest : x.name = "%&"
    · simp [counted, hrest, numbered_rest]
    · cases hnum : numbered x.name with
      | none =>
        have hname : (x.name == "%&") = false := beq_eq_false_iff_ne.mpr hrest
        simp [counted, hpercent, hrest, hnum, hname]
      | some n => simp [counted, hpercent, hrest, hnum]

mutual

theorem scan_eq (form : Form) (s : Scan) : scan form s = s.over (scanned form) := by
  cases form with
  | nil => simp [scan, scanned]
  | sym x => exact scanSymbol_eq x s
  | lit text => simp [scan, scanned]
  | cons a d => rw [scan, scanned, over_append, scan_eq a, scan_eq d]
  | coll kind items =>
    cases kind with
    | vector => exact scanItems_eq .vector items s
    | dict => exact scanItems_eq .dict items s
    | set => exact scanItems_eq .set items s
    | bag => simp [scan, scanned]
    | deque => simp [scan, scanned]

theorem scanItems_eq (kind : Kind) (items : List Form) (s : Scan) :
    scanItems kind items s = s.over (scannedItems kind items) := by
  cases items with
  | nil => simp [scanItems, scannedItems]
  | cons x xs =>
    rw [scanItems, scannedItems]
    split
    · simp
    · rw [over_append, scan_eq x, scanItems_eq kind xs]

end

/-- The body forms' symbols that the scan reaches. -/
def scannedForms (bodyForms : List Form) : List Sym := bodyForms.flatMap scanned

theorem scanForms_eq (bodyForms : List Form) :
    scanForms bodyForms = ({} : Scan).over (scannedForms bodyForms) := by
  have hfold : ∀ (fs : List Form) (s : Scan),
      fs.foldl (fun s f => scan f s) s = s.over (scannedForms fs) := by
    intro fs
    induction fs with
    | nil => simp [scannedForms]
    | cons f fs ih =>
      intro s
      have hcons : scannedForms (f :: fs) = scanned f ++ scannedForms fs := List.flatMap_cons
      rw [List.foldl_cons, ih, scan_eq, hcons, over_append]
  exact hfold bodyForms {}

/-! ## §4 Result -/

/-- The symbols of a form outside of its literals. -/
def openSymbols : Form → List Sym
  | .sym x => [x]
  | .cons a d => openSymbols a ++ openSymbols d
  | _ => []

/-- The symbols in the literals of a form. -/
def literalSymbols : Form → List Sym
  | .cons a d => literalSymbols a ++ literalSymbols d
  | .coll _ items => itemSymbols items
  | _ => []

/-- The two walks cover the placeholders of the body, and the body is a call. -/
structure Covered (pkg : Package) (bodyForms : List Form) : Prop where
  several : bodyForms.length ≠ 1
  literals : ∀ f ∈ bodyForms, pkg.intern "%" ∉ literalSymbols f
  named : ∀ f ∈ bodyForms, ∀ x ∈ openSymbols f, x.name = "%" → x = pkg.intern "%"
  numbers : largest counted (scannedForms bodyForms) =
    largest (index pkg) (itemSymbols bodyForms)
  rest : (∃ x ∈ scannedForms bodyForms, x.name = "%&") ↔ pkg.intern "%&" ∈ itemSymbols bodyForms

section Result

variable {pkg : Package}

theorem intern_ne {a b : String} (h : a ≠ b) : pkg.intern a ≠ pkg.intern b := by
  intro heq
  have hname := congrArg Sym.name heq
  rw [pkg.name_intern, pkg.name_intern] at hname
  exact h hname

/-- `parse-integer` gives back the number that `format` wrote. -/
theorem numbered_toString (k : Nat) : numbered ("%" ++ toString k) = some k := by
  have hlist : ("%" ++ toString k).toList = '%' :: Nat.toDigits 10 k := by
    rw [String.toList_append]
    simp [Nat.repr]
  have hdigits : (Nat.toDigits 10 k).all Char.isDigit = true := by
    rw [List.all_eq_true]
    exact fun c hc => Nat.isDigit_of_mem_toDigits (by omega) (by omega) hc
  have hof : Nat.ofDigitChars 10 (Nat.toDigits 10 k) 0 = k := Nat.ofDigitChars_ten_toDigits
  rw [numbered, hlist]
  cases hd : Nat.toDigits 10 k with
  | nil => exact absurd hd Nat.toDigits_ne_nil
  | cons d ds =>
    rw [hd] at hdigits hof
    simp only [hdigits, if_true, hof]

theorem toString_ne_rest (k : Nat) : "%" ++ toString k ≠ "%&" := by
  intro h
  have hnum := numbered_toString k
  rw [h, numbered_rest] at hnum
  cases hnum

theorem mem_numberedParams {n : Nat} {x : Sym} :
    x ∈ numberedParams pkg n ↔ ∃ k, 0 < k ∧ k ≤ n ∧ x = pkg.intern ("%" ++ toString k) := by
  simp only [numberedParams, List.mem_map, List.mem_range]
  constructor
  · rintro ⟨i, hi, rfl⟩
    exact ⟨i + 1, Nat.succ_pos i, hi, rfl⟩
  · rintro ⟨k, hpos, hle, rfl⟩
    exact ⟨k - 1, by omega, by rw [Nat.sub_add_cancel hpos]⟩

theorem index_spec {x : Sym} (h : 0 < index pkg x) (hne : x ≠ pkg.intern "%") :
    x = pkg.intern ("%" ++ toString (index pkg x)) := by
  unfold index at h ⊢
  rw [if_neg hne] at h ⊢
  cases hnum : numbered x.name with
  | none => simp [hnum] at h
  | some k =>
    simp only [hnum] at h ⊢
    by_cases hx : x = pkg.intern ("%" ++ toString k)
    · rw [if_pos hx]
      exact hx
    · rw [if_neg hx] at h
      exact absurd h (Nat.lt_irrefl 0)

/-- Parameter lists are equal only for one number and one answer about the rest. -/
theorem params_inj {m n : Nat} {p q : Prop} [Decidable p] [Decidable q]
    (h : (numberedParams pkg m ++ if p then [pkg.intern "&", pkg.intern "%&"] else []) =
      numberedParams pkg n ++ if q then [pkg.intern "&", pkg.intern "%&"] else []) :
    m = n ∧ (p ↔ q) := by
  have hmem (k : Nat) (r : Prop) [Decidable r] : pkg.intern "%&" ∈ (numberedParams pkg k ++
      if r then [pkg.intern "&", pkg.intern "%&"] else []) ↔ r := by
    have hnum : pkg.intern "%&" ∉ numberedParams pkg k := by
      rw [mem_numberedParams]
      rintro ⟨i, -, -, hi⟩
      exact intern_ne (toString_ne_rest i).symm hi
    by_cases hr : r
    · simp [hr]
    · simp [hr, hnum]
  have hpq : p ↔ q := by rw [← hmem m p, h, hmem n q]
  refine ⟨?_, hpq⟩
  have hlen := congrArg List.length h
  simp only [hpq, List.length_append, numberedParams, List.length_map, List.length_range] at hlen
  omega

theorem listForm_inj {xs ys : List Form} (h : listForm xs = listForm ys) : xs = ys := by
  induction xs generalizing ys with
  | nil =>
    cases ys with
    | nil => rfl
    | cons y ys => cases h
  | cons x xs ih =>
    cases ys with
    | nil => cases h
    | cons y ys =>
      obtain ⟨hx, hxs⟩ := Form.cons.inj h
      rw [hx, ih hxs]

theorem fnForm_inj {ps qs : List Sym} {a b : Form} (h : fnForm ps a = fnForm qs b) :
    ps = qs ∧ a = b := by
  have hlist := listForm_inj h
  simp only [List.cons.injEq, Form.coll.injEq, true_and, and_true] at hlist
  exact ⟨List.map_injective_iff.mpr (fun x y hxy => Form.sym.inj hxy) hlist.1, hlist.2⟩

theorem percent_ne_first : pkg.intern "%1" ≠ pkg.intern "%" := intern_ne (by decide)

theorem denoted_eq_self_iff (x : Sym) : denoted pkg x = x ↔ x ≠ pkg.intern "%" := by
  unfold denoted
  by_cases hx : x = pkg.intern "%"
  · simp [hx, percent_ne_first]
  · simp [hx]

mutual

/-- Only `%` is replaced. -/
theorem fill_eq_self_iff (f : Form) : fill pkg f = f ↔ pkg.intern "%" ∉ symbols f := by
  cases f with
  | nil => simp [fill, symbols]
  | lit text => simp [fill, symbols]
  | sym x => simp [fill, symbols, denoted_eq_self_iff, eq_comm (a := pkg.intern "%")]
  | cons a d => simp [fill, symbols, fill_eq_self_iff a, fill_eq_self_iff d]
  | coll kind items => simp [fill, symbols, fillItems_eq_self_iff items]

theorem fillItems_eq_self_iff (items : List Form) :
    fillItems pkg items = items ↔ pkg.intern "%" ∉ itemSymbols items := by
  cases items with
  | nil => simp [fillItems, itemSymbols]
  | cons x xs => simp [fillItems, itemSymbols, fill_eq_self_iff x, fillItems_eq_self_iff xs]

end

/-- On a symbol outside of a literal, the substitution takes every `%` for the placeholder. -/
theorem subst_symbol_iff (x : Sym) :
    (if x.name = "%" then Form.sym (pkg.intern "%1") else .sym x) = .sym (denoted pkg x) ↔
      (x.name = "%" → x = pkg.intern "%") := by
  unfold denoted
  by_cases hx : x = pkg.intern "%"
  · simp [hx]
  · by_cases hname : x.name = "%"
    · have hne : pkg.intern "%1" ≠ x := by
        intro h
        rw [← h, pkg.name_intern] at hname
        exact absurd hname (by decide)
      simp [hx, hname, hne]
    · simp [hx, hname]

/-- The substitution does what it should exactly where no literal has a `%`, and no other symbol
of that name is outside of one. -/
theorem substPercent_eq_fill_iff (f : Form) :
    substPercent pkg f = fill pkg f ↔ pkg.intern "%" ∉ literalSymbols f ∧
      ∀ x ∈ openSymbols f, x.name = "%" → x = pkg.intern "%" := by
  cases f with
  | nil => simp [substPercent, fill, literalSymbols, openSymbols]
  | lit text => simp [substPercent, fill, literalSymbols, openSymbols]
  | sym x =>
    rw [substPercent, fill, subst_symbol_iff]
    simp [literalSymbols, openSymbols]
  | coll kind items =>
    rw [substPercent, fill, Form.coll.injEq]
    · simp [literalSymbols, openSymbols, eq_comm (a := items), fillItems_eq_self_iff]
    · simp
    · simp
  | cons a d =>
    rw [substPercent, fill, Form.cons.injEq, substPercent_eq_fill_iff a, substPercent_eq_fill_iff d]
    simp only [literalSymbols, openSymbols, List.mem_append]
    constructor
    · rintro ⟨⟨hla, hoa⟩, hld, hod⟩
      exact ⟨not_or.mpr ⟨hla, hld⟩, fun x hx => hx.elim (hoa x) (hod x)⟩
    · rintro ⟨hl, ho⟩
      obtain ⟨hla, hld⟩ := not_or.mp hl
      exact ⟨⟨hla, fun x hx => ho x (.inl hx)⟩, hld, fun x hx => ho x (.inr hx)⟩

/-- The conses of a form. -/
def conses : Form → Nat
  | .cons a d => conses a + conses d + 1
  | _ => 0

theorem conses_substPercent (f : Form) : conses (substPercent pkg f) = conses f := by
  cases f with
  | cons a d => simp [substPercent, conses, conses_substPercent a, conses_substPercent d]
  | sym x =>
    unfold substPercent
    split <;> rfl
  | _ => rfl

theorem conses_fill (f : Form) : conses (fill pkg f) = conses f := by
  cases f with
  | cons a d => simp [fill, conses, conses_fill a, conses_fill d]
  | _ => rfl

mutual

theorem symbols_fill (f : Form) : symbols (fill pkg f) = (symbols f).map (denoted pkg) := by
  cases f with
  | nil => rfl
  | lit text => rfl
  | sym x => rfl
  | cons a d => simp [fill, symbols, symbols_fill a, symbols_fill d]
  | coll kind items => exact itemSymbols_fillItems items

theorem itemSymbols_fillItems (items : List Form) :
    itemSymbols (fillItems pkg items) = (itemSymbols items).map (denoted pkg) := by
  cases items with
  | nil => rfl
  | cons x xs => simp [fillItems, itemSymbols, symbols_fill x, itemSymbols_fillItems xs]

end

theorem fillItems_eq_map (items : List Form) : fillItems pkg items = items.map (fill pkg) := by
  induction items with
  | nil => rfl
  | cons x xs ih => rw [fillItems, ih, List.map_cons]

theorem index_percent : index pkg (pkg.intern "%") = 1 := by simp [index]

/-- Every placeholder of the filled body is one of the intended parameters. -/
theorem bound_of_intended (bodyForms : List Form) {x : Sym}
    (hx : x ∈ itemSymbols (bodyForms.map (fill pkg))) (hp : IsPlaceholder pkg x) :
    x ∈ intendedParams pkg bodyForms := by
  rw [← fillItems_eq_map, itemSymbols_fillItems] at hx
  obtain ⟨y, hy, rfl⟩ := List.mem_map.mp hx
  have hle : index pkg y ≤ largest (index pkg) _ := le_largest hy
  unfold denoted at hp ⊢
  rw [intendedParams, List.mem_append, mem_numberedParams]
  by_cases hpercent : y = pkg.intern "%"
  · rw [if_pos hpercent]
    rw [hpercent, index_percent] at hle
    exact .inl ⟨1, Nat.one_pos, hle, rfl⟩
  · rw [if_neg hpercent] at hp ⊢
    rcases hp with hpos | hrest
    · exact .inl ⟨index pkg y, hpos, hle, index_spec hpos hpercent⟩
    · rw [hrest] at hy ⊢
      simp [hy]

theorem readFnShorthand_of_several {bodyForms : List Form} (h : bodyForms.length ≠ 1) :
    readFnShorthand pkg bodyForms = fnForm (finalParams pkg (scanForms bodyForms))
      (listForm (bodyForms.map (substPercent pkg))) := by
  cases bodyForms with
  | nil => rfl
  | cons f fs =>
    cases fs with
    | nil => exact absurd rfl h
    | cons g fs => rfl

theorem finalParams_eq (bodyForms : List Form) : finalParams pkg (scanForms bodyForms) =
    numberedParams pkg (largest counted (scannedForms bodyForms)) ++
      if ∃ x ∈ scannedForms bodyForms, x.name = "%&" then [pkg.intern "&", pkg.intern "%&"]
      else [] := by
  rw [scanForms_eq, finalParams, Scan.over]
  simp

/-- The form read is the function over the placeholders of the body exactly if the body is not of
one form and both walks cover its placeholders. -/
theorem shorthand_denotes_iff (pkg : Package) (bodyForms : List Form) :
    Denotes pkg bodyForms (readFnShorthand pkg bodyForms) ↔ Covered pkg bodyForms := by
  constructor
  · rintro ⟨hreads, -⟩
    have hseveral : bodyForms.length ≠ 1 := by
      intro hone
      obtain ⟨f, rfl⟩ := List.length_eq_one_iff.mp hone
      have hbody : substPercent pkg f = .cons (fill pkg f) .nil := (fnForm_inj hreads).2
      have hconses := congrArg conses hbody
      simp only [conses, conses_substPercent, conses_fill] at hconses
      omega
    rw [readFnShorthand_of_several hseveral] at hreads
    obtain ⟨hparams, hbody⟩ := fnForm_inj hreads
    rw [finalParams_eq] at hparams
    obtain ⟨hnumbers, hrest⟩ := params_inj hparams
    have hforms (f : Form) (hf : f ∈ bodyForms) :=
      (substPercent_eq_fill_iff f).mp (List.map_inj_left.mp (listForm_inj hbody) f hf)
    exact ⟨hseveral, fun f hf => (hforms f hf).1, fun f hf => (hforms f hf).2, hnumbers, hrest⟩
  · intro h
    refine ⟨?_, fun x => bound_of_intended bodyForms⟩
    have hbody : bodyForms.map (substPercent pkg) = bodyForms.map (fill pkg) :=
      List.map_inj_left.mpr fun f hf =>
        (substPercent_eq_fill_iff f).mpr ⟨h.literals f hf, h.named f hf⟩
    rw [readFnShorthand_of_several h.several, hbody, finalParams_eq, intendedParams, h.numbers]
    simp only [h.rest]

end Result

/-- The user's package. -/
def user : Package where
  intern name := .named "FOL.USER" name
  name_intern _ := rfl

/-- `#(f [%])` is read with the `%` of the vector free. -/
theorem percent_left_free :
    readFnShorthand user [.sym (user.intern "F"), .coll .vector [.sym (user.intern "%")]] =
        fnForm [user.intern "%1"]
          (listForm [.sym (user.intern "F"), .coll .vector [.sym (user.intern "%")]]) ∧
      ¬Denotes user [.sym (user.intern "F"), .coll .vector [.sym (user.intern "%")]]
        (readFnShorthand user [.sym (user.intern "F"),
          .coll .vector [.sym (user.intern "%")]]) := by
  refine ⟨rfl, fun h => ?_⟩
  have hbody := listForm_inj (fnForm_inj h.reads).2
  simp [substPercent, fill, fillItems, denoted, user] at hbody

end Fol.Emit.Shorthand
