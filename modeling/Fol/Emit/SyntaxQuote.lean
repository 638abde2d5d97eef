/-
Fol.Emit.SyntaxQuote — syntax-quote from the reader's text marks to the
value of the compiled code.

A syntax-quoted form is walked three times: `read-syntax-quote-form` of
reader.lisp gives the auto-gensyms their symbols, and
`parse-syntax-quote-template` and `emit-syntax-quote-template` of
compiler.lisp look for the holes.  Each walk has a case analysis of its own
and none of them enters a collection literal, which the reader has made an
object by then.

The hole marks of the two files are not the same symbols.  reader.lisp is
in the package fol.compiler.reader, which exports no `unquote`, so `~x` reads
as a list headed by that package's symbol; the parser, in the package
fol.compiler, compares with `eq` to its own.

## Sections

§1 symbols and forms, §2 the reader, §3 the parser, §4 the emitter and the
value of the code, §5 what a syntax-quote is for: the template filled,
§6 what a template holds: its holes, its auto-gensym names, its weight.
-/
import Mathlib.Data.List.Basic

namespace Fol.Emit.SyntaxQuote

/-! ## §1 Symbols and forms -/

/-- A symbol with a home package, or one made by `gensym`, which is known
by when it was made. -/
inductive Sym where
  | named (package name : String)
  | made (id : Nat) (stem : String)
deriving DecidableEq

/-- `symbol-name`; `gensym` appends its counter to the stem it is given. -/
def Sym.name : Sym → String
  | .named _ name => name
  | .made id stem => stem ++ toString id

/-- The collection literals of the reader. -/
inductive Kind where
  | vector | dict | set | bag | deque
deriving DecidableEq

/-- What the reader returns.  The items of a dict are its keys and values
in turn. -/
inductive Form where
  | nil
  | sym (s : Sym)
  | lit (text : String)
  | coll (kind : Kind) (items : List Form)
  | cons (car cdr : Form)

/-- `(eq form 'symbol)`. -/
def Form.isSym : Form → Sym → Bool
  | .sym s, t => s == t
  | _, _ => false

/-- `(list a b)`. -/
def Form.list2 (a b : Form) : Form := .cons a (.cons b .nil)

/-- `second`, which refuses a dotted pair. -/
def Form.second : Form → Except String Form
  | .nil => .ok .nil
  | .cons _ .nil => .ok .nil
  | .cons _ (.cons e _) => .ok e
  | _ => .error "The value is not of type LIST"

/-! ## §2 The reader -/

def readerUnquote : Sym := .named "FOL.COMPILER.READER" "UNQUOTE"
def readerUnquoteSplicing : Sym := .named "FOL.COMPILER.READER" "UNQUOTE-SPLICING"
def readerSyntaxQuote : Sym := .named "FOL.COMPILER.READER" "SYNTAX-QUOTE"

/-- `read-fol-unquote` on `~form` and on `~@form`. -/
def readFolUnquote (splicing : Bool) (form : Form) : Form :=
  .list2 (.sym (if splicing then readerUnquoteSplicing else readerUnquote)) form

def Sym.autoGensymP (s : Sym) : Bool :=
  decide (1 < s.name.length) && s.name.toList.getLast? == some '#'

/-- The name without its trailing `#`. -/
def Sym.baseName (s : Sym) : String := String.ofList s.name.toList.dropLast

/-- `*gensym-env*`, unbound outside of a syntax-quote, and how many symbols
`gensym` has made. -/
structure Gensyms where
  env : Option (List (String × Sym))
  counter : Nat

def resolveAutoGensym (s : Sym) (g : Gensyms) : Except String (Sym × Gensyms) :=
  match g.env with
  | none => .error ("Auto-gensym symbol " ++ s.name ++ " used outside syntax-quote")
  | some env =>
      match env.lookup s.baseName with
      | some existing => .ok (existing, g)
      | none =>
          let fresh := Sym.made g.counter (s.baseName ++ "__")
          .ok (fresh, ⟨some ((s.baseName, fresh) :: env), g.counter + 1⟩)

def readSyntaxQuoteForm : Form → Gensyms → Except String (Form × Gensyms)
  | .sym s, g =>
      if s.autoGensymP then (resolveAutoGensym s g).map fun r => (.sym r.1, r.2)
      else .ok (.sym s, g)
  | .cons a d, g =>
      if a.isSym readerUnquote then .ok (.cons a d, g)
      else if a.isSym readerUnquoteSplicing then .ok (.cons a d, g)
      else do
        let ra ← readSyntaxQuoteForm a g
        let rd ← readSyntaxQuoteForm d ra.2
        return (.cons ra.1 rd.1, rd.2)
  -- everything else, the collection objects among it, passes through
  | form, g => .ok (form, g)

/-- `read-fol-syntax-quote` on a form just read, with the count of the
symbols made so far. -/
def readFolSyntaxQuote (form : Form) (counter : Nat) : Except String (Form × Nat) := do
  let r ← readSyntaxQuoteForm form ⟨some [], counter⟩
  return (.list2 (.sym readerSyntaxQuote) r.1, r.2.counter)

/-! ## §3 The parser -/

def compilerUnquote : Sym := .named "FOL.COMPILER" "UNQUOTE"
def compilerUnquoteSplicing : Sym := .named "FOL.COMPILER" "UNQUOTE-SPLICING"

/-- The compiler apart from syntax-quote: `parse-form`, and `emit-node` on
what it returns. -/
structure Compiler (Ast : Type) where
  parseForm : Form → Except String Ast
  emitNode : Ast → Except String Form

/-- A parsed template: conses and atoms, with nodes where holes are. -/
inductive Template (Ast : Type) where
  | unquoteNode (expr : Ast)
  | unquoteSplicingNode (expr : Ast)
  | cons (car cdr : Template Ast)
  | atom (form : Form)

variable {Ast : Type} (compiler : Compiler Ast)

def parseSyntaxQuoteTemplate : Form → Except String (Template Ast)
  | .cons a d =>
      if a.isSym compilerUnquote then do
        let expr ← (Form.cons a d).second
        let ast ← compiler.parseForm expr
        return .unquoteNode ast
      else if a.isSym compilerUnquoteSplicing then do
        let expr ← (Form.cons a d).second
        let ast ← compiler.parseForm expr
        return .unquoteSplicingNode ast
      else do
        let ta ← parseSyntaxQuoteTemplate a
        let td ← parseSyntaxQuoteTemplate d
        return .cons ta td
  | form => .ok (.atom form)

/-- `parse-syntax-quote`: the form must be an operator and one template. -/
def parseSyntaxQuote : Form → Except String (Template Ast)
  | .cons _ (.cons template .nil) => parseSyntaxQuoteTemplate compiler template
  | _ => .error "Error while parsing arguments to DESTRUCTURING-BIND"

/-! ## §4 The emitter and the value of the code -/

def clQuote : Sym := .named "COMMON-LISP" "QUOTE"

def emitSyntaxQuoteTemplate : Template Ast → Except String Form
  | .unquoteNode expr => compiler.emitNode expr
  -- a backquoted list of one `,@`: the code itself
  | .unquoteSplicingNode expr => compiler.emitNode expr
  | .cons ta td => do
      let a ← emitSyntaxQuoteTemplate ta
      let d ← emitSyntaxQuoteTemplate td
      return .cons a d
  | .atom form => .ok form

def emitSyntaxQuote (template : Template Ast) : Except String Form := do
  let body ← emitSyntaxQuoteTemplate compiler template
  return .list2 (.sym clQuote) body

/-- The value of `(quote datum)`. -/
def evalQuote : Form → Except String Form
  | .cons op (.cons datum .nil) =>
      if op.isSym clQuote then .ok datum else .error "not a quote form"
  | _ => .error "not a quote form"

/-- A syntax-quote form parsed, emitted and evaluated. -/
def syntaxQuoteValue (form : Form) : Except String Form := do
  let template ← parseSyntaxQuote compiler form
  let code ← emitSyntaxQuote compiler template
  evalQuote code

/-- The values of syntax-quotes read one after the other. -/
def session : Nat → List Form → List (Except String Form)
  | _, [] => []
  | counter, form :: forms =>
      match readFolSyntaxQuote form counter with
      | .ok (quoted, counter') =>
          syntaxQuoteValue compiler quoted :: session counter' forms
      | .error e => .error e :: session counter forms

/-! ## §5 The template filled -/

inductive HoleKind where
  | unquote | splicing
deriving DecidableEq

/-- Whose mark a hole has: the reader puts one for `~` and `~@`; the
compiler's own has to be written out with its package. -/
inductive Maker where
  | reader | compiler
deriving DecidableEq

structure Hole where
  kind : HoleKind
  maker : Maker
  expr : Form

def Sym.mark (s : Sym) : Option (HoleKind × Maker) :=
  if s = readerUnquote then some (.unquote, .reader)
  else if s = readerUnquoteSplicing then some (.splicing, .reader)
  else if s = compilerUnquote then some (.unquote, .compiler)
  else if s = compilerUnquoteSplicing then some (.splicing, .compiler)
  else none

/-- The expression of a hole from what follows its mark. -/
def exprAfter : Form → Form
  | .cons e _ => e
  | _ => .nil

/-- The hole that a form is, if it is one. -/
def Form.hole : Form → Option Hole
  | .cons (.sym s) d => s.mark.map fun m => ⟨m.1, m.2, exprAfter d⟩
  | _ => none

/-- The splice that an element of a list or of a collection is. -/
def Form.splice (f : Form) : Option Hole := f.hole.filter (·.kind = .splicing)

/-- What a cons of a template is: a hole, a splice with the rest of its
list, or an ordinary pair. -/
inductive Cell where
  | hole (h : Hole)
  | splice (h : Hole)
  | pair

def cell (a d : Form) : Cell :=
  match (Form.cons a d).hole with
  | some h => .hole h
  | none =>
      match a.splice with
      | some h => .splice h
      | none => .pair

/-- The entries of a dict from its keys and values in turn. -/
def entries : List Form → List Form
  | k :: v :: items => .cons k v :: entries items
  | _ => []

/-- The elements of a value that is spliced; what is no collection has none. -/
def elements : Form → List Form
  | .cons a d => a :: elements d
  | .coll .dict items => entries items
  | .coll _ items => items
  | _ => []

/-- The elements in front of the rest of a list. -/
def prepend : List Form → Form → Form
  | [], f => f
  | x :: xs, f => .cons x (prepend xs f)

/-- What the elements or the value of a hole put in its place. -/
def Hole.filled (value : Form → Form) (h : Hole) : Form :=
  match h.kind with
  | .unquote => value h.expr
  | .splicing => prepend (elements (value h.expr)) .nil

mutual
/-- The template with its holes filled by the values of their expressions
and its auto-gensyms replaced by `σ`. -/
def fill (σ : String → Sym) (value : Form → Form) : Form → Form
  | .nil => .nil
  | .sym s => .sym (if s.autoGensymP then σ s.baseName else s)
  | .lit text => .lit text
  | .coll kind items => .coll kind (fillItems σ value items)
  | .cons a d =>
      match cell a d with
      | .hole h => h.filled value
      | .splice h => prepend (elements (value h.expr)) (fill σ value d)
      | .pair => .cons (fill σ value a) (fill σ value d)
def fillItems (σ : String → Sym) (value : Form → Form) : List Form → List Form
  | [] => []
  | f :: fs =>
      match f.splice with
      | some h => elements (value h.expr) ++ fillItems σ value fs
      | none => fill σ value f :: fillItems σ value fs
end

/-! ## §6 What a template holds -/

mutual
/-- The outermost holes of a template. -/
def holes : Form → List Hole
  | .coll _ items => holesOfItems items
  | .cons a d =>
      match cell a d with
      | .hole h => [h]
      | .splice h => h :: holes d
      | .pair => holes a ++ holes d
  | _ => []
def holesOfItems : List Form → List Hole
  | [] => []
  | f :: fs =>
      match f.splice with
      | some h => h :: holesOfItems fs
      | none => holes f ++ holesOfItems fs
end

mutual
/-- The names of the auto-gensyms outside of the holes. -/
def gensymNames : Form → List String
  | .sym s => if s.autoGensymP then [s.baseName] else []
  | .coll _ items => gensymNamesOfItems items
  | .cons a d =>
      match cell a d with
      | .hole _ => []
      | .splice _ => gensymNames d
      | .pair => gensymNames a ++ gensymNames d
  | _ => []
def gensymNamesOfItems : List Form → List String
  | [] => []
  | f :: fs =>
      match f.splice with
      | some _ => gensymNamesOfItems fs
      | none => gensymNames f ++ gensymNamesOfItems fs
end

/-- The names of the auto-gensyms inside of collection literals. -/
def collectedNames : Form → List String
  | .coll _ items => gensymNamesOfItems items
  | .cons a d =>
      match cell a d with
      | .hole _ => []
      | .splice _ => collectedNames d
      | .pair => collectedNames a ++ collectedNames d
  | _ => []

mutual
/-- A count over a form: `w` for each symbol and `c` for each cons and item. -/
def weight (w : Sym → Nat) (c : Nat) : Form → Nat
  | .sym s => w s
  | .coll _ items => weightOfItems w c items
  | .cons a d => c + weight w c a + weight w c d
  | _ => 0
def weightOfItems (w : Sym → Nat) (c : Nat) : List Form → Nat
  | [] => 0
  | f :: fs => c + weight w c f + weightOfItems w c fs
end

/-- 1 for the marks of the reader. -/
def readerMark (s : Sym) : Nat :=
  if s = readerUnquote ∨ s = readerUnquoteSplicing then 1 else 0

/-- A form in which the marks of the reader do not occur. -/
def Unmarked (f : Form) : Prop := weight readerMark 0 f = 0

end Fol.Emit.SyntaxQuote
