/-
Fol.Emit.Quoting — when a syntax-quote gives its template filled.

The code emitted for a syntax-quote is `(quote d)` with a datum `d` fixed at
compile time, so its value cannot follow the values of the holes: a template
with a hole, whoever put its mark, is not filled for every value of its
expression (`holes_eq_nil_of_filled`).  The holes that `~` and `~@` make fail
for each single value as well, unless that value holds the reader's mark
itself, since their marks stay in the datum (`reader_marks_kept`).

Without holes the datum is what the reader made of the template.  That is the
template filled but for the auto-gensyms inside of collection literals, which
the reader does not enter.

## Sections

§1 symbols and cells, §2 what the reader makes of a template, §3 the datum of
the compiled code, §4 weights, §5 templates without holes, §6 sessions, §7 the
condition.
-/
import Mathlib.Algebra.BigOperators.Group.List.Basic
import Mathlib.Algebra.GroupWithZero.Nat
import Fol.Emit.SyntaxQuote
import Fol.Lib.Results

namespace Fol.Emit.SyntaxQuote

open Fol.Lib (bind_eq_ok)

/-! ## §1 Symbols and cells -/

/-- A symbol of `gensym` ends in a digit. -/
@[simp] theorem autoGensymP_made (id : Nat) (stem : String) :
    (Sym.made id stem).autoGensymP = false := by
  have hne : (Nat.toDigits 10 id) ≠ [] := Nat.toDigits_ne_nil
  have hlast : (Sym.made id stem).name.toList.getLast? = (Nat.toDigits 10 id).getLast? := by
    simp [Sym.name, List.getLast?_append, List.getLast?_eq_some_getLast hne]
  have hdigit : (Nat.toDigits 10 id).getLast? ≠ some '#' := by
    intro h
    have := Nat.isDigit_of_mem_toDigits (by decide) (by decide) (List.mem_of_getLast? h)
    simp at this
  simp [Sym.autoGensymP, hlast, hdigit]

@[simp] theorem mark_made (id : Nat) (stem : String) : (Sym.made id stem).mark = none := by
  simp [Sym.mark, readerUnquote, readerUnquoteSplicing, compilerUnquote,
    compilerUnquoteSplicing]

@[simp] theorem readerMark_made (id : Nat) (stem : String) :
    readerMark (.made id stem) = 0 := by
  simp [readerMark, readerUnquote, readerUnquoteSplicing]

/-- The four marks. -/
theorem mark_cases {s : Sym} {m : HoleKind × Maker} (h : s.mark = some m) :
    (s = readerUnquote ∧ m = (.unquote, .reader)) ∨
      (s = readerUnquoteSplicing ∧ m = (.splicing, .reader)) ∨
      (s = compilerUnquote ∧ m = (.unquote, .compiler)) ∨
      (s = compilerUnquoteSplicing ∧ m = (.splicing, .compiler)) := by
  unfold Sym.mark at h
  split_ifs at h with h₁ h₂ h₃ h₄ <;> simp_all

/-- A cell that is a hole begins with the mark of the hole. -/
theorem cell_hole {a d : Form} {h : Hole} (hc : cell a d = .hole h) :
    ∃ s, a = .sym s ∧ s.mark = some (h.kind, h.maker) := by
  have hole : (Form.cons a d).hole = some h := by
    unfold cell at hc
    split at hc
    · simp_all
    · split at hc <;> simp_all
  cases a with
  | sym s =>
      obtain ⟨m, hm, rfl⟩ := Option.map_eq_some_iff.mp hole
      exact ⟨s, rfl, hm⟩
  | nil => simp [Form.hole] at hole
  | lit text => simp [Form.hole] at hole
  | coll kind items => simp [Form.hole] at hole
  | cons b c => simp [Form.hole] at hole

theorem cell_splice {a d : Form} {h : Hole} (hc : cell a d = .splice h) :
    a.splice = some h := by
  unfold cell at hc
  split at hc
  · simp at hc
  · split at hc <;> simp_all

/-- A splice is a hole. -/
theorem hole_of_splice {f : Form} {h : Hole} (hs : f.splice = some h) : f.hole = some h :=
  (Option.filter_eq_some_iff.mp hs).1

theorem kind_of_splice {f : Form} {h : Hole} (hs : f.splice = some h) : h.kind = .splicing := by
  simpa using (Option.filter_eq_some_iff.mp hs).2

/-- A form that is a hole has a single hole. -/
theorem holes_of_hole {f : Form} {h : Hole} (hf : f.hole = some h) : holes f = [h] := by
  cases f with
  | cons a d => simp [holes, cell, hf]
  | nil => simp [Form.hole] at hf
  | sym s => simp [Form.hole] at hf
  | lit text => simp [Form.hole] at hf
  | coll kind items => simp [Form.hole] at hf

/-- A pair begins with no mark. -/
theorem isSym_of_pair {a d : Form} (hc : cell a d = .pair) {t : Sym} (ht : t.mark.isSome) :
    a.isSym t = false := by
  have hole : (Form.cons a d).hole = none := by
    unfold cell at hc
    split at hc
    · simp at hc
    · assumption
  cases a with
  | sym s =>
      have hs : s.mark = none := by simpa [Form.hole] using hole
      have hne : s ≠ t := by
        rintro rfl
        simp [hs] at ht
      simpa [Form.isSym] using hne
  | nil => rfl
  | lit text => rfl
  | coll kind items => rfl
  | cons b c => rfl

/-- The element that is spliced is itself a list, so its cell has no mark. -/
theorem isSym_of_splice {a d : Form} {h : Hole} (hc : cell a d = .splice h) (t : Sym) :
    a.isSym t = false := by
  have hs := hole_of_splice (cell_splice hc)
  cases a with
  | cons b c => rfl
  | nil => rfl
  | sym s => simp [Form.hole] at hs
  | lit text => rfl
  | coll kind items => rfl

/-! ## §2 What the reader makes of a template -/

/-- A template with the auto-gensyms that the reader resolves replaced by `σ`. -/
def resolved (σ : String → Sym) : Form → Form
  | .sym s => .sym (if s.autoGensymP then σ s.baseName else s)
  | .cons a d =>
      if a.isSym readerUnquote || a.isSym readerUnquoteSplicing then .cons a d
      else .cons (resolved σ a) (resolved σ d)
  | f => f

/-- A template that reading alone fills: no hole, and no auto-gensym inside
of a collection literal. -/
structure Ready (f : Form) : Prop where
  noHole : holes f = []
  noCollected : collectedNames f = []

theorem resolved_cons {σ : String → Sym} {a d : Form}
    (ha : ∀ t : Sym, t.mark.isSome → a.isSym t = false) :
    resolved σ (.cons a d) = .cons (resolved σ a) (resolved σ d) := by
  simp [resolved, ha readerUnquote (by decide), ha readerUnquoteSplicing (by decide)]

theorem noHole_cons {a d : Form} (h : holes (.cons a d) = []) :
    cell a d = .pair ∧ holes a = [] ∧ holes d = [] := by
  cases hc : cell a d with
  | hole x => simp [holes, hc] at h
  | splice x => simp [holes, hc] at h
  | pair => exact ⟨rfl, by simpa [holes, hc] using h⟩

theorem noHole_items {f : Form} {fs : List Form} (h : holesOfItems (f :: fs) = []) :
    f.splice = none ∧ holes f = [] ∧ holesOfItems fs = [] := by
  cases hs : f.splice with
  | some x => simp [holesOfItems, hs] at h
  | none => exact ⟨rfl, by simpa [holesOfItems, hs] using h⟩

/-- Both parts of a pair that reading fills are such templates. -/
theorem Ready.of_cons {a d : Form} (h : Ready (.cons a d)) :
    cell a d = .pair ∧ Ready a ∧ Ready d := by
  obtain ⟨hpair, ha, hd⟩ := noHole_cons h.noHole
  have hn : collectedNames a = [] ∧ collectedNames d = [] := by
    simpa [collectedNames, hpair] using h.noCollected
  exact ⟨hpair, ⟨ha, hn.1⟩, hd, hn.2⟩

/-- What reading does to the table of auto-gensyms: entries stay, and a new
one is a symbol made meanwhile. -/
structure Grown (env : List (String × Sym)) (n : Nat) (env' : List (String × Sym))
    (n' : Nat) : Prop where
  le : n ≤ n'
  keeps : ∀ b s, env.lookup b = some s → env'.lookup b = some s
  fresh : ∀ b s, env'.lookup b = some s →
    env.lookup b = some s ∨ ∃ id, n ≤ id ∧ id < n' ∧ s = .made id (b ++ "__")

theorem Grown.refl (env : List (String × Sym)) (n : Nat) : Grown env n env n where
  le := Nat.le_refl n
  keeps := fun _ _ h => h
  fresh := fun _ _ h => .inl h

theorem Grown.trans {env env' env'' : List (String × Sym)} {n n' n'' : Nat}
    (h : Grown env n env' n') (h' : Grown env' n' env'' n'') : Grown env n env'' n'' where
  le := Nat.le_trans h.le h'.le
  keeps := fun b s hb => h'.keeps b s (h.keeps b s hb)
  fresh := by
    intro b s hb
    rcases h'.fresh b s hb with hb' | ⟨id, hlo, hhi, rfl⟩
    · rcases h.fresh b s hb' with hb'' | ⟨id, hlo, hhi, rfl⟩
      · exact .inl hb''
      · exact .inr ⟨id, hlo, Nat.lt_of_lt_of_le hhi h'.le, rfl⟩
    · exact .inr ⟨id, Nat.le_trans h.le hlo, hhi, rfl⟩

/-- One more name in the table. -/
theorem Grown.cons {env : List (String × Sym)} (n : Nat) {b : String}
    (hb : env.lookup b = none) :
    Grown env n ((b, .made n (b ++ "__")) :: env) (n + 1) where
  le := Nat.le_succ n
  keeps := by
    intro c s hc
    have hne : (c == b) = false := by
      rw [beq_eq_false_iff_ne]
      rintro rfl
      simp [hb] at hc
    simpa [List.lookup_cons, hne] using hc
  fresh := by
    intro c s hc
    cases hcb : c == b with
    | true =>
        obtain rfl : c = b := beq_iff_eq.mp hcb
        refine .inr ⟨n, Nat.le_refl n, Nat.lt_succ_self n, ?_⟩
        simpa [eq_comm] using hc
    | false => exact .inl (by simpa [List.lookup_cons, hcb] using hc)

/-- `σ` gives the names of the table their symbols. -/
def Reads (env : List (String × Sym)) (σ : String → Sym) : Prop :=
  ∀ b s, env.lookup b = some s → σ b = s

/-- What reading a template comes to, from a table and a count of symbols. -/
structure ReadTo (f : Form) (env : List (String × Sym)) (n : Nat) (f' : Form)
    (env' : List (String × Sym)) (n' : Nat) : Prop where
  grown : Grown env n env' n'
  form : ∀ σ, Reads env' σ → f' = resolved σ f
  found : Ready f → ∀ b ∈ gensymNames f, ∃ s, env'.lookup b = some s

theorem resolveAutoGensym_spec (s : Sym) (env : List (String × Sym)) (n : Nat) :
    ∃ s' env' n', resolveAutoGensym s ⟨some env, n⟩ = .ok (s', ⟨some env', n'⟩) ∧
      Grown env n env' n' ∧ env'.lookup s.baseName = some s' := by
  cases hb : env.lookup s.baseName with
  | some existing =>
      exact ⟨existing, env, n, by simp [resolveAutoGensym, hb], .refl env n, hb⟩
  | none =>
      refine ⟨.made n (s.baseName ++ "__"), _, n + 1, ?_, .cons n hb, by simp⟩
      simp [resolveAutoGensym, hb]

/-- Inside of a syntax-quote the reader signals no error. -/
theorem readSyntaxQuoteForm_spec : ∀ (f : Form) (env : List (String × Sym)) (n : Nat),
    ∃ f' env' n', readSyntaxQuoteForm f ⟨some env, n⟩ = .ok (f', ⟨some env', n'⟩) ∧
      ReadTo f env n f' env' n'
  | .nil, env, n => ⟨_, env, n, rfl, .refl env n, fun _ _ => rfl, by simp [gensymNames]⟩
  | .lit _, env, n => ⟨_, env, n, rfl, .refl env n, fun _ _ => rfl, by simp [gensymNames]⟩
  | .coll _ items, env, n => by
      refine ⟨_, env, n, rfl, .refl env n, fun _ _ => rfl, ?_⟩
      intro hready b hb
      have hnone : gensymNamesOfItems items = [] := hready.noCollected
      simp [gensymNames, hnone] at hb
  | .sym s, env, n => by
      cases hs : s.autoGensymP with
      | false =>
          refine ⟨.sym s, env, n, by simp [readSyntaxQuoteForm, hs], .refl env n, ?_, ?_⟩
          · simp [resolved, hs]
          · simp [gensymNames, hs]
      | true =>
          obtain ⟨s', env', n', hread, hgrown, hs'⟩ := resolveAutoGensym_spec s env n
          refine ⟨.sym s', env', n', ?_, hgrown, ?_, ?_⟩
          · simp [readSyntaxQuoteForm, hs, hread, Except.map]
          · intro σ hσ
            simp [resolved, hs, hσ _ _ hs']
          · intro _ b hb
            obtain rfl : b = s.baseName := by simpa [gensymNames, hs] using hb
            exact ⟨s', hs'⟩
  | .cons a d, env, n => by
      by_cases hmark : a.isSym readerUnquote || a.isSym readerUnquoteSplicing
      · refine ⟨.cons a d, env, n, ?_, .refl env n, ?_, ?_⟩
        · rcases Bool.or_eq_true_iff.mp hmark with h | h <;> simp [readSyntaxQuoteForm, h]
        · simp [resolved, hmark]
        · intro hready
          obtain ⟨hpair, -⟩ := hready.of_cons
          have h₁ := isSym_of_pair hpair (t := readerUnquote) (by decide)
          have h₂ := isSym_of_pair hpair (t := readerUnquoteSplicing) (by decide)
          simp [h₁, h₂] at hmark
      · obtain ⟨a', env₁, n₁, ha, hra⟩ := readSyntaxQuoteForm_spec a env n
        obtain ⟨d', env₂, n₂, hd, hrd⟩ := readSyntaxQuoteForm_spec d env₁ n₁
        have hno : a.isSym readerUnquote = false ∧ a.isSym readerUnquoteSplicing = false := by
          simpa using hmark
        refine ⟨.cons a' d', env₂, n₂, ?_, hra.grown.trans hrd.grown, ?_, ?_⟩
        · simp [readSyntaxQuoteForm, hno.1, hno.2, ha, hd, bind, Except.bind, pure, Except.pure]
        · intro σ hσ
          have hσ₁ : Reads env₁ σ := fun b s hb => hσ b s (hrd.grown.keeps b s hb)
          rw [hra.form σ hσ₁, hrd.form σ hσ]
          simp [resolved, hno.1, hno.2]
        · intro hready b hb
          obtain ⟨hpair, hready₁, hready₂⟩ := hready.of_cons
          simp only [gensymNames, hpair, List.mem_append] at hb
          rcases hb with hb | hb
          · obtain ⟨s, hs⟩ := hra.found hready₁ b hb
            exact ⟨s, hrd.grown.keeps b s hs⟩
          · exact hrd.found hready₂ b hb

/-! ## §3 The datum of the compiled code -/

variable {Ast : Type} {compiler : Compiler Ast}

/-- The compiled code of the template `f` quotes the datum `d`. -/
def Compiles (compiler : Compiler Ast) (f d : Form) : Prop :=
  ∃ t, parseSyntaxQuoteTemplate compiler f = .ok t ∧
    emitSyntaxQuoteTemplate compiler t = .ok d

theorem syntaxQuoteValue_eq_ok {op f d : Form} :
    syntaxQuoteValue compiler (.list2 op f) = .ok d ↔ Compiles compiler f d := by
  simp only [syntaxQuoteValue, emitSyntaxQuote, Form.list2, parseSyntaxQuote, bind_eq_ok,
    Compiles]
  constructor
  · rintro ⟨t, ht, code, ⟨body, hbody, hcode⟩, hd⟩
    obtain rfl : _ = code := Except.ok.inj hcode
    obtain rfl : body = d := Except.ok.inj hd
    exact ⟨t, ht, hbody⟩
  · rintro ⟨t, ht, hd⟩
    exact ⟨t, ht, _, ⟨d, hd, rfl⟩, rfl⟩

theorem compiles_atom {f d : Form} (hf : ∀ a b, f ≠ .cons a b) :
    Compiles compiler f d ↔ d = f := by
  have hparse : parseSyntaxQuoteTemplate compiler f = .ok (.atom f) := by
    cases f with
    | cons a b => exact absurd rfl (hf a b)
    | nil => rfl
    | sym s => rfl
    | lit text => rfl
    | coll kind items => rfl
  simp [Compiles, hparse, emitSyntaxQuoteTemplate, eq_comm]

theorem compiles_cons {a d x : Form} (hu : a.isSym compilerUnquote = false)
    (hs : a.isSym compilerUnquoteSplicing = false) :
    Compiles compiler (.cons a d) x ↔
      ∃ a' d', x = .cons a' d' ∧ Compiles compiler a a' ∧ Compiles compiler d d' := by
  simp only [Compiles, parseSyntaxQuoteTemplate, hu, hs, Bool.false_eq_true, if_false,
    bind_eq_ok]
  constructor
  · rintro ⟨t, ⟨ta, hta, td, htd, ht⟩, hx⟩
    obtain rfl : _ = t := Except.ok.inj ht
    obtain ⟨a', ha', hx⟩ := bind_eq_ok.mp hx
    obtain ⟨d', hd', hx⟩ := bind_eq_ok.mp hx
    exact ⟨a', d', (Except.ok.inj hx).symm, ⟨ta, hta, ha'⟩, td, htd, hd'⟩
  · rintro ⟨a', d', rfl, ⟨ta, hta, ha'⟩, td, htd, hd'⟩
    refine ⟨.cons ta td, ⟨ta, hta, td, htd, rfl⟩, ?_⟩
    simp [emitSyntaxQuoteTemplate, ha', hd', bind, Except.bind, pure, Except.pure]

/-- All the symbols `σ` gives are made by `gensym`. -/
def Made (σ : String → Sym) : Prop := ∀ b, ∃ id stem, σ b = .made id stem

theorem isSym_resolved {σ : String → Sym} (hσ : Made σ) {a : Form} {t : Sym}
    (ht : t.mark.isSome) (ha : a.isSym t = false) : (resolved σ a).isSym t = false := by
  cases a with
  | sym s =>
      cases hs : s.autoGensymP with
      | false => simpa [resolved, hs] using ha
      | true =>
          obtain ⟨id, stem, hmade⟩ := hσ s.baseName
          have hne : Sym.made id stem ≠ t := by
            rintro rfl
            simp at ht
          simpa [resolved, hs, hmade, Form.isSym] using hne
  | cons b c =>
      unfold resolved
      split <;> rfl
  | nil => rfl
  | lit text => rfl
  | coll kind items => rfl

/-- Without a mark in front a pair stays a pair through all three walks. -/
theorem compiles_resolved_cons {σ : String → Sym} (hσ : Made σ) {a d x : Form}
    (ha : ∀ t : Sym, t.mark.isSome → a.isSym t = false) :
    Compiles compiler (resolved σ (.cons a d)) x ↔
      ∃ a' d', x = .cons a' d' ∧ Compiles compiler (resolved σ a) a' ∧
        Compiles compiler (resolved σ d) d' := by
  rw [resolved_cons ha]
  exact compiles_cons (isSym_resolved hσ (by decide) (ha compilerUnquote (by decide)))
    (isSym_resolved hσ (by decide) (ha compilerUnquoteSplicing (by decide)))

/-! ## §4 Weights -/

theorem weight_prepend (w : Sym → Nat) (c : Nat) (xs : List Form) (f : Form) :
    weight w c (prepend xs f) = weightOfItems w c xs + weight w c f := by
  induction xs with
  | nil => simp [prepend, weightOfItems]
  | cons x xs ih => simp [prepend, weight, weightOfItems, ih, Nat.add_assoc]

theorem weightOfItems_append (w : Sym → Nat) (c : Nat) (xs ys : List Form) :
    weightOfItems w c (xs ++ ys) = weightOfItems w c xs + weightOfItems w c ys := by
  induction xs with
  | nil => simp [weightOfItems]
  | cons x xs ih => simp [weightOfItems, ih, Nat.add_assoc]

mutual
/-- The weight of a template outside of its holes, its auto-gensyms counted
for nothing. -/
def frame (w : Sym → Nat) (c : Nat) : Form → Nat
  | .sym s => if s.autoGensymP then 0 else w s
  | .coll _ items => frameOfItems w c items
  | .cons a d =>
      match cell a d with
      | .hole _ => 0
      | .splice _ => frame w c d
      | .pair => c + frame w c a + frame w c d
  | _ => 0
def frameOfItems (w : Sym → Nat) (c : Nat) : List Form → Nat
  | [] => 0
  | f :: fs =>
      match f.splice with
      | some _ => frameOfItems w c fs
      | none => c + frame w c f + frameOfItems w c fs
end

/-- What a hole adds to the weight of the filled template. -/
def Hole.adds (w : Sym → Nat) (c : Nat) (value : Form → Form) (h : Hole) : Nat :=
  match h.kind with
  | .unquote => weight w c (value h.expr)
  | .splicing => weightOfItems w c (elements (value h.expr))

theorem weight_filled (w : Sym → Nat) (c : Nat) (value : Form → Form) (h : Hole) :
    weight w c (h.filled value) = h.adds w c value := by
  cases hk : h.kind with
  | unquote => simp [Hole.filled, Hole.adds, hk]
  | splicing => simp [Hole.filled, Hole.adds, hk, weight_prepend, weight]

theorem adds_of_splice (w : Sym → Nat) (c : Nat) (value : Form → Form) {f : Form} {h : Hole}
    (hs : f.splice = some h) :
    h.adds w c value = weightOfItems w c (elements (value h.expr)) := by
  simp [Hole.adds, kind_of_splice hs]

mutual
theorem weight_fill {w : Sym → Nat} (c : Nat) {σ : String → Sym} (value : Form → Form) :
    ∀ f : Form, (∀ b ∈ gensymNames f, w (σ b) = 0) →
      weight w c (fill σ value f) = frame w c f + ((holes f).map (·.adds w c value)).sum
  | .nil, _ => by simp only [fill, weight, frame, holes, List.map_nil, List.sum_nil, Nat.add_zero]
  | .lit _, _ => by simp only [fill, weight, frame, holes, List.map_nil, List.sum_nil, Nat.add_zero]
  | .sym s, hσ => by
      cases hs : s.autoGensymP with
      | false =>
          simp only [fill, weight, frame, holes, hs, Bool.false_eq_true, if_false, List.map_nil,
            List.sum_nil, Nat.add_zero]
      | true =>
          have h0 := hσ s.baseName (by simp [gensymNames, hs])
          simp only [fill, weight, frame, holes, hs, h0, if_true, List.map_nil,
            List.sum_nil, Nat.add_zero]
  | .coll _ items, hσ => by
      simp only [gensymNames] at hσ
      simp only [fill, weight, frame, holes]
      exact weightOfItems_fill c value items hσ
  | .cons a d, hσ => by
      cases hc : cell a d with
      | hole h =>
          simp only [fill, frame, holes, hc, weight_filled, List.map_cons, List.map_nil,
            List.sum_cons, List.sum_nil, Nat.add_zero, Nat.zero_add]
      | splice h =>
          simp only [gensymNames, hc] at hσ
          have ihd := weight_fill c value d hσ
          simp only [fill, frame, holes, hc, weight_prepend, ihd, List.map_cons, List.sum_cons,
            adds_of_splice w c value (cell_splice hc)]
          omega
      | pair =>
          have hσ' : ∀ b, b ∈ gensymNames a ∨ b ∈ gensymNames d → w (σ b) = 0 := by
            simpa only [gensymNames, hc, List.mem_append] using hσ
          have iha := weight_fill c value a fun b hb => hσ' b (.inl hb)
          have ihd := weight_fill c value d fun b hb => hσ' b (.inr hb)
          simp only [fill, frame, holes, hc, weight, iha, ihd, List.map_append,
            List.sum_append_nat]
          omega
theorem weightOfItems_fill {w : Sym → Nat} (c : Nat) {σ : String → Sym}
    (value : Form → Form) :
    ∀ fs : List Form, (∀ b ∈ gensymNamesOfItems fs, w (σ b) = 0) →
      weightOfItems w c (fillItems σ value fs) =
        frameOfItems w c fs + ((holesOfItems fs).map (·.adds w c value)).sum
  | [], _ => by
      simp only [fillItems, weightOfItems, frameOfItems, holesOfItems, List.map_nil,
        List.sum_nil, Nat.add_zero]
  | f :: fs, hσ => by
      cases hs : f.splice with
      | some h =>
          simp only [gensymNamesOfItems, hs] at hσ
          have ih := weightOfItems_fill c value fs hσ
          simp only [fillItems, frameOfItems, holesOfItems, hs, weightOfItems_append, ih,
            List.map_cons, List.sum_cons, adds_of_splice w c value hs]
          omega
      | none =>
          have hσ' : ∀ b, b ∈ gensymNames f ∨ b ∈ gensymNamesOfItems fs → w (σ b) = 0 := by
            simpa only [gensymNamesOfItems, hs, List.mem_append] using hσ
          have ihf := weight_fill c value f fun b hb => hσ' b (.inl hb)
          have ih := weightOfItems_fill c value fs fun b hb => hσ' b (.inr hb)
          simp only [fillItems, frameOfItems, holesOfItems, hs, weightOfItems, ihf, ih,
            List.map_append, List.sum_append_nat]
          omega
end

/-- A template whose filling does not depend on the values of its holes has
none: an empty list and a list of one element fill it differently. -/
theorem holes_eq_nil_of_filled {f : Form} {σ σ' : String → Sym}
    (h : fill σ (fun _ => .nil) f = fill σ' (fun _ => .cons .nil .nil) f) : holes f = [] := by
  have h₀ := weight_fill (w := fun _ => 0) 1 (σ := σ) (fun _ => Form.nil) f (by simp)
  have h₁ := weight_fill (w := fun _ => 0) 1 (σ := σ') (fun _ => Form.cons .nil .nil) f
    (by simp)
  have hnone : (holes f).map (·.adds (fun _ => 0) 1 fun _ => Form.nil) =
      (holes f).map fun _ => 0 := by
    refine List.map_congr_left fun x _ => ?_
    cases hk : x.kind <;> simp [Hole.adds, hk, weight, elements, weightOfItems]
  have hone : (holes f).map (·.adds (fun _ => 0) 1 fun _ => Form.cons .nil .nil) =
      (holes f).map fun _ => 1 := by
    refine List.map_congr_left fun x _ => ?_
    cases hk : x.kind <;> simp [Hole.adds, hk, weight, elements, weightOfItems]
  rw [h, h₁, hone, hnone] at h₀
  simpa using h₀

/-- How many of the outermost holes have a mark of the reader. -/
def readerHoles (hs : List Hole) : Nat := hs.countP (·.maker = .reader)

theorem readerHoles_append (hs hs' : List Hole) :
    readerHoles (hs ++ hs') = readerHoles hs + readerHoles hs' :=
  List.countP_append

theorem readerHoles_cons (h : Hole) (hs : List Hole) :
    readerHoles (h :: hs) = readerHoles [h] + readerHoles hs :=
  readerHoles_append [h] hs

theorem readerMark_of_mark {s : Sym} {k : HoleKind} (h : s.mark = some (k, .reader)) :
    readerMark s = 1 := by
  obtain ⟨rfl, -⟩ | ⟨rfl, -⟩ | ⟨-, hm⟩ | ⟨-, hm⟩ := mark_cases h
  · decide
  · decide
  · simp at hm
  · simp at hm

/-- A single hole of the reader is outweighed by its mark. -/
theorem readerHoles_le {h : Hole} {s : Sym} (hs : s.mark = some (h.kind, h.maker)) :
    readerHoles [h] ≤ readerMark s := by
  cases hm : h.maker with
  | reader => simp [readerHoles, hm, readerMark_of_mark (hm ▸ hs)]
  | compiler => simp [readerHoles, hm]

mutual
/-- The marks of the reader's holes are in the template as it was read. -/
theorem marks_le : ∀ f : Form,
    frame readerMark 0 f + readerHoles (holes f) ≤ weight readerMark 0 f
  | .nil => by simp [frame, holes, readerHoles]
  | .lit _ => by simp [frame, holes, readerHoles]
  | .sym s => by
      cases hs : s.autoGensymP <;> simp [frame, holes, weight, readerHoles, hs]
  | .coll _ items => by simpa [frame, holes, weight] using marksOfItems_le items
  | .cons a d => by
      have iha := marks_le a
      have ihd := marks_le d
      cases hc : cell a d with
      | hole h =>
          obtain ⟨s, rfl, hs⟩ := cell_hole hc
          have hle := readerHoles_le hs
          simp only [frame, holes, hc, weight]
          omega
      | splice h =>
          rw [holes_of_hole (hole_of_splice (cell_splice hc))] at iha
          simp only [frame, holes, hc, weight]
          rw [readerHoles_cons]
          omega
      | pair =>
          simp only [frame, holes, hc, weight, readerHoles_append]
          omega
theorem marksOfItems_le : ∀ fs : List Form,
    frameOfItems readerMark 0 fs + readerHoles (holesOfItems fs) ≤
      weightOfItems readerMark 0 fs
  | [] => by simp [frameOfItems, holesOfItems, readerHoles]
  | f :: fs => by
      have ihf := marks_le f
      have ih := marksOfItems_le fs
      cases hs : f.splice with
      | some h =>
          rw [holes_of_hole (hole_of_splice hs)] at ihf
          simp only [frameOfItems, holesOfItems, hs, weightOfItems]
          rw [readerHoles_cons]
          omega
      | none =>
          simp only [frameOfItems, holesOfItems, hs, weightOfItems, readerHoles_append]
          omega
end

/-- None of the walks takes a hole of the reader away. -/
theorem readerHole_kept {σ : String → Sym} {s : Sym} {k : HoleKind} {d x : Form}
    (hs : s.mark = some (k, .reader)) (hx : Compiles compiler (resolved σ (.cons (.sym s) d)) x) :
    1 ≤ weight readerMark 0 x := by
  have hmark := readerMark_of_mark hs
  have hread : resolved σ (.cons (.sym s) d) = .cons (.sym s) d ∧
      (Form.sym s).isSym compilerUnquote = false ∧
      (Form.sym s).isSym compilerUnquoteSplicing = false := by
    obtain ⟨rfl, -⟩ | ⟨rfl, -⟩ | ⟨-, hm⟩ | ⟨-, hm⟩ := mark_cases hs
    · exact ⟨rfl, by decide, by decide⟩
    · exact ⟨rfl, by decide, by decide⟩
    · simp at hm
    · simp at hm
  rw [hread.1, compiles_cons hread.2.1 hread.2.2] at hx
  obtain ⟨a', d', rfl, ha', -⟩ := hx
  obtain rfl := (compiles_atom (by simp)).mp ha'
  simp only [weight, hmark]
  omega

/-- The marks of the reader's holes are in the datum of the compiled code. -/
theorem marks_le_datum {σ : String → Sym} (hσ : Made σ) : ∀ (f x : Form),
    Compiles compiler (resolved σ f) x →
      frame readerMark 0 f + readerHoles (holes f) ≤ weight readerMark 0 x
  | .nil, x, _ => by simp [frame, holes, readerHoles]
  | .lit _, x, _ => by simp [frame, holes, readerHoles]
  | .sym s, x, hx => by
      obtain rfl := (compiles_atom (by simp [resolved])).mp hx
      cases hs : s.autoGensymP <;> simp [frame, holes, resolved, weight, readerHoles, hs]
  | .coll kind items, x, hx => by
      obtain rfl := (compiles_atom (by simp [resolved])).mp hx
      exact marks_le (.coll kind items)
  | .cons a d, x, hx => by
      cases hc : cell a d with
      | hole h =>
          obtain ⟨s, rfl, hs⟩ := cell_hole hc
          simp only [frame, holes, hc]
          cases hm : h.maker with
          | compiler => simp [readerHoles, hm]
          | reader =>
              have hle := readerHole_kept (hm ▸ hs) hx
              simpa [readerHoles, hm] using hle
      | splice h =>
          have ha : ∀ t : Sym, t.mark.isSome → a.isSym t = false :=
            fun t _ => isSym_of_splice hc t
          obtain ⟨a', d', rfl, hxa, hxd⟩ := (compiles_resolved_cons hσ ha).mp hx
          have iha := marks_le_datum hσ a a' hxa
          have ihd := marks_le_datum hσ d d' hxd
          rw [holes_of_hole (hole_of_splice (cell_splice hc))] at iha
          simp only [frame, holes, hc, weight]
          rw [readerHoles_cons]
          omega
      | pair =>
          obtain ⟨a', d', rfl, hxa, hxd⟩ :=
            (compiles_resolved_cons hσ fun _ => isSym_of_pair hc).mp hx
          have iha := marks_le_datum hσ a a' hxa
          have ihd := marks_le_datum hσ d d' hxd
          simp only [frame, holes, hc, weight, readerHoles_append]
          omega

/-- The elements of a value hold no more marks than the value. -/
theorem weight_elements_le (w : Sym → Nat) : ∀ f : Form,
    weightOfItems w 0 (elements f) ≤ weight w 0 f
  | .nil => by simp [elements, weightOfItems]
  | .sym _ => by simp [elements, weightOfItems]
  | .lit _ => by simp [elements, weightOfItems]
  | .cons a d => by
      have ih := weight_elements_le w d
      simp only [elements, weightOfItems, weight]
      omega
  | .coll .dict items => weight_entries_le w items
  | .coll .vector items => by simp [elements, weight]
  | .coll .set items => by simp [elements, weight]
  | .coll .bag items => by simp [elements, weight]
  | .coll .deque items => by simp [elements, weight]
where
  weight_entries_le (w : Sym → Nat) : ∀ items : List Form,
      weightOfItems w 0 (entries items) ≤ weightOfItems w 0 items
    | [] => by simp [entries]
    | [k] => by simp [entries, weightOfItems]
    | k :: v :: items => by
        have ih := weight_entries_le w items
        simp only [entries, weightOfItems, weight]
        omega

/-- Where a value of the template filled is the datum of the code and the
values of the holes do not hold the reader's marks, the reader made no hole. -/
theorem reader_marks_kept {f : Form} {σ τ : String → Sym} {value : Form → Form}
    (hτ : Made τ) (hσ : ∀ b ∈ gensymNames f, ∃ id stem, σ b = .made id stem)
    (hvalue : ∀ e, Unmarked (value e))
    (h : Compiles compiler (resolved τ f) (fill σ value f)) :
    ∀ x ∈ holes f, x.maker = .compiler := by
  have hle := marks_le_datum hτ f _ h
  have hfill := weight_fill (w := readerMark) 0 (σ := σ) value f (by
    intro b hb
    obtain ⟨id, stem, hmade⟩ := hσ b hb
    simp [hmade])
  have hnone : (holes f).map (·.adds readerMark 0 value) = (holes f).map fun _ => 0 := by
    refine List.map_congr_left fun x _ => ?_
    have hv : weight readerMark 0 (value x.expr) = 0 := hvalue x.expr
    have he := weight_elements_le readerMark (value x.expr)
    cases hk : x.kind with
    | unquote => simp [Hole.adds, hk, hv]
    | splicing =>
        simp only [Hole.adds, hk]
        omega
  have hzero : readerHoles (holes f) = 0 := by
    rw [hfill, hnone] at hle
    simp only [List.map_const', List.sum_replicate_nat] at hle
    omega
  intro x hx
  cases hm : x.maker with
  | compiler => rfl
  | reader =>
      have := List.countP_eq_zero.mp hzero x hx
      simp [hm] at this

/-! ## §5 Templates without holes -/

mutual
theorem fill_eq_self {σ : String → Sym} {value : Form → Form} : ∀ f : Form,
    holes f = [] → gensymNames f = [] → fill σ value f = f
  | .nil, _, _ => by simp [fill]
  | .lit _, _, _ => by simp [fill]
  | .sym s, _, hn => by
      cases hs : s.autoGensymP with
      | false => simp [fill, hs]
      | true => simp [gensymNames, hs] at hn
  | .coll _ items, hh, hn => by
      simp only [fill, fillItems_eq_self items (by simpa [holes] using hh)
        (by simpa [gensymNames] using hn)]
  | .cons a d, hh, hn => by
      obtain ⟨hpair, ha, hd⟩ := noHole_cons hh
      simp only [gensymNames, hpair, List.append_eq_nil_iff] at hn
      simp only [fill, hpair, fill_eq_self a ha hn.1, fill_eq_self d hd hn.2]
theorem fillItems_eq_self {σ : String → Sym} {value : Form → Form} : ∀ fs : List Form,
    holesOfItems fs = [] → gensymNamesOfItems fs = [] → fillItems σ value fs = fs
  | [], _, _ => by simp [fillItems]
  | f :: fs, hh, hn => by
      obtain ⟨hs, hf, hfs⟩ := noHole_items hh
      simp only [gensymNamesOfItems, hs, List.append_eq_nil_iff] at hn
      simp only [fillItems, hs, fill_eq_self f hf hn.1, fillItems_eq_self fs hfs hn.2]
end

mutual
/-- A form without holes that filling leaves as it is has no auto-gensym. -/
theorem gensymNames_of_fill {σ : String → Sym} {value : Form → Form} : ∀ f : Form,
    holes f = [] → (∀ b ∈ gensymNames f, (σ b).autoGensymP = false) →
      fill σ value f = f → gensymNames f = []
  | .nil, _, _, _ => by simp [gensymNames]
  | .lit _, _, _, _ => by simp [gensymNames]
  | .sym s, _, hσ, heq => by
      cases hs : s.autoGensymP with
      | false => simp [gensymNames, hs]
      | true =>
          have hmade := hσ s.baseName (by simp [gensymNames, hs])
          have hsame : σ s.baseName = s := by simpa [fill, hs] using heq
          simp [hsame, hs] at hmade
  | .coll _ items, hh, hσ, heq => by
      have hitems : fillItems σ value items = items := by simpa [fill] using heq
      simpa [gensymNames] using gensymNamesOfItems_of_fill items (by simpa [holes] using hh)
        (by simpa [gensymNames] using hσ) hitems
  | .cons a d, hh, hσ, heq => by
      obtain ⟨hpair, ha, hd⟩ := noHole_cons hh
      simp only [fill, hpair, Form.cons.injEq] at heq
      have hσ' : ∀ b, b ∈ gensymNames a ∨ b ∈ gensymNames d → (σ b).autoGensymP = false := by
        simpa [gensymNames, hpair] using hσ
      simp only [gensymNames, hpair, List.append_eq_nil_iff]
      exact ⟨gensymNames_of_fill a ha (fun b hb => hσ' b (.inl hb)) heq.1,
        gensymNames_of_fill d hd (fun b hb => hσ' b (.inr hb)) heq.2⟩
theorem gensymNamesOfItems_of_fill {σ : String → Sym} {value : Form → Form} :
    ∀ fs : List Form, holesOfItems fs = [] →
      (∀ b ∈ gensymNamesOfItems fs, (σ b).autoGensymP = false) →
      fillItems σ value fs = fs → gensymNamesOfItems fs = []
  | [], _, _, _ => by simp [gensymNamesOfItems]
  | f :: fs, hh, hσ, heq => by
      obtain ⟨hs, hf, hfs⟩ := noHole_items hh
      simp only [fillItems, hs, List.cons.injEq] at heq
      have hσ' : ∀ b, b ∈ gensymNames f ∨ b ∈ gensymNamesOfItems fs →
          (σ b).autoGensymP = false := by
        simpa [gensymNamesOfItems, hs] using hσ
      simp only [gensymNamesOfItems, hs, List.append_eq_nil_iff]
      exact ⟨gensymNames_of_fill f hf (fun b hb => hσ' b (.inl hb)) heq.1,
        gensymNamesOfItems_of_fill fs hfs (fun b hb => hσ' b (.inr hb)) heq.2⟩
end

/-- What the reader makes of a ready template is the template filled. -/
theorem fill_eq_resolved {σ : String → Sym} {value : Form → Form} : ∀ f : Form,
    Ready f → fill σ value f = resolved σ f
  | .nil, _ => by simp [fill, resolved]
  | .lit _, _ => by simp [fill, resolved]
  | .sym _, _ => by simp [fill, resolved]
  | .coll _ items, h => by
      have hn : gensymNamesOfItems items = [] := h.noCollected
      simp only [fill, resolved, fillItems_eq_self items (by simpa [holes] using h.noHole) hn]
  | .cons a d, h => by
      obtain ⟨hpair, ha, hd⟩ := h.of_cons
      rw [resolved_cons fun _ => isSym_of_pair hpair]
      simp only [fill, hpair, fill_eq_resolved a ha, fill_eq_resolved d hd]

/-- Where what the reader makes of a template without holes is the template
filled, no auto-gensym is inside of a collection literal. -/
theorem collectedNames_of_resolved {σ τ : String → Sym} {value : Form → Form} :
    ∀ f : Form, holes f = [] → (∀ b ∈ gensymNames f, (σ b).autoGensymP = false) →
      fill σ value f = resolved τ f → collectedNames f = []
  | .nil, _, _, _ => by simp [collectedNames]
  | .lit _, _, _, _ => by simp [collectedNames]
  | .sym _, _, _, _ => by simp [collectedNames]
  | .coll _ items, hh, hσ, heq => by
      have hitems : fillItems σ value items = items := by simpa [fill, resolved] using heq
      simpa [collectedNames] using gensymNamesOfItems_of_fill items (by simpa [holes] using hh)
        (by simpa [gensymNames] using hσ) hitems
  | .cons a d, hh, hσ, heq => by
      obtain ⟨hpair, ha, hd⟩ := noHole_cons hh
      have hparts : fill σ value a = resolved τ a ∧ fill σ value d = resolved τ d := by
        rw [resolved_cons fun _ => isSym_of_pair hpair] at heq
        simpa [fill, hpair] using heq
      have hσ' : ∀ b, b ∈ gensymNames a ∨ b ∈ gensymNames d → (σ b).autoGensymP = false := by
        simpa [gensymNames, hpair] using hσ
      simp only [collectedNames, hpair, List.append_eq_nil_iff]
      exact ⟨collectedNames_of_resolved a ha (fun b hb => hσ' b (.inl hb)) hparts.1,
        collectedNames_of_resolved d hd (fun b hb => hσ' b (.inr hb)) hparts.2⟩

/-- Without holes the parser and the emitter give the template back. -/
theorem compiles_resolved {σ : String → Sym} (hσ : Made σ) : ∀ f : Form, holes f = [] →
    Compiles compiler (resolved σ f) (resolved σ f)
  | .nil, _ => (compiles_atom (by simp [resolved])).mpr rfl
  | .lit _, _ => (compiles_atom (by simp [resolved])).mpr rfl
  | .sym _, _ => (compiles_atom (by simp [resolved])).mpr rfl
  | .coll _ _, _ => (compiles_atom (by simp [resolved])).mpr rfl
  | .cons a d, h => by
      obtain ⟨hpair, ha, hd⟩ := noHole_cons h
      exact (compiles_resolved_cons hσ fun _ => isSym_of_pair hpair).mpr
        ⟨_, _, resolved_cons fun _ => isSym_of_pair hpair, compiles_resolved hσ a ha,
          compiles_resolved hσ d hd⟩

theorem Compiles.inj {f x y : Form} (hx : Compiles compiler f x) (hy : Compiles compiler f y) :
    x = y := by
  obtain ⟨t, ht, hx⟩ := hx
  obtain ⟨t', ht', hy⟩ := hy
  obtain rfl : t = t' := Except.ok.inj (ht.symm.trans ht')
  exact Except.ok.inj (hx.symm.trans hy)

/-! ## §6 Sessions -/

/-- The symbols of the first syntax-quote in front of those of the later ones. -/
def inFront (σ : String → Sym) (τ : Nat → String → Sym) : Nat → String → Sym
  | 0 => σ
  | i + 1 => τ i

/-- What the reader makes of the templates of a session: each with symbols of
its own, made since the session began. -/
structure ReadAs (compiler : Compiler Ast) (counter : Nat) (forms : List Form)
    (τ : Nat → String → Sym) : Prop where
  values : session compiler counter forms = forms.mapIdx fun i f =>
    syntaxQuoteValue compiler (.list2 (.sym readerSyntaxQuote) (resolved (τ i) f))
  made : ∀ i, Made (τ i)
  fresh : ∀ i f b, forms[i]? = some f → Ready f → b ∈ gensymNames f →
    ∃ id, counter ≤ id ∧ τ i b = .made id (b ++ "__")
  distinct : ∀ i j f g b c, forms[i]? = some f → forms[j]? = some g → Ready f → Ready g →
    b ∈ gensymNames f → c ∈ gensymNames g → τ i b = τ j c → i = j ∧ b = c

/-- One template read from a count of symbols. -/
theorem readFolSyntaxQuote_spec (f : Form) (counter : Nat) :
    ∃ (σ : String → Sym) (counter' : Nat),
      readFolSyntaxQuote f counter =
        .ok (.list2 (.sym readerSyntaxQuote) (resolved σ f), counter') ∧
      counter ≤ counter' ∧ Made σ ∧
      ∀ b, Ready f → b ∈ gensymNames f →
        ∃ id, counter ≤ id ∧ id < counter' ∧ σ b = .made id (b ++ "__") := by
  obtain ⟨f', env, counter', hread, hspec⟩ := readSyntaxQuoteForm_spec f [] counter
  have hmade : ∀ b s, env.lookup b = some s →
      ∃ id, counter ≤ id ∧ id < counter' ∧ s = .made id (b ++ "__") := by
    intro b s hs
    exact (hspec.grown.fresh b s hs).resolve_left (by simp)
  let σ : String → Sym := fun b => (env.lookup b).getD (.made 0 "")
  have hσ : Reads env σ := by
    intro b s hs
    simp [σ, hs]
  refine ⟨σ, counter', ?_, hspec.grown.le, ?_, ?_⟩
  · simp [readFolSyntaxQuote, hread, hspec.form σ hσ, bind, Except.bind, pure, Except.pure]
  · intro b
    cases hb : env.lookup b with
    | none => exact ⟨0, "", by simp [σ, hb]⟩
    | some s =>
        obtain ⟨id, -, -, rfl⟩ := hmade b s hb
        exact ⟨id, _, hσ b _ hb⟩
  · intro b hready hb
    obtain ⟨s, hs⟩ := hspec.found hready b hb
    rw [hσ b s hs]
    exact hmade b s hs

theorem append_stem_inj {id id' : Nat} {b c : String}
    (h : Sym.made id (b ++ "__") = .made id' (c ++ "__")) : id = id' ∧ b = c := by
  obtain ⟨hid, hstem⟩ := Sym.made.inj h
  exact ⟨hid, (String.append_left_inj "__").mp hstem⟩

theorem session_readAs (compiler : Compiler Ast) (forms : List Form) :
    ∀ counter, ∃ τ, ReadAs compiler counter forms τ := by
  induction forms with
  | nil =>
      intro counter
      refine ⟨fun _ _ => .made 0 "", rfl, fun _ _ => ⟨0, "", rfl⟩, ?_, ?_⟩
      · intro i f b hf
        simp at hf
      · intro i j f g b c hf
        simp at hf
  | cons f forms ih =>
      intro counter
      obtain ⟨σ, counter', hread, hle, hmade, hfresh⟩ := readFolSyntaxQuote_spec f counter
      obtain ⟨τ, hτ⟩ := ih counter'
      -- a symbol of the first template is older than those of the later ones
      have cross : ∀ j g b c, forms[j]? = some g → Ready f → Ready g → b ∈ gensymNames f →
          c ∈ gensymNames g → σ b ≠ τ j c := by
        intro j g b c hg hrf hrg hb hc heq
        obtain ⟨id, -, hhi, hσ⟩ := hfresh b hrf hb
        obtain ⟨id', hlo, hτ'⟩ := hτ.fresh j g c hg hrg hc
        rw [hσ, hτ'] at heq
        have := (append_stem_inj heq).1
        omega
      refine ⟨inFront σ τ, ?_, ?_, ?_, ?_⟩
      · simp [session, hread, hτ.values, List.mapIdx_cons, inFront]
      · intro i
        cases i with
        | zero => exact hmade
        | succ i => exact hτ.made i
      · intro i g b hg hrg hb
        cases i with
        | zero =>
            obtain rfl : f = g := by simpa using hg
            obtain ⟨id, hlo, -, hσ⟩ := hfresh b hrg hb
            exact ⟨id, hlo, hσ⟩
        | succ i =>
            obtain ⟨id, hlo, hτ'⟩ := hτ.fresh i g b (by simpa using hg) hrg hb
            exact ⟨id, Nat.le_trans hle hlo, hτ'⟩
      · intro i j g h b c hg hh hrg hrh hb hc heq
        cases i with
        | zero =>
            obtain rfl : f = g := by simpa using hg
            cases j with
            | zero =>
                obtain rfl : f = h := by simpa using hh
                obtain ⟨id, -, -, hσb⟩ := hfresh b hrg hb
                obtain ⟨id', -, -, hσc⟩ := hfresh c hrg hc
                simp only [inFront, hσb, hσc] at heq
                exact ⟨rfl, (append_stem_inj heq).2⟩
            | succ j => exact absurd heq (cross j h b c (by simpa using hh) hrg hrh hb hc)
        | succ i =>
            cases j with
            | zero =>
                obtain rfl : f = h := by simpa using hh
                exact absurd heq.symm (cross i g c b (by simpa using hg) hrh hrg hc hb)
            | succ j =>
                obtain ⟨rfl, rfl⟩ := hτ.distinct i j g h b c (by simpa using hg)
                  (by simpa using hh) hrg hrh hb hc heq
                exact ⟨rfl, rfl⟩

/-! ## §7 The condition -/

/-- The values of the syntax-quotes of a session are their templates filled.
The symbols `σ` for the auto-gensyms are made in the session, one for each
name of each template. -/
structure Filled (compiler : Compiler Ast) (value : Form → Form) (counter : Nat)
    (forms : List Form) (σ : Nat → String → Sym) : Prop where
  values : session compiler counter forms =
    forms.mapIdx fun i f => .ok (fill (σ i) value f)
  fresh : ∀ i f b, forms[i]? = some f → b ∈ gensymNames f →
    ∃ id stem, counter ≤ id ∧ σ i b = .made id stem
  distinct : ∀ i j f g b c, forms[i]? = some f → forms[j]? = some g →
    b ∈ gensymNames f → c ∈ gensymNames g → σ i b = σ j c → i = j ∧ b = c

/-- The syntax-quotes of a session give their templates filled, where `value`
gives the values of the expressions in the holes. -/
def GivesFilled (compiler : Compiler Ast) (value : Form → Form) (counter : Nat)
    (forms : List Form) : Prop :=
  ∃ σ, Filled compiler value counter forms σ

theorem givesFilled_of_ready {counter : Nat} {forms : List Form} (value : Form → Form)
    (h : ∀ f ∈ forms, Ready f) : GivesFilled compiler value counter forms := by
  obtain ⟨τ, hτ⟩ := session_readAs compiler forms counter
  have hready : ∀ i f, forms[i]? = some f → Ready f :=
    fun i f hf => h f (List.mem_of_getElem? hf)
  refine ⟨τ, ?_, ?_, ?_⟩
  · rw [hτ.values]
    refine List.mapIdx_eq_mapIdx_iff.mpr fun i hi => ?_
    have hf := hready i forms[i] (List.getElem?_eq_getElem hi)
    rw [fill_eq_resolved _ hf]
    exact syntaxQuoteValue_eq_ok.mpr (compiles_resolved (hτ.made i) _ hf.noHole)
  · intro i f b hf hb
    obtain ⟨id, hlo, hmade⟩ := hτ.fresh i f b hf (hready i f hf) hb
    exact ⟨id, _, hlo, hmade⟩
  · intro i j f g b c hf hg
    exact hτ.distinct i j f g b c hf hg (hready i f hf) (hready j g hg)

/-- Each template of a session that is filled is read with some symbols and
compiled to the template filled. -/
theorem GivesFilled.compiles {value : Form → Form} {counter : Nat} {forms : List Form}
    {τ : Nat → String → Sym} (hτ : ReadAs compiler counter forms τ)
    (h : GivesFilled compiler value counter forms) {i : Nat} {f : Form}
    (hf : forms[i]? = some f) :
    ∃ σ : String → Sym, (∀ b ∈ gensymNames f, ∃ id stem, σ b = .made id stem) ∧
      Compiles compiler (resolved (τ i) f) (fill σ value f) := by
  obtain ⟨σ, hσ⟩ := h
  refine ⟨σ i, ?_, ?_⟩
  · intro b hb
    obtain ⟨id, stem, -, hmade⟩ := hσ.fresh i f b hf hb
    exact ⟨id, stem, hmade⟩
  · have hvalues := hτ.values.symm.trans hσ.values
    have hat := congrArg (·[i]?) hvalues
    simpa [hf, syntaxQuoteValue_eq_ok] using hat

/-- A session gives its templates filled, whatever the values of the holes,
exactly where reading alone fills each of them.  For values that do not hold
the reader's marks no single evaluation fills a hole of the reader. -/
theorem syntaxQuote_filled_iff (compiler : Compiler Ast) (counter : Nat) (forms : List Form) :
    ((∀ value, GivesFilled compiler value counter forms) ↔ ∀ f ∈ forms, Ready f) ∧
      ∀ value, (∀ e, Unmarked (value e)) → GivesFilled compiler value counter forms →
        ∀ f ∈ forms, ∀ h ∈ holes f, h.maker = .compiler := by
  obtain ⟨τ, hτ⟩ := session_readAs compiler forms counter
  refine ⟨⟨?_, fun h value => givesFilled_of_ready value h⟩, ?_⟩
  · intro h f hf
    obtain ⟨i, hi⟩ := List.getElem?_of_mem hf
    obtain ⟨σ, hmade, hσ⟩ := (h fun _ => .nil).compiles hτ hi
    obtain ⟨σ', -, hσ'⟩ := (h fun _ => .cons .nil .nil).compiles hτ hi
    have hholes := holes_eq_nil_of_filled (hσ.inj hσ')
    have hsame := hσ.inj (compiles_resolved (hτ.made i) f hholes)
    refine ⟨hholes, collectedNames_of_resolved f hholes ?_ hsame⟩
    intro b hb
    obtain ⟨id, stem, hb'⟩ := hmade b hb
    simp [hb']
  · intro value hvalue h f hf
    obtain ⟨i, hi⟩ := List.getElem?_of_mem hf
    obtain ⟨σ, hmade, hσ⟩ := h.compiles hτ hi
    exact reader_marks_kept (hτ.made i) hmade hvalue hσ

/-- A compiler whose code for an expression is the expression. -/
def selfCompiler : Compiler Form := ⟨.ok, .ok⟩

/-- A symbol of the user's package. -/
def user (name : String) : Form := .sym (.named "USER" name)

/-- `(a x# (b x#))`. -/
def pairTemplate : Form :=
  prepend [user "A", user "X#", prepend [user "B", user "X#"] .nil] .nil

/-- `(a ~x c)`. -/
def holeTemplate : Form :=
  prepend [user "A", readFolUnquote false (user "X"), user "C"] .nil

/-- `(bind [x# 1] x#)`. -/
def bindTemplate : Form :=
  prepend [user "BIND", .coll .vector [user "X#", .lit "1"], user "X#"] .nil

theorem pairTemplate_ready : Ready pairTemplate := ⟨rfl, rfl⟩

theorem syntaxQuote_filled_iff_pairs :
    GivesFilled selfCompiler (fun _ => .lit "42") 3 [pairTemplate, pairTemplate] ∧
      ∀ h ∈ holes pairTemplate, h.maker = .compiler := by
  have hiff := syntaxQuote_filled_iff selfCompiler 3 [pairTemplate, pairTemplate]
  have hall := hiff.1.mpr (by simp [pairTemplate_ready]) fun _ => .lit "42"
  have hplain : ∀ _ : Form, Unmarked (.lit "42") := fun _ => rfl
  exact ⟨hall, hiff.2 _ hplain hall pairTemplate (by simp)⟩

/-- With 42 the value of `x`, a syntax-quoted `(a ~x c)` is not `(a 42 c)`; and
the two `x#` of `(bind [x# 1] x#)` are not one symbol. -/
theorem syntaxQuote_not_filled :
    ¬ GivesFilled selfCompiler (fun _ => .lit "42") 0 [holeTemplate] ∧
      ¬ GivesFilled selfCompiler (fun _ => .lit "42") 0 [bindTemplate] := by
  constructor
  · rintro ⟨σ, hσ⟩
    have hvalue : fill (σ 0) (fun _ => .lit "42") holeTemplate =
        prepend [user "A", .lit "42", user "C"] .nil := rfl
    have h := hσ.values
    simp only [List.mapIdx_cons, List.mapIdx_nil, hvalue] at h
    have hcode : session selfCompiler 0 [holeTemplate] = [.ok holeTemplate] := rfl
    rw [hcode] at h
    simp [holeTemplate, prepend, readFolUnquote, Form.list2] at h
  · rintro ⟨σ, hσ⟩
    have hname : ∃ id stem, 0 ≤ id ∧ σ 0 "X" = .made id stem :=
      hσ.fresh 0 bindTemplate "X" rfl (by decide)
    obtain ⟨id, stem, -, hmade⟩ := hname
    have hvalue : fill (σ 0) (fun _ => .lit "42") bindTemplate =
        prepend [user "BIND", .coll .vector [.sym (σ 0 "X"), .lit "1"], .sym (σ 0 "X")] .nil :=
      rfl
    have h := hσ.values
    simp only [List.mapIdx_cons, List.mapIdx_nil, hvalue, hmade] at h
    have hcode : session selfCompiler 0 [bindTemplate] =
        [.ok (prepend [user "BIND", .coll .vector [user "X#", .lit "1"],
          .sym (.made 0 "X__")] .nil)] := rfl
    rw [hcode] at h
    simp [prepend, user] at h

end Fol.Emit.SyntaxQuote
