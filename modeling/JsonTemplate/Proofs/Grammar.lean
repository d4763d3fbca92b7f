/-
The grammar of expressions. `Derives` says which sequences of lexemes are an expression, or a part
of one, and of which tree; it has a rule for each way to go on and knows nothing of readers. Its
trees have no places: trees of a source text are compared with them by `Expr.bare`.
-/
import JsonTemplate.Expr.Reader
import JsonTemplate.Proofs.Precedence

namespace JsonTemplate

/-! ## Trees without places -/

namespace Expr

mutual

/-- The tree with all spans forgotten. -/
def bare : Expr → Expr
  | literal _ value => literal default value
  | list _ items => list default (bareItems items)
  | dict _ entries => dict default (bareEntries entries)
  | ident _ name => ident default name
  | select _ operand field => select default operand.bare field
  | index _ operand i => index default operand.bare i.bare
  | call _ target function args => call default (bareOptional target) function (bareItems args)
  | has _ operand field => has default operand.bare field
  | quantify _ q range name test => quantify default q range.bare name test.bare
  | collect _ range name test image =>
    collect default range.bare name (bareOptional test) image.bare
  | conditional _ condition yes no => conditional default condition.bare yes.bare no.bare
  | binary _ op left right => binary default op left.bare right.bare
  | unary _ op operand => unary default op operand.bare

def bareOptional : Option Expr → Option Expr
  | none => none
  | some e => some e.bare

def bareItems : List Expr → List Expr
  | [] => []
  | e :: rest => e.bare :: bareItems rest

def bareEntries : List (Expr × Expr) → List (Expr × Expr)
  | [] => []
  | (key, e) :: rest => (key.bare, e.bare) :: bareEntries rest

end

@[simp] theorem span_bare (e : Expr) : e.bare.span = default := by
  cases e <;> rfl

/-- What a prefix operator makes of an operand does not depend on places. -/
theorem bare_applyUnary (span : Span) (op : UnaryOp) (e : Expr) :
    (Reader.applyUnary span op e).bare = Reader.applyUnary default op e.bare := by
  cases op with
  | not => rfl
  | neg =>
    cases e with
    | literal s v => cases v <;> rfl
    | _ => rfl

end Expr

/-- The tree of operators over operands without places has none either. -/
theorem OpTree.bare_toExpr (tree : OpTree Expr) :
    tree.toExpr.bare = (tree.map Expr.bare).toExpr := by
  induction tree with
  | operand e => rfl
  | node left op right ihl ihr =>
    have hspan : ∀ t : OpTree Expr, t.toExpr.bare.span = default := fun t => t.toExpr.span_bare
    simp only [toExpr, map, Expr.bare, ← ihl, ← ihr, hspan]
    rfl

/-! ## Lexemes -/

/-- A terminal of the grammar. Literals are given by what they stand for. -/
inductive Lexeme
  | word (name : String)
  | number (value : Binary64)
  | string (value : String)
  | mark (char : Char)
  | operator (op : BinaryOp)

/-- The mark of a prefix operator. -/
def UnaryOp.mark : UnaryOp → Char
  | not => '!'
  | neg => '-'

/-- Words that are literals. -/
def keywords : List String := ["true", "false", "null"]

/-! ## Rules -/

/-- What a sequence of lexemes may be. What follows an operand is read with the operand at hand. -/
inductive Category
  | choice
  | sequence
  | operations
  | operand
  | suffixes (operand : Expr)
  | primary
  | items
  | entries

/-- What a sequence of a category stands for. -/
@[reducible] def Category.Result : Category → Type
  | choice | sequence | operand | suffixes _ | primary => Expr
  | operations => List (BinaryOp × Expr)
  | items => List Expr
  | entries => List (Expr × Expr)

open Lexeme in
/-- A sequence of lexemes is of a category and stands for a tree, or for a list of them. -/
inductive Derives : (c : Category) → List Lexeme → c.Result → Prop
  | plain {L} {e : Expr} : Derives .sequence L e → Derives .choice L e
  | choice {L M N} {condition yes no : Expr} : Derives .sequence L condition →
      Derives .choice M yes → Derives .choice N no →
      Derives .choice (L ++ mark '?' :: (M ++ mark ':' :: N))
        (.conditional default condition yes no)
  | sequence {L M} {e : Expr} {rest : List (BinaryOp × Expr)} : Derives .operand L e →
      Derives .operations M rest → Derives .sequence (L ++ M) (OpTree.ofSequence e rest).toExpr
  | noOperations : Derives .operations [] []
  | operation {op L M} {e : Expr} {rest : List (BinaryOp × Expr)} : Derives .operand L e →
      Derives .operations M rest → Derives .operations (operator op :: (L ++ M)) ((op, e) :: rest)
  | unary {op L} {e : Expr} : Derives .operand L e →
      Derives .operand (mark op.mark :: L) (Reader.applyUnary default op e)
  | operand {L M} {e out : Expr} : Derives .primary L e → Derives (.suffixes e) M out →
      Derives .operand (L ++ M) out
  | whole {e : Expr} : Derives (.suffixes e) [] e
  | field {e name L} {out : Expr} : Derives (.suffixes (.select default e name)) L out →
      Derives (.suffixes e) (mark '.' :: word name :: L) out
  | method {e name L M} {args : List Expr} {out : Expr} : Derives .items L args →
      Derives (.suffixes (.call default (some e) name args)) M out →
      Derives (.suffixes e) (mark '.' :: word name :: mark '(' :: (L ++ mark ')' :: M)) out
  | index {e L M} {i out : Expr} : Derives .choice L i →
      Derives (.suffixes (.index default e i)) M out →
      Derives (.suffixes e) (mark '[' :: (L ++ mark ']' :: M)) out
  | number {n} : Derives .primary [number n] (.literal default (.number n))
  | string {v} : Derives .primary [string v] (.literal default (.string v))
  | bool (b : Bool) :
      Derives .primary [word (if b then "true" else "false")] (.literal default (.bool b))
  | null : Derives .primary [word "null"] (.literal default .null)
  | name {name} : name ∉ keywords → Derives .primary [word name] (.ident default name)
  | call {name L} {args : List Expr} : name ∉ keywords → Derives .items L args →
      Derives .primary (word name :: mark '(' :: (L ++ [mark ')'])) (.call default none name args)
  | group {L} {e : Expr} : Derives .choice L e →
      Derives .primary (mark '(' :: (L ++ [mark ')'])) e
  | list {L} {es : List Expr} : Derives .items L es →
      Derives .primary (mark '[' :: (L ++ [mark ']'])) (.list default es)
  | dict {L} {entries : List (Expr × Expr)} : Derives .entries L entries →
      Derives .primary (mark '\x7b' :: (L ++ [mark '\x7d'])) (.dict default entries)
  | noItems : Derives .items [] []
  | lastItem {L} {e : Expr} : Derives .choice L e → Derives .items L [e]
  | item {L M} {e : Expr} {es : List Expr} : Derives .choice L e → Derives .items M es →
      Derives .items (L ++ mark ',' :: M) (e :: es)
  | noEntries : Derives .entries [] []
  | lastEntry {K L} {key e : Expr} : Derives .choice K key → Derives .choice L e →
      Derives .entries (K ++ mark ':' :: L) [(key, e)]
  | entry {K L M} {key e : Expr} {entries : List (Expr × Expr)} : Derives .choice K key →
      Derives .choice L e → Derives .entries M entries →
      Derives .entries (K ++ mark ':' :: (L ++ mark ',' :: M)) ((key, e) :: entries)

/-! ## Tokens of a lexeme -/

/-- The tokens of one lexeme: one token, or the two touching marks of an operator. -/
inductive Lexeme.Tokens : Lexeme → List Token → Prop
  | word {name span} : Tokens (.word name) [⟨.word name, span⟩]
  | number {n span} : Tokens (.number n) [⟨.number n, span⟩]
  | string {body span} :
      Tokens (.string (String.ofList (Escape.decode body))) [⟨.string body, span⟩]
  | mark {c span} : Tokens (.mark c) [⟨.mark c, span⟩]
  | membership {span} : Tokens (.operator .mem) [⟨.word "in", span⟩]
  | single {op c span} : op.symbol.toList = [c] → Tokens (.operator op) [⟨.mark c, span⟩]
  | double {op c d span span'} : op ≠ .mem → op.symbol.toList = [c, d] →
      span.stop = span'.start → Tokens (.operator op) [⟨.mark c, span⟩, ⟨.mark d, span'⟩]

/-- The tokens of lexemes in a row. -/
inductive Spells : List Lexeme → List Token → Prop
  | nil : Spells [] []
  | cons {l L T M} : l.Tokens T → Spells L M → Spells (l :: L) (T ++ M)

namespace Spells

variable {L M : List Lexeme} {T U : List Token}

theorem append (h : Spells L T) (h' : Spells M U) : Spells (L ++ M) (T ++ U) := by
  induction h with
  | nil => exact h'
  | cons hl _ ih =>
    rw [List.append_assoc]
    exact .cons hl ih

theorem of_append {T : List Token} (h : Spells (L ++ M) T) :
    ∃ U V, T = U ++ V ∧ Spells L U ∧ Spells M V := by
  induction L generalizing T with
  | nil => exact ⟨[], T, rfl, .nil, h⟩
  | cons l L ih =>
    obtain _ | ⟨hl, h⟩ := h
    obtain ⟨U, V, rfl, hL, hM⟩ := ih h
    exact ⟨_, V, (List.append_assoc ..).symm, .cons hl hL, hM⟩

theorem of_mark {c : Char} (h : Spells (.mark c :: L) T) :
    ∃ span U, T = ⟨.mark c, span⟩ :: U ∧ Spells L U := by
  obtain _ | ⟨⟨⟩, h⟩ := h
  exact ⟨_, _, rfl, h⟩

theorem of_word {name : String} (h : Spells (.word name :: L) T) :
    ∃ span U, T = ⟨.word name, span⟩ :: U ∧ Spells L U := by
  obtain _ | ⟨⟨⟩, h⟩ := h
  exact ⟨_, _, rfl, h⟩

theorem of_nil (h : Spells [] T) : T = [] := by
  cases h
  rfl

theorem of_append_mark {c : Char} (h : Spells (L ++ .mark c :: M) T) :
    ∃ U span V, T = U ++ ⟨.mark c, span⟩ :: V ∧ Spells L U ∧ Spells M V := by
  obtain ⟨U, _, rfl, hU, hmark⟩ := h.of_append
  obtain ⟨span, V, rfl, hV⟩ := hmark.of_mark
  exact ⟨U, span, V, rfl, hU, hV⟩

/-- The tokens of what stands between two marks. -/
theorem of_enclosed {c d : Char} (h : Spells (.mark c :: (L ++ [.mark d])) T) :
    ∃ span U span', T = ⟨.mark c, span⟩ :: (U ++ [⟨.mark d, span'⟩]) ∧ Spells L U := by
  obtain ⟨span, _, rfl, hbody⟩ := h.of_mark
  obtain ⟨U, span', V, rfl, hU, hV⟩ := hbody.of_append_mark
  rw [hV.of_nil]
  exact ⟨span, U, span', rfl, hU⟩

theorem mark {c : Char} {span : Span} (h : Spells L T) :
    Spells (.mark c :: L) (⟨.mark c, span⟩ :: T) := .cons .mark h

theorem word {name : String} {span : Span} (h : Spells L T) :
    Spells (.word name :: L) (⟨.word name, span⟩ :: T) := .cons .word h

theorem enclosed {c d : Char} {left right : Span} (h : Spells L T) :
    Spells (.mark c :: (L ++ [.mark d])) (⟨.mark c, left⟩ :: (T ++ [⟨.mark d, right⟩])) :=
  .mark (h.append (.mark .nil))

end Spells

end JsonTemplate
