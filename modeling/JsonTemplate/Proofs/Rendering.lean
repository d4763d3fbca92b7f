/-
Trees written as text. A tree is rendered as lexemes with every operand in parentheses and every
node of its own as the call it came from. The grammar derives what is rendered as that tree of
calls (`derives_render`), and all its lexemes can be written (`legible_render`). So a parsed tree
is parsed again from every text of its rendering (`parse_render`).
-/
import JsonTemplate.Proofs.Writable

namespace JsonTemplate

/-! ## Rendering -/

/-- Lexemes in parentheses. -/
def parenthesized (L : List Lexeme) : List Lexeme := .mark '(' :: (L ++ [.mark ')'])

/-- The absolute value of a number with a minus before it if its sign bit is set. -/
def Literal.render : Literal → List Lexeme
  | null => [.word "null"]
  | bool b => [.word (if b then "true" else "false")]
  | number n => if n.isNegative then [.mark '-', .number n.abs] else [.number n.abs]
  | string s => [.string s]

namespace Expr

/-- Parts with a comma between them. -/
def separated : List (List Lexeme) → List Lexeme
  | [] => []
  | [part] => part
  | part :: rest => part ++ .mark ',' :: separated rest

variable (enclose : Expr → Bool)

/-- Lexemes of a part that needs no parentheses, with them if they are wanted. -/
def part (e : Expr) (L : List Lexeme) : List Lexeme := if enclose e then parenthesized L else L

mutual

/-- The lexemes of a tree. Operands stand in parentheses; of the other parts, those of lists, of
dictionaries, of calls and between brackets, the ones that are to be enclosed. -/
def render : Expr → List Lexeme
  | literal _ value => value.render
  | list _ items => .mark '[' :: (separated (renderItems items) ++ [.mark ']'])
  | dict _ entries => .mark '\x7b' :: (separated (renderEntries entries) ++ [.mark '\x7d'])
  | ident _ name => [.word name]
  | select _ operand field => parenthesized operand.render ++ [.mark '.', .word field]
  | index _ operand i =>
    parenthesized operand.render ++ .mark '[' :: (part enclose i i.render ++ [.mark ']'])
  | call _ target function args =>
    renderTarget target ++ .word function :: parenthesized (separated (renderItems args))
  | has _ operand field =>
    .word "has" :: parenthesized (parenthesized operand.render ++ [.mark '.', .word field])
  | quantify _ q range name test =>
    parenthesized range.render ++ .mark '.' :: .word (LoopWord.quantifier q).name ::
      parenthesized (separated [[.word name], part enclose test test.render])
  | collect _ range name test image =>
    parenthesized range.render ++ .mark '.' :: .word LoopWord.map.name ::
      parenthesized (separated ([.word name] ::
        (renderOptional test ++ [part enclose image image.render])))
  | conditional _ condition yes no =>
    parenthesized condition.render ++ .mark '?' ::
      (parenthesized yes.render ++ .mark ':' :: parenthesized no.render)
  | binary _ op left right =>
    parenthesized left.render ++ .operator op :: parenthesized right.render
  | unary _ op operand => .mark op.mark :: parenthesized operand.render

def renderTarget : Option Expr → List Lexeme
  | none => []
  | some e => parenthesized e.render ++ [.mark '.']

def renderOptional : Option Expr → List (List Lexeme)
  | none => []
  | some e => [part enclose e e.render]

def renderItems : List Expr → List (List Lexeme)
  | [] => []
  | e :: rest => part enclose e e.render :: renderItems rest

def renderEntries : List (Expr × Expr) → List (List Lexeme)
  | [] => []
  | (key, e) :: rest =>
    (part enclose key key.render ++ .mark ':' :: part enclose e e.render) :: renderEntries rest

end

end Expr

/-! ## What is rendered is derived -/

section Derives

variable {L : List Lexeme} {e : Expr}

theorem Derives.of_operand (h : Derives .operand L e) : Derives .choice L e := by
  have hsequence := Derives.sequence h .noOperations
  rw [List.append_nil] at hsequence
  exact .plain hsequence

theorem Derives.operand_of_primary (h : Derives .primary L e) : Derives .operand L e := by
  have hoperand := Derives.operand h .whole
  rwa [List.append_nil] at hoperand

theorem Derives.parenthesized (h : Derives .choice L e) :
    Derives .primary (parenthesized L) e := .group h

theorem Derives.parenthesized_operand (h : Derives .choice L e) :
    Derives .operand (JsonTemplate.parenthesized L) e := h.parenthesized.operand_of_primary

theorem Derives.parenthesized_sequence (h : Derives .choice L e) :
    Derives .sequence (JsonTemplate.parenthesized L) e := by
  have hsequence := Derives.sequence h.parenthesized_operand .noOperations
  rwa [List.append_nil] at hsequence

end Derives

namespace Expr

variable {enclose : Expr → Bool}

theorem derives_part {L : List Lexeme} {e : Expr} (h : Derives .choice L e) (f : Expr) :
    Derives .choice (part enclose f L) e := by
  unfold part
  split
  · exact h.parenthesized_operand.of_operand
  · exact h

theorem derives_separated {parts : List (List Lexeme)} {es : List Expr}
    (h : List.Forall₂ (fun L e => Derives .choice L e) parts es) :
    Derives .items (separated parts) es := by
  induction h with
  | nil => exact .noItems
  | @cons L e parts es hL hparts ih =>
    cases hparts with
    | nil => exact .lastItem hL
    | cons _ _ => exact .item hL ih

theorem derives_separated_entries {parts : List (List Lexeme)} {entries : List (Expr × Expr)}
    (h : List.Forall₂ (fun N (entry : Expr × Expr) => ∃ K L, N = K ++ .mark ':' :: L ∧
      Derives .choice K entry.1 ∧ Derives .choice L entry.2) parts entries) :
    Derives .entries (separated parts) entries := by
  induction h with
  | nil => exact .noEntries
  | @cons N entry parts entries hN hparts ih =>
    obtain ⟨K, L, rfl, hK, hL⟩ := hN
    cases hparts with
    | nil => exact .lastEntry hK hL
    | cons _ _ =>
      have hentry := Derives.entry hK hL ih
      simpa [separated] using hentry

theorem derives_literal (v : Literal) : Derives .choice v.render (literal default v) := by
  cases v with
  | null => exact (Derives.null).operand_of_primary.of_operand
  | bool b => exact (Derives.bool b).operand_of_primary.of_operand
  | string s => exact (Derives.string).operand_of_primary.of_operand
  | number n =>
    have habs : Derives .operand [.number n.abs] (literal default (.number n.abs)) :=
      (Derives.number).operand_of_primary
    cases hn : n.isNegative with
    | true =>
      have hunary : Derives .operand [.mark UnaryOp.neg.mark, .number n.abs] _ := .unary habs
      have hneg := hunary.of_operand
      simp only [Reader.applyUnary, Binary64.neg_abs hn] at hneg
      simpa [Literal.render, hn, UnaryOp.mark] using hneg
    | false =>
      rw [Binary64.abs_eq hn] at habs
      simpa [Literal.render, hn, Binary64.abs_eq hn] using habs.of_operand

theorem span_written (e : Expr) : e.written.span = default := by
  cases e <;> rfl

theorem literal?_written {e : Expr} {v : Literal} (h : e.written.literal? = some v) :
    e.literal? = some v := by
  cases e <;> exact h

theorem derives_binary {op : BinaryOp} {L M : List Lexeme} {left right : Expr}
    (hL : Derives .choice L left.written) (hM : Derives .choice M right.written) :
    Derives .choice (parenthesized L ++ .operator op :: parenthesized M)
      (binary default op left.written right.written) := by
  have hoperations : Derives .operations (.operator op :: (parenthesized M ++ []))
      [(op, right.written)] := .operation hM.parenthesized_operand .noOperations
  have hsequence := Derives.sequence hL.parenthesized_operand hoperations
  rw [List.append_nil] at hsequence
  have htree : (OpTree.ofSequence left.written [(op, right.written)]).toExpr =
      binary default op left.written right.written := by
    have hspan : ∀ e : Expr, e.written.span = default := span_written
    simp only [OpTree.ofSequence, List.foldl_cons, List.foldl_nil, OpTree.attach, OpTree.toExpr,
      hspan]
    rfl
  rw [htree] at hsequence
  exact .plain hsequence

theorem derives_select {L : List Lexeme} {e : Expr} {field : String} (h : Derives .choice L e) :
    Derives .choice (parenthesized L ++ [.mark '.', .word field]) (select default e field) :=
  (Derives.operand h.parenthesized (.field .whole)).of_operand

theorem derives_call {M : List Lexeme} {function : String} {args : List Expr}
    (hfunction : function ∉ keywords) (h : Derives .items M args) :
    Derives .choice (.word function :: parenthesized M) (call default none function args) :=
  (Derives.call hfunction h).operand_of_primary.of_operand

theorem derives_method {L M : List Lexeme} {e : Expr} {function : String} {args : List Expr}
    (h : Derives .choice L e) (hargs : Derives .items M args) :
    Derives .choice (parenthesized L ++ .mark '.' :: .word function :: parenthesized M)
      (call default (some e) function args) :=
  (Derives.operand h.parenthesized (.method hargs .whole)).of_operand

theorem derives_name {name : String} (h : name ∉ keywords) :
    Derives .choice [.word name] (ident default name) :=
  (Derives.name h).operand_of_primary.of_operand

mutual

/-- **What is rendered of a tree is derived as the tree of calls it stands for.** -/
theorem derives_render {e : Expr} (h : e.Writable) :
    Derives .choice (e.render enclose) e.written := by
  match e with
  | literal _ v => exact derives_literal v
  | list _ items =>
    exact (Derives.list (derives_separated (derives_renderItems h))).operand_of_primary.of_operand
  | dict _ entries =>
    exact (Derives.dict (derives_separated_entries
      (derives_renderEntries h))).operand_of_primary.of_operand
  | ident _ name => exact derives_name h.2
  | select _ operand field => exact derives_select (derives_render h.1)
  | index _ operand i =>
    have hindex : Derives .choice (part enclose i (i.render enclose)) i.written :=
      derives_part (derives_render h.2) i
    exact (Derives.operand (derives_render h.1).parenthesized (.index hindex .whole)).of_operand
  | call _ target function args =>
    obtain ⟨-, hkeyword, htarget, hargs⟩ := h
    have hitems : Derives .items (separated (renderItems enclose args)) (writtenItems args) :=
      derives_separated (derives_renderItems hargs)
    cases target with
    | none => exact derives_call (hkeyword rfl) hitems
    | some target =>
      have htarget' : Derives .choice (target.render enclose) target.written :=
        derives_render htarget
      have hmethod : Derives .choice (parenthesized (target.render enclose) ++ .mark '.' ::
          .word function :: parenthesized (separated (renderItems enclose args))) _ :=
        derives_method htarget' hitems
      simpa [render, renderTarget, written, writtenOptional] using hmethod
  | has _ operand field =>
    exact derives_call (by decide) (.lastItem (derives_select (derives_render h.1)))
  | quantify _ q range name test =>
    obtain ⟨hrange, hname, htest⟩ := h
    exact derives_method (derives_render hrange) (derives_separated
      (.cons (derives_name hname.2) (.cons (derives_part (derives_render htest) test) .nil)))
  | collect _ range name test image =>
    obtain ⟨hrange, hname, htest, himage⟩ := h
    have himage' : Derives .choice (part enclose image (image.render enclose)) image.written :=
      derives_part (derives_render himage) image
    refine derives_method (derives_render hrange) (derives_separated
      (.cons (derives_name hname.2) ?_))
    cases test with
    | none => exact .cons himage' .nil
    | some test =>
      exact .cons (derives_part (derives_render (e := test) htest) test) (.cons himage' .nil)
  | conditional _ condition yes no =>
    exact .choice (derives_render h.1).parenthesized_sequence
      (derives_render h.2.1).parenthesized_operand.of_operand
      (derives_render h.2.2).parenthesized_operand.of_operand
  | binary _ op left right => exact derives_binary (derives_render h.1) (derives_render h.2)
  | unary _ op operand =>
    have hoperand : Derives .choice (operand.render enclose) operand.written :=
      derives_render h.1
    have hunary : Derives .operand (.mark op.mark :: parenthesized (operand.render enclose)) _ :=
      .unary hoperand.parenthesized_operand
    have happly : Reader.applyUnary default op operand.written =
        unary default op operand.written := by
      unfold Reader.applyUnary
      split
      · rename_i s n hwritten
        have hliteral : operand.written.literal? = some (.number n) := by rw [hwritten]; rfl
        exact absurd (literal?_written hliteral) (h.2 rfl n)
      · rfl
    rw [happly] at hunary
    exact hunary.of_operand

theorem derives_renderItems {es : List Expr} (h : WritableItems es) :
    List.Forall₂ (fun L e => Derives .choice L e) (renderItems enclose es) (writtenItems es) := by
  match es with
  | [] => exact .nil
  | e :: rest =>
    exact .cons (derives_part (derives_render h.1) e) (derives_renderItems h.2)

theorem derives_renderEntries {es : List (Expr × Expr)} (h : WritableEntries es) :
    List.Forall₂ (fun N (entry : Expr × Expr) => ∃ K L, N = K ++ .mark ':' :: L ∧
      Derives .choice K entry.1 ∧ Derives .choice L entry.2)
      (renderEntries enclose es) (writtenEntries es) := by
  match es with
  | [] => exact .nil
  | (key, e) :: rest =>
    exact .cons ⟨_, _, rfl, derives_part (derives_render h.1) key,
      derives_part (derives_render h.2.1) e⟩ (derives_renderEntries h.2.2)

end

end Expr

/-! ## What is rendered can be written -/

/-- A text with a backslash before each quote and backslash. -/
def escaped : List Char → List Char
  | [] => []
  | c :: rest => if c = '"' ∨ c = '\\' then '\\' :: c :: escaped rest else c :: escaped rest

theorem decode_escaped (cs : List Char) : Escape.decode (escaped cs) = cs := by
  induction cs with
  | nil => rfl
  | cons c rest ih =>
    by_cases hc : c = '"' ∨ c = '\\'
    · rcases hc with rfl | rfl <;> simp [escaped, Escape.decode, Escape.letter?, ih]
    · have hbackslash : c ≠ '\\' := fun h => hc (.inr h)
      rw [escaped, if_neg hc]
      simp [Escape.decode, hbackslash, ih]

theorem isBody_escaped (cs : List Char) : IsBody '"' (escaped cs) := by
  induction cs with
  | nil => exact .nil
  | cons c rest ih =>
    by_cases hc : c = '"' ∨ c = '\\'
    · rw [escaped, if_pos hc]
      exact .escape ih
    · rw [escaped, if_neg hc]
      exact .plain (fun h => hc (.inl h)) (fun h => hc (.inr h)) ih

/-- Every string can be written. -/
theorem written_string (s : String) : ∃ chars, (Lexeme.string s).Written chars := by
  have h := Lexeme.Written.string (by decide) (isBody_escaped s.toList)
  rw [decode_escaped, String.ofList_toList] at h
  exact ⟨_, h⟩

theorem written_word {name : String} (h : IsWord name.toList) :
    ∃ chars, (Lexeme.word name).Written chars := ⟨_, .word h⟩

theorem written_mark {c : Char} (h : c ∈ marks) : ∃ chars, (Lexeme.mark c).Written chars :=
  ⟨_, .mark h⟩

/-- All lexemes can be written. -/
def Legible (L : List Lexeme) : Prop := ∀ l ∈ L, ∃ chars, l.Written chars

namespace Legible

variable {L M : List Lexeme}

theorem append (hL : Legible L) (hM : Legible M) : Legible (L ++ M) :=
  List.forall_mem_append.mpr ⟨hL, hM⟩

theorem mark {c : Char} (hc : c ∈ marks) (hM : Legible M) : Legible (.mark c :: M) :=
  List.forall_mem_cons.mpr ⟨written_mark hc, hM⟩

theorem word {name : String} (h : IsWord name.toList) (hM : Legible M) :
    Legible (.word name :: M) :=
  List.forall_mem_cons.mpr ⟨written_word h, hM⟩

theorem nil : Legible [] := nofun

theorem parenthesized (h : Legible L) : Legible (parenthesized L) :=
  (h.append (nil.mark (by decide))).mark (by decide)

theorem separated {parts : List (List Lexeme)} (h : ∀ part ∈ parts, Legible part) :
    Legible (Expr.separated parts) := by
  induction parts with
  | nil => exact nil
  | cons part rest ih =>
    obtain ⟨hpart, hrest⟩ := List.forall_mem_cons.mp h
    cases rest with
    | nil => exact hpart
    | cons _ _ => exact hpart.append ((ih hrest).mark (by decide))

end Legible

namespace Expr

theorem legible_part {L : List Lexeme} (h : Legible L) (e : Expr) : Legible (part enclose e L) := by
  unfold part
  split
  · exact h.parenthesized
  · exact h

theorem legible_literal {v : Literal} (h : v.Writable) : Legible v.render := by
  cases v with
  | null => exact Legible.nil.word (by decide)
  | bool b => exact Legible.nil.word (by cases b <;> decide)
  | string s => exact List.forall_mem_singleton.mpr (written_string s)
  | number n =>
    obtain ⟨chars, hchars⟩ := h
    have habs : Legible [.number n.abs] := List.forall_mem_singleton.mpr ⟨chars, .number hchars⟩
    cases hn : n.isNegative with
    | true => simpa [Literal.render, hn] using habs.mark (by decide)
    | false => simpa [Literal.render, hn] using habs

theorem isWord_loop (word : LoopWord) : IsWord word.name.toList := by
  cases word with
  | map => decide
  | quantifier q => cases q <;> decide

mutual

/-- **The lexemes of a tree can be written.** -/
theorem legible_render {e : Expr} (h : e.Writable) : Legible (e.render enclose) := by
  match e with
  | literal _ v => exact legible_literal h
  | list _ items =>
    exact ((Legible.separated (legible_renderItems h)).append
      (Legible.nil.mark (by decide))).mark (by decide)
  | dict _ entries =>
    exact ((Legible.separated (legible_renderEntries h)).append
      (Legible.nil.mark (by decide))).mark (by decide)
  | ident _ name => exact Legible.nil.word h.1
  | select _ operand field =>
    exact (legible_render h.1).parenthesized.append ((Legible.nil.word h.2).mark (by decide))
  | index _ operand i =>
    exact (legible_render h.1).parenthesized.append (((legible_part (legible_render h.2) i).append
      (Legible.nil.mark (by decide))).mark (by decide))
  | call _ target function args =>
    obtain ⟨hfunction, -, htarget, hargs⟩ := h
    refine Legible.append ?_
      ((Legible.separated (legible_renderItems hargs)).parenthesized.word hfunction)
    cases target with
    | none => exact Legible.nil
    | some target =>
      exact (legible_render (e := target) htarget).parenthesized.append
        (Legible.nil.mark (by decide))
  | has _ operand field =>
    exact (((legible_render h.1).parenthesized.append
      ((Legible.nil.word h.2).mark (by decide))).parenthesized).word (by decide)
  | quantify _ q range name test =>
    obtain ⟨hrange, hname, htest⟩ := h
    have hparts : Legible (separated [[.word name], part enclose test (test.render enclose)]) :=
      Legible.separated (List.forall_mem_cons.mpr ⟨Legible.nil.word hname.1,
        List.forall_mem_singleton.mpr (legible_part (legible_render htest) test)⟩)
    exact (legible_render hrange).parenthesized.append
      ((hparts.parenthesized.word (isWord_loop _)).mark (by decide))
  | collect _ range name test image =>
    obtain ⟨hrange, hname, htest, himage⟩ := h
    have hparts : Legible (separated ([.word name] ::
        (renderOptional enclose test ++ [part enclose image (image.render enclose)]))) :=
      Legible.separated (List.forall_mem_cons.mpr ⟨Legible.nil.word hname.1,
        List.forall_mem_append.mpr ⟨legible_renderOptional htest,
          List.forall_mem_singleton.mpr (legible_part (legible_render himage) image)⟩⟩)
    exact (legible_render hrange).parenthesized.append
      ((hparts.parenthesized.word (isWord_loop _)).mark (by decide))
  | conditional _ condition yes no =>
    exact (legible_render h.1).parenthesized.append (((legible_render h.2.1).parenthesized.append
      ((legible_render h.2.2).parenthesized.mark (by decide))).mark (by decide))
  | binary _ op left right =>
    exact (legible_render h.1).parenthesized.append (List.forall_mem_cons.mpr
      ⟨⟨_, .operator⟩, (legible_render h.2).parenthesized⟩)
  | unary _ op operand =>
    exact (legible_render h.1).parenthesized.mark (by cases op <;> decide)

theorem legible_renderOptional {e : Option Expr} (h : WritableOptional e) :
    ∀ part ∈ renderOptional enclose e, Legible part := by
  match e with
  | none => exact nofun
  | some e => exact List.forall_mem_singleton.mpr (legible_part (legible_render (e := e) h) e)

theorem legible_renderItems {es : List Expr} (h : WritableItems es) :
    ∀ part ∈ renderItems enclose es, Legible part := by
  match es with
  | [] => exact nofun
  | e :: rest =>
    exact List.forall_mem_cons.mpr
      ⟨legible_part (legible_render h.1) e, legible_renderItems h.2⟩

theorem legible_renderEntries {es : List (Expr × Expr)} (h : WritableEntries es) :
    ∀ part ∈ renderEntries enclose es, Legible part := by
  match es with
  | [] => exact nofun
  | (key, e) :: rest =>
    exact List.forall_mem_cons.mpr ⟨(legible_part (legible_render h.1) key).append
      ((legible_part (legible_render h.2.1) e).mark (by decide)), legible_renderEntries h.2.2⟩

end

/-- **A parsed tree is parsed again, up to places, from every text of its rendering**, and there
is such a text. -/
theorem parse_render {source : String} {t : Expr} (h : parse source = .ok t)
    (enclose : Expr → Bool) :
    (∃ text, Spelling (t.render enclose) text) ∧
      ∀ text, Spelling (t.render enclose) text →
        ∃ t', parse (String.ofList text) = .ok t' ∧ t'.bare = t.bare := by
  have hwritable := parse_writable h
  refine ⟨exists_spelling (legible_render hwritable), fun text htext => ?_⟩
  -- The rendering is read as the calls the tree stands for, and those are expanded to the tree.
  have hsource : Spelling (t.render enclose) (String.ofList text).toList := by
    rwa [String.toList_ofList]
  obtain ⟨raw, hraw, hbare⟩ :=
    readAll_ofSource_iff.mpr ⟨t.render enclose, hsource, derives_render hwritable⟩
  obtain ⟨t', ht', htbare⟩ := expandMacros_of_bare hbare (parse_written h)
  refine ⟨t', ?_, htbare⟩
  simp only [parse, hraw, ht']

/-- A choice between a loop and a list of literals. -/
theorem parse_render_of_choice : ∃ t, parse "has(a.b) ? xs.map(e, !e) : ['q', -2.5]" = .ok t ∧
    (∃ text, Spelling (t.render fun _ => false) text) ∧
      ∀ text, Spelling (t.render fun _ => false) text →
        ∃ t', parse (String.ofList text) = .ok t' ∧ t'.bare = t.bare := by
  obtain ⟨t, ht⟩ : ∃ t, parse "has(a.b) ? xs.map(e, !e) : ['q', -2.5]" = .ok t :=
    failure?_eq_none.mp (by decide +kernel)
  exact ⟨t, ht, parse_render ht fun _ => false⟩

end Expr

end JsonTemplate
