/-
The readers of single tokens, of operators and of lists, each against the tokens it takes. The
reader decides on the next token, so a part is read to its end when what follows cannot go on with
it (`ChoiceEnds`).
-/
import JsonTemplate.Proofs.Grammar
import JsonTemplate.Proofs.Outcome

namespace JsonTemplate.Reader

/-! ## The next token -/

/-- The form of the next token. -/
def ahead (tokens : List Token) : Option Token.Form := tokens.head?.map Token.form

@[simp] theorem ahead_cons (token : Token) (rest : List Token) :
    ahead (token :: rest) = some token.form := rfl

@[simp] theorem mark_cons (c : Char) (span : Span) (rest : List Token) :
    mark c (⟨.mark c, span⟩ :: rest) = .ok (span.stop, rest) := by
  simp [mark, Token.isMark]

theorem mark_stuck {c : Char} {tokens : List Token} (h : ahead tokens ≠ some (.mark c)) :
    mark c tokens = stuck tokens := by
  cases tokens with
  | nil => rfl
  | cons token rest =>
    have hform : token.isMark c = false := by
      simpa [Token.isMark] using h
    simp [mark, hform]

theorem mark_ok {c : Char} {tokens rest : List Token} {stop : Nat}
    (h : mark c tokens = .ok (stop, rest)) :
    ∃ span, tokens = ⟨.mark c, span⟩ :: rest ∧ stop = span.stop := by
  cases tokens with
  | nil => cases h
  | cons token others =>
    by_cases hform : ahead (token :: others) = some (.mark c)
    · obtain ⟨form, span⟩ := token
      cases hform
      rw [mark_cons] at h
      cases h
      exact ⟨span, rfl, rfl⟩
    · rw [mark_stuck hform] at h
      cases h

/-! ## Operators -/

/-- The mark that touches the token before it. -/
def touching? (first : Token) : List Token → Option Char
  | second@⟨.mark d, _⟩ :: _ => if first.touches second then some d else none
  | _ => none

theorem touching?_eq_some {first : Token} {rest : List Token} {d : Char}
    (h : touching? first rest = some d) :
    ∃ span, rest = ⟨.mark d, span⟩ :: rest.tail ∧ first.span.stop = span.start := by
  unfold touching? at h
  split at h
  · rename_i d' span others
    split at h
    · rename_i htouch
      cases h
      exact ⟨span, rfl, by simpa [Token.touches] using htouch⟩
    · cases h
  · cases h

theorem touching?_ne {first : Token} {rest : List Token} {c : Char}
    (h : ahead rest ≠ some (.mark c)) : touching? first rest ≠ some c := by
  intro hc
  obtain ⟨span, hrest, -⟩ := touching?_eq_some hc
  rw [hrest] at h
  exact h rfl

/-- An operator is read from its tokens. -/
theorem operator?_takes {tokens rest : List Token} {op : BinaryOp}
    (h : operator? tokens = some (op, rest)) :
    ∃ T, tokens = T ++ rest ∧ (Lexeme.operator op).Tokens T := by
  obtain _ | ⟨⟨form, span⟩, others⟩ := tokens
  · cases h
  cases form with
  | word name =>
    simp only [operator?] at h
    split at h
    · rename_i hname
      cases h
      subst hname
      exact ⟨[_], rfl, .membership⟩
    · cases h
  | mark c =>
    have hdouble {op : BinaryOp} {d : Char} (hd : touching? ⟨.mark c, span⟩ others = some d)
        (hne : op ≠ .mem) (hop : op.symbol.toList = [c, d]) :
        ∃ T, ⟨.mark c, span⟩ :: others = T ++ others.tail ∧ (Lexeme.operator op).Tokens T := by
      obtain ⟨span', hothers, htouch⟩ := touching?_eq_some hd
      rw [hothers]
      exact ⟨[_, _], rfl, .double hne hop htouch⟩
    have hsingle {op : BinaryOp} (hop : op.symbol.toList = [c]) :
        ∃ T, ⟨.mark c, span⟩ :: others = T ++ others ∧ (Lexeme.operator op).Tokens T :=
      ⟨[_], rfl, .single hop⟩
    simp only [operator?] at h
    split at h <;> cases h <;>
      first
      | exact hsingle (by decide)
      | exact hdouble (by assumption) (by decide) (by decide)
  | _ => cases h

/-- The tokens of an operator are read as that operator, unless a sign of equality is next that
may make it longer. -/
theorem operator?_read {op : BinaryOp} {T rest : List Token} (h : (Lexeme.operator op).Tokens T)
    (hrest : ahead rest ≠ some (.mark '=')) : operator? (T ++ rest) = some (op, rest) := by
  cases h with
  | membership => rfl
  | @single _ c span hop =>
    have hsecond : touching? ⟨.mark c, span⟩ rest ≠ some '=' := touching?_ne hrest
    cases op <;> simp [BinaryOp.symbol] at hop <;> subst hop <;> try rfl
    all_goals
      simp only [List.cons_append, List.nil_append, operator?]
      split <;> first | exact absurd (by assumption) hsecond | simp_all
  | @double _ c d span span' hne hop htouch =>
    have htouches : Token.touches ⟨.mark c, span⟩ ⟨.mark d, span'⟩ = true := by
      simpa [Token.touches] using htouch
    cases op <;> simp [BinaryOp.symbol] at hop hne <;> obtain ⟨rfl, rfl⟩ := hop <;>
      simp [operator?, htouches]

/-! ## Prefix operators -/

theorem unaryOps_cons (op : UnaryOp) (span : Span) (rest : List Token) :
    unaryOps (⟨.mark op.mark, span⟩ :: rest) = (op :: (unaryOps rest).1, (unaryOps rest).2) := by
  cases op <;> rfl

theorem unaryOps_none {tokens : List Token}
    (h : ∀ op : UnaryOp, ahead tokens ≠ some (.mark op.mark)) :
    unaryOps tokens = ([], tokens) := by
  obtain _ | ⟨⟨form, span⟩, rest⟩ := tokens
  · rfl
  · have hnot : Token.isMark ⟨form, span⟩ '!' = false := by
      simpa [Token.isMark, UnaryOp.mark] using h .not
    have hneg : Token.isMark ⟨form, span⟩ '-' = false := by
      simpa [Token.isMark, UnaryOp.mark] using h .neg
    simp [unaryOps, hnot, hneg]

/-- Prefix operators are read from their marks. -/
theorem unaryOps_takes (tokens : List Token) : ∃ T, tokens = T ++ (unaryOps tokens).2 ∧
    Spells ((unaryOps tokens).1.map fun op => .mark op.mark) T := by
  induction tokens with
  | nil => exact ⟨[], rfl, .nil⟩
  | cons token rest ih =>
    by_cases h : ∃ op : UnaryOp, ahead (token :: rest) = some (.mark op.mark)
    · obtain ⟨op, h⟩ := h
      obtain ⟨form, span⟩ := token
      cases h
      obtain ⟨T, hrest, hT⟩ := ih
      rw [unaryOps_cons]
      exact ⟨⟨.mark op.mark, span⟩ :: T, congrArg _ hrest, .mark hT⟩
    · rw [unaryOps_none (not_exists.mp h)]
      exact ⟨[], rfl, .nil⟩

/-- An operand is read as its prefix operators, what they stand before, and what follows that. -/
theorem operand_eq_ok {sub : Reads Expr} {tokens rest : List Token} {e : Expr} :
    operand sub tokens = .ok (e, rest) ↔ ∃ ops after first middle whole stop,
      unaryOps tokens = (ops, after) ∧ primary sub after = .ok (first, middle) ∧
      postfixes sub first none middle middle = .ok ((whole, stop), rest) ∧
      ops.foldr (applyUnary ⟨startOf tokens, stop.getD (startOf rest)⟩) whole = e := by
  constructor
  · intro h
    simp only [operand, bind_eq_ok] at h
    obtain ⟨⟨first, middle⟩, hfirst, ⟨⟨whole, stop⟩, after⟩, hwhole, h⟩ := h
    cases h
    exact ⟨_, _, first, middle, whole, stop, rfl, hfirst, hwhole, rfl⟩
  · rintro ⟨ops, after, first, middle, whole, stop, hops, hfirst, hwhole, rfl⟩
    simp only [operand, hops, hfirst, hwhole, ok_bind, pure_eq_ok]

/-! ## Operands by their first token -/

section Primary

variable (sub : Reads Expr) (span : Span) (rest : List Token)

theorem primary_bool (b : Bool) :
    primary sub (⟨.word (if b then "true" else "false"), span⟩ :: rest) =
      .ok (.literal span (.bool b), rest) := by
  cases b <;> rfl

theorem primary_null :
    primary sub (⟨.word "null", span⟩ :: rest) = .ok (.literal span .null, rest) := rfl

theorem ne_of_not_keyword {name : String} (h : name ∉ keywords) :
    name ≠ "true" ∧ name ≠ "false" ∧ name ≠ "null" := by
  simpa [keywords] using h

/-- A keyword is a literal. -/
theorem keyword_cases {name : String} (h : name ∈ keywords) :
    name = "null" ∨ ∃ b : Bool, name = if b then "true" else "false" := by
  simp only [keywords, List.mem_cons, List.not_mem_nil, or_false] at h
  rcases h with rfl | rfl | rfl
  · exact .inr ⟨true, rfl⟩
  · exact .inr ⟨false, rfl⟩
  · exact .inl rfl

theorem primary_call {name : String} (h : name ∉ keywords) (span' : Span) :
    primary sub (⟨.word name, span⟩ :: ⟨.mark '(', span'⟩ :: rest) = (do
      let ((args, stop), rest) ← items sub ')' rest rest
      return (.call ⟨span.start, stop⟩ none name args, rest)) := by
  obtain ⟨htrue, hfalse, hnull⟩ := ne_of_not_keyword h
  simp [primary]

theorem primary_name {name : String} (h : name ∉ keywords) {rest : List Token}
    (hrest : ahead rest ≠ some (.mark '(')) :
    primary sub (⟨.word name, span⟩ :: rest) = .ok (.ident span name, rest) := by
  obtain ⟨htrue, hfalse, hnull⟩ := ne_of_not_keyword h
  simp [primary, mark_stuck hrest, stuck]

theorem primary_mark (c : Char) : primary sub (⟨.mark c, span⟩ :: rest) =
    if c = '(' then do
      let (inner, rest) ← sub rest
      let (_, rest) ← mark ')' rest
      return (inner, rest)
    else if c = '[' then do
      let ((elements, stop), rest) ← items sub ']' rest rest
      return (.list ⟨span.start, stop⟩ elements, rest)
    else if c = '\x7b' then do
      let ((entries, stop), rest) ← items (entry sub) '\x7d' rest rest
      return (.dict ⟨span.start, stop⟩ entries, rest)
    else stuck (⟨.mark c, span⟩ :: rest) := by
  by_cases hgroup : c = '('
  · subst hgroup; rfl
  by_cases hlist : c = '['
  · subst hlist; rfl
  by_cases hdict : c = '\x7b'
  · subst hdict; rfl
  simp [primary, hgroup, hlist, hdict]

end Primary

/-! ## How a part starts and ends -/

/-- The marks that open an operand. -/
def brackets : List Char := ['(', '[', '\x7b']

/-- The marks an expression may start with. -/
def openers : List Char := ['(', '[', '\x7b', '!', '-']

/-- The next token does not go on with an operand. -/
def OperandEnds (rest : List Token) : Prop := ∀ c ∈ ['(', '.', '['], ahead rest ≠ some (.mark c)

/-- The next token does not go on with a sequence of operators and operands. -/
def SequenceEnds (rest : List Token) : Prop := OperandEnds rest ∧ operator? rest = none

/-- The next token does not go on with an expression. -/
def ChoiceEnds (rest : List Token) : Prop := SequenceEnds rest ∧ ahead rest ≠ some (.mark '?')

theorem operandEnds_mark {c : Char} {span : Span} {rest : List Token}
    (h : c ∉ ['(', '.', '[']) : OperandEnds (⟨.mark c, span⟩ :: rest) := by
  rintro d hd ⟨⟩
  exact h hd

/-- No operator starts like what follows an operand. -/
theorem operandEnds_operator {op : BinaryOp} {S : List Token} (rest : List Token)
    (h : (Lexeme.operator op).Tokens S) : OperandEnds (S ++ rest) := by
  cases h with
  | membership => exact nofun
  | single hop =>
    refine operandEnds_mark ?_
    cases op <;> simp [BinaryOp.symbol] at hop <;> subst hop <;> decide
  | double hne hop _ =>
    refine operandEnds_mark ?_
    cases op <;> simp [BinaryOp.symbol] at hop hne <;> obtain ⟨rfl, rfl⟩ := hop <;> decide

theorem sequenceEnds_question {span : Span} {rest : List Token} :
    SequenceEnds (⟨.mark '?', span⟩ :: rest) :=
  ⟨operandEnds_mark (by decide), rfl⟩

/-- The marks that end an expression inside another one. -/
def closers : List Char := [')', ']', '\x7d', ',', ':']

theorem choiceEnds_mark {c : Char} {span : Span} {rest : List Token} (h : c ∈ closers) :
    ChoiceEnds (⟨.mark c, span⟩ :: rest) := by
  have hoperator : operator? (⟨.mark c, span⟩ :: rest) = none := by
    simp only [closers, List.mem_cons, List.not_mem_nil, or_false] at h
    rcases h with rfl | rfl | rfl | rfl | rfl <;> rfl
  have hdisjoint : ∀ c ∈ closers, c ∉ ['(', '.', '['] ∧ c ≠ '?' := by simp [closers]
  refine ⟨⟨operandEnds_mark (hdisjoint c h).1, hoperator⟩, ?_⟩
  rintro ⟨⟩
  exact (hdisjoint _ h).2 rfl

theorem choiceEnds_finish {span : Span} : ChoiceEnds [⟨.finish, span⟩] :=
  ⟨⟨nofun, rfl⟩, nofun⟩

/-! ## Lists of parts -/

section Items

variable {α : Type} {item : Reads α} {close : Char} {span : Span} {tokens rest : List Token}
  {token : Token} {budget : List Token} {a : α}

theorem items_close : items item close (token :: budget) (⟨.mark close, span⟩ :: rest) =
    .ok (([], span.stop), rest) := by
  simp [items]

theorem items_last (hopen : ahead tokens ≠ some (.mark close)) (hclose : close ≠ ',')
    (hitem : item tokens = .ok (a, ⟨.mark close, span⟩ :: rest)) :
    items item close (token :: budget) tokens = .ok (([a], span.stop), rest) := by
  have hcomma : mark ',' (⟨.mark close, span⟩ :: rest) = stuck (⟨.mark close, span⟩ :: rest) := by
    refine mark_stuck ?_
    rintro ⟨⟩
    exact hclose rfl
  simp [items, mark_stuck hopen, stuck, hitem, hcomma]

theorem items_more {as : List α} {after : List Token} {stop : Nat}
    (hopen : ahead tokens ≠ some (.mark close))
    (hitem : item tokens = .ok (a, ⟨.mark ',', span⟩ :: after))
    (hothers : items item close budget after = .ok ((as, stop), rest)) :
    items item close (token :: budget) tokens = .ok ((a :: as, stop), rest) := by
  simp [items, mark_stuck hopen, stuck, hitem, hothers]

end Items

/-- The marks that close a list or the arguments of a call. -/
theorem list_close {close : Char} (h : close ∈ [')', ']']) :
    close ∉ openers ∧ close ∈ closers ∧ close ≠ ',' := by
  simp only [List.mem_cons, List.not_mem_nil, or_false] at h
  rcases h with rfl | rfl <;> decide

end JsonTemplate.Reader
