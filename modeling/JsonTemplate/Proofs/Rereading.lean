/-
All that is phrased is read. Each rule for phrases keeps that its tokens are read as the tree it
gives them, with its spans, before any tokens that cannot go on with it and start where they have to
(`Reread`, `phrased_reread`).
-/
import JsonTemplate.Proofs.Phrases

namespace JsonTemplate.Reader

/-- How elements are read. -/
def Element.reader (sub : Reads Expr) : (el : Element) → Reads el.Result
  | item => sub
  | entry => Reader.entry sub

/-- The marks that close a row of elements. -/
def Element.closers : Element → List Char
  | item => [')', ']']
  | entry => ['\x7d']

theorem Element.closer {el : Element} {close : Char} (h : close ∈ el.closers) :
    close ∉ openers ∧ close ∈ Reader.closers ∧ close ≠ ',' := by
  cases el with
  | item => exact list_close h
  | entry =>
    rw [List.mem_singleton.mp h]
    decide

/-- Tokens of a phrase are read to their end as the tree they stand for. Of operators and operands
the first operand is read on its own and the others are left for later, and so it is with a chain
and what follows its first part. -/
def Reread : (p : Phrase) → List Token → Nat → p.Result → Prop
  | .choice, T, next, e => ∀ rest bound, startOf rest = next → ChoiceEnds rest →
      T.length < bound → expression bound (T ++ rest) = .ok (e, rest)
  | .tree, T, next, t => ∃ first steps later, t.items = OpTree.listed first steps ∧
      later.length ≤ T.length ∧ ∀ rest bound, startOf rest = next → OperandEnds rest →
        T.length ≤ bound →
        operand (expression bound) (T ++ rest) = .ok (first, later ++ rest) ∧
        ∀ budget : List Token, later.length ≤ budget.length → ∃ budget',
          budget.length ≤ budget'.length + later.length ∧ ∀ others after,
            operations (expression bound) budget' rest = .ok (others, after) →
              operations (expression bound) budget (later ++ rest) = .ok (steps ++ others, after)
  | .operand, T, next, e => ∀ rest bound, startOf rest = next → OperandEnds rest →
      T.length ≤ bound → operand (expression bound) (T ++ rest) = .ok (e, rest)
  | .chain, T, _, (e, stop) => ∃ first later, later.length ≤ T.length ∧
      ∀ rest bound, ahead rest ≠ some (.mark '(') → T.length ≤ bound →
        primary (expression bound) (T ++ rest) = .ok (first, later ++ rest) ∧
        ∀ budget : List Token, later.length ≤ budget.length → ∃ budget',
          budget.length ≤ budget'.length + later.length ∧
            postfixes (expression bound) first none budget (later ++ rest) =
              postfixes (expression bound) e stop budget' rest
  | .primary, T, _, e => ∀ rest bound, ahead rest ≠ some (.mark '(') → T.length ≤ bound →
      primary (expression bound) (T ++ rest) = .ok (e, rest)
  | .element el, T, next, a => ∀ rest bound, startOf rest = next → ChoiceEnds rest →
      T.length < bound → el.reader (expression bound) (T ++ rest) = .ok (a, rest)
  | .elements el, T, next, as => ∀ rest bound (budget : List Token) close span,
      close ∈ el.closers → span.start = next → T.length < bound → T.length < budget.length →
      items (el.reader (expression bound)) close budget (T ++ ⟨.mark close, span⟩ :: rest) =
        .ok ((as, span.stop), rest)

section Rules

variable {T U V O S : List Token} {next : Nat} {stop : Option Nat} {e key yes no : Expr}
  {l r t : OpTree Expr} {dot word left right : Span} {name : String}

/-! ### Choices and trees of operators -/

/-- A tree of operators before something that does not go on with it. -/
theorem reread_sequence (h : Reread .tree T next t) (hbound : t.WellBound) (rest : List Token)
    (bound : Nat) (hnext : startOf rest = next) (hrest : SequenceEnds rest)
    (hlength : T.length ≤ bound) : sequence (expression bound) (T ++ rest) =
      .ok (t.toExpr, rest) := by
  obtain ⟨first, steps, later, hitems, hlater, hread⟩ := h
  obtain ⟨hfirst, hsteps⟩ := hread rest bound hnext hrest.1 hlength
  obtain ⟨budget, -, hoperations⟩ := hsteps (later ++ rest) (by simp)
  have hnone : operations (expression bound) budget rest = .ok ([], rest) := by
    cases budget with
    | nil => rfl
    | cons _ budget => simp [operations, hrest.2]
  have htree : OpTree.ofSequence first steps = t :=
    OpTree.eq_of_items (OpTree.ofSequence_wellBound first steps) hbound
      ((OpTree.items_ofSequence first steps).trans hitems.symm)
  simp [sequence, hfirst, hoperations [] rest hnone, htree]

theorem reread_plain (h : Reread .tree T next t) (hbound : t.WellBound) :
    Reread .choice T next t.toExpr := by
  intro rest bound hnext hrest hlength
  obtain _ | bound := bound
  · exact absurd hlength (Nat.not_lt_zero _)
  have hsequence := reread_sequence h hbound rest bound hnext hrest.1 (Nat.le_of_lt_succ hlength)
  simp [expression, choice, hsequence, mark_stuck hrest.2, stuck]

theorem reread_choice {question colon : Span} (hopen : StartsWith openers T)
    (h : Reread .tree T question.start t) (hbound : t.WellBound)
    (hyes : Reread .choice U colon.start yes) (hno : Reread .choice V next no) :
    Reread .choice (T ++ ⟨.mark '?', question⟩ :: (U ++ ⟨.mark ':', colon⟩ :: V)) next
      (.conditional ⟨startOf T, next⟩ t.toExpr yes no) := by
  intro rest bound hnext hrest hlength
  obtain _ | bound := bound
  · exact absurd hlength (Nat.not_lt_zero _)
  simp only [List.length_append, List.length_cons] at hlength
  have hcondition := reread_sequence h hbound
    (⟨.mark '?', question⟩ :: (U ++ ⟨.mark ':', colon⟩ :: (V ++ rest))) bound rfl
    sequenceEnds_question (by omega)
  have hyes := hyes (⟨.mark ':', colon⟩ :: (V ++ rest)) bound rfl (choiceEnds_mark (by decide))
    (by omega)
  have hno := hno rest bound hnext hrest (by omega)
  simp [expression, choice, hcondition, hyes, hno, hopen.startOf_append, hnext]

theorem reread_leaf (h : Reread .operand T next e) : Reread .tree T next (.operand e) := by
  refine ⟨e, [], [], rfl, Nat.zero_le _, fun rest bound hnext hrest hlength => ?_⟩
  exact ⟨h rest bound hnext hrest hlength, fun budget _ => ⟨budget, Nat.le_refl _, fun _ _ h => h⟩⟩

theorem reread_node {op : BinaryOp} (hl : Reread .tree T (startOf S) l)
    (hop : (Lexeme.operator op).Tokens S) (hopen : StartsWith openers U)
    (hr : Reread .tree U next r) : Reread .tree (T ++ (S ++ U)) next (.node l op r) := by
  obtain ⟨first, steps, later, hitems, hlater, hl⟩ := hl
  obtain ⟨first', steps', later', hitems', hlater', hr⟩ := hr
  have hS := length_operator hop
  refine ⟨first, steps ++ (op, first') :: steps', later ++ (S ++ U), ?_, ?_, ?_⟩
  · simp [OpTree.items, OpTree.listed, hitems, hitems']
  · simp only [List.length_append]
    omega
  intro rest bound hnext hrest hlength
  simp only [List.length_append] at hlength
  obtain ⟨hfirst, hsteps⟩ := hl (S ++ (U ++ rest)) bound (startOf_operator hop _)
    (operandEnds_operator _ hop) (by omega)
  obtain ⟨hfirst', hsteps'⟩ := hr rest bound hnext hrest (by omega)
  refine ⟨by simpa using hfirst, fun budget hbudget => ?_⟩
  simp only [List.length_append] at hbudget ⊢
  -- The operators of the left side leave some of the budget for this one and those of the right.
  obtain ⟨_ | ⟨token, between⟩, hbetween, hleft⟩ := hsteps budget (by omega)
  · simp only [List.length_nil] at hbetween
    omega
  rw [List.length_cons] at hbetween
  obtain ⟨budget', hbudget', hright⟩ := hsteps' between (by omega)
  refine ⟨budget', by omega, fun others after h => ?_⟩
  have hread : operator? (S ++ (U ++ rest)) = some (op, U ++ rest) :=
    operator?_read hop (hopen.ahead_ne rest (by decide))
  have hmiddle : operations (expression bound) (token :: between) (S ++ (U ++ rest)) =
      .ok ((op, first') :: (steps' ++ others), after) := by
    simp [operations, hread, hfirst', hright others after h]
  simpa using hleft _ _ hmiddle

/-! ### Operands -/

theorem unaryOps_read {ops : List UnaryOp} {rest : List Token} (hO : Spells (prefixed ops) O)
    (hrest : StartsWith brackets rest) : unaryOps (O ++ rest) = (ops, rest) := by
  induction ops generalizing O with
  | nil =>
    rw [hO.of_nil]
    refine unaryOps_none fun op => ?_
    have hne := hrest.ahead_ne (c := op.mark) [] (by cases op <;> decide)
    rwa [List.append_nil] at hne
  | cons op ops ih =>
    obtain ⟨span, U, rfl, hU⟩ := hO.of_mark
    rw [List.cons_append, unaryOps_cons, ih hU]

theorem reread_operand {ops : List UnaryOp} (hO : Spells (prefixed ops) O)
    (hopen : StartsWith brackets T) (h : Reread .chain T next (e, stop)) :
    Reread .operand (O ++ T) next
      (ops.foldr (applyUnary ⟨startOf (O ++ T), stop.getD next⟩) e) := by
  obtain ⟨first, later, hlater, hread⟩ := h
  intro rest bound hnext hrest hlength
  rw [List.length_append] at hlength
  obtain ⟨hfirst, hlater⟩ := hread rest bound (hrest '(' (by decide)) (by omega)
  obtain ⟨budget, -, hwhole⟩ := hlater (later ++ rest) (by simp)
  have hend : postfixes (expression bound) e stop budget rest = .ok ((e, stop), rest) := by
    cases budget with
    | nil => rfl
    | cons _ budget =>
      have hdot : mark '.' rest = stuck rest := mark_stuck (hrest '.' (by decide))
      have hindex : mark '[' rest = stuck rest := mark_stuck (hrest '[' (by decide))
      simp [postfixes, hdot, hindex, stuck]
  have hstart : startOf (O ++ T ++ rest) = startOf (O ++ T) := by
    cases O with
    | nil => exact hopen.startOf_append rest
    | cons _ _ => rfl
  refine operand_eq_ok.mpr ⟨ops, T ++ rest, first, _, e, stop, ?_, hfirst, hwhole.trans hend, ?_⟩
  · rw [List.append_assoc, unaryOps_read hO (hopen.append rest)]
  · rw [hstart, hnext]

theorem reread_first (h : Reread .primary T next e) : Reread .chain T next (e, none) := by
  refine ⟨e, [], Nat.zero_le _, fun rest bound hrest hlength => ?_⟩
  exact ⟨h rest bound hrest hlength, fun budget _ => ⟨budget, Nat.le_refl _, rfl⟩⟩

/-- A chain with more put after it, if that is what the reader of what follows an operand does. -/
theorem reread_more {next' : Nat} {token : Token} {e' : Expr} {stop' : Option Nat}
    (h : Reread .chain T next (e, stop)) (htoken : token.form ≠ .mark '(')
    (hmore : ∀ rest bound (unused : Token) (budget : List Token), ahead rest ≠ some (.mark '(') →
      U.length < bound →
      postfixes (expression bound) e stop (unused :: budget) (token :: (U ++ rest)) =
        postfixes (expression bound) e' stop' budget rest) :
    Reread .chain (T ++ token :: U) next' (e', stop') := by
  obtain ⟨first, later, hlater, hread⟩ := h
  refine ⟨first, later ++ token :: U, ?_, fun rest bound hrest hlength => ?_⟩
  · simp only [List.length_append, List.length_cons]
    omega
  simp only [List.length_append, List.length_cons] at hlength ⊢
  obtain ⟨hfirst, hpostfixes⟩ := hread (token :: (U ++ rest)) bound
    (by simpa using htoken) (by omega)
  refine ⟨by simpa using hfirst, fun budget hbudget => ?_⟩
  obtain ⟨_ | ⟨unused, budget'⟩, hbudget', hsame⟩ := hpostfixes budget (by omega)
  · simp only [List.length_nil] at hbudget'
    omega
  rw [List.length_cons] at hbudget'
  refine ⟨budget', by omega, ?_⟩
  rw [← hmore rest bound unused budget' hrest (by omega), ← hsame]
  simp

theorem reread_field (h : Reread .chain T dot.start (e, stop)) :
    Reread .chain (T ++ [⟨.mark '.', dot⟩, ⟨.word name, word⟩]) next
      (.select (e.span.merge word) e name, some word.stop) := by
  refine reread_more h nofun fun rest bound unused budget hrest _ => ?_
  simp [postfixes, member, mark_stuck hrest, stuck]

theorem reread_method {args : List Expr} (h : Reread .chain T dot.start (e, stop))
    (hargs : Reread (.elements .item) U right.start args) :
    Reread .chain (T ++ ⟨.mark '.', dot⟩ :: ⟨.word name, word⟩ :: ⟨.mark '(', left⟩ ::
      (U ++ [⟨.mark ')', right⟩])) next
      (.call (e.span.merge ⟨word.start, right.stop⟩) (some e) name args, some right.stop) := by
  refine reread_more h nofun fun rest bound unused budget _ hlength => ?_
  simp only [List.length_append, List.length_cons] at hlength
  have hargs := hargs rest bound (U ++ ⟨.mark ')', right⟩ :: rest) ')' right (by decide) rfl
    (by omega) (by simp)
  rw [Element.reader] at hargs
  simp [postfixes, member, hargs]

theorem reread_index {i : Expr} (h : Reread .chain T left.start (e, stop))
    (hi : Reread .choice U right.start i) :
    Reread .chain (T ++ ⟨.mark '[', left⟩ :: (U ++ [⟨.mark ']', right⟩])) next
      (.index (e.span.merge ⟨left.start, right.stop⟩) e i, some right.stop) := by
  refine reread_more h nofun fun rest bound unused budget _ hlength => ?_
  simp only [List.length_append, List.length_cons] at hlength
  have hi := hi (⟨.mark ']', right⟩ :: rest) bound rfl (choiceEnds_mark (by decide)) (by omega)
  have hdot : mark '.' (⟨.mark '[', left⟩ :: (U ++ ⟨.mark ']', right⟩ :: rest)) =
      stuck (⟨.mark '[', left⟩ :: (U ++ ⟨.mark ']', right⟩ :: rest)) := mark_stuck nofun
  simp [postfixes, hdot, stuck, startOf, hi]

/-! ### Operands without operators before them or parts after them -/

theorem reread_constant {form : Token.Form} {v : Literal} {span : Span}
    (h : constant? form = some v) :
    Reread .primary [⟨form, span⟩] next (.literal span v) := by
  intro rest bound hrest hlength
  unfold constant? at h
  split at h <;> cases h <;> rfl

theorem reread_name (h : name ∉ keywords) :
    Reread .primary [⟨.word name, word⟩] next (.ident word name) :=
  fun _ _ hrest _ => primary_name _ word h hrest

theorem reread_call {args : List Expr} (h : name ∉ keywords)
    (hargs : Reread (.elements .item) U right.start args) :
    Reread .primary (⟨.word name, word⟩ :: ⟨.mark '(', left⟩ :: (U ++ [⟨.mark ')', right⟩])) next
      (.call ⟨word.start, right.stop⟩ none name args) := by
  intro rest bound hrest hlength
  simp only [List.length_cons, List.length_append] at hlength
  have hargs := hargs rest bound (U ++ ⟨.mark ')', right⟩ :: rest) ')' right (by decide) rfl
    (by omega) (by simp)
  rw [Element.reader] at hargs
  simp [primary_call _ word _ h, hargs]

theorem reread_group (h : Reread .choice U right.start e) :
    Reread .primary (⟨.mark '(', left⟩ :: (U ++ [⟨.mark ')', right⟩])) next e := by
  intro rest bound hrest hlength
  simp only [List.length_cons, List.length_append] at hlength
  have h := h (⟨.mark ')', right⟩ :: rest) bound rfl (choiceEnds_mark (by decide)) (by omega)
  simp [primary_mark, h]

theorem reread_list {es : List Expr} (h : Reread (.elements .item) U right.start es) :
    Reread .primary (⟨.mark '[', left⟩ :: (U ++ [⟨.mark ']', right⟩])) next
      (.list ⟨left.start, right.stop⟩ es) := by
  intro rest bound hrest hlength
  simp only [List.length_cons, List.length_append] at hlength
  have h := h rest bound (U ++ ⟨.mark ']', right⟩ :: rest) ']' right (by decide) rfl (by omega)
    (by simp)
  rw [Element.reader] at h
  simp [primary_mark, h]

theorem reread_dict {entries : List (Expr × Expr)}
    (h : Reread (.elements .entry) U right.start entries) :
    Reread .primary (⟨.mark '\x7b', left⟩ :: (U ++ [⟨.mark '\x7d', right⟩])) next
      (.dict ⟨left.start, right.stop⟩ entries) := by
  intro rest bound hrest hlength
  simp only [List.length_cons, List.length_append] at hlength
  have h := h rest bound (U ++ ⟨.mark '\x7d', right⟩ :: rest) '\x7d' right (by decide) rfl
    (by omega) (by simp)
  rw [Element.reader] at h
  simp [primary_mark, h]

/-! ### Elements -/

theorem reread_entry {colon : Span} (hkey : Reread .choice T colon.start key)
    (h : Reread .choice U next e) :
    Reread (.element .entry) (T ++ ⟨.mark ':', colon⟩ :: U) next (key, e) := by
  intro rest bound hnext hrest hlength
  simp only [List.length_append, List.length_cons] at hlength
  have hkey := hkey (⟨.mark ':', colon⟩ :: (U ++ rest)) bound rfl (choiceEnds_mark (by decide))
    (by omega)
  have h := h rest bound hnext hrest (by omega)
  simp [Element.reader, entry, hkey, h]

variable {el : Element} {a : el.Result} {as : List el.Result}

theorem reread_none : Reread (.elements el) [] next [] := by
  intro rest bound budget close span hclose hnext hlength hbudget
  obtain _ | ⟨_, budget⟩ := budget
  · exact absurd hbudget (Nat.not_lt_zero _)
  · exact items_close

theorem reread_last (hopen : StartsWith openers T) (h : Reread (.element el) T next a) :
    Reread (.elements el) T next [a] := by
  intro rest bound budget close span hclose hnext hlength hbudget
  obtain ⟨hstart, hstop, hcomma⟩ := Element.closer hclose
  obtain _ | ⟨_, budget⟩ := budget
  · exact absurd hbudget (Nat.not_lt_zero _)
  exact items_last (hopen.ahead_ne _ hstart) hcomma
    (h (⟨.mark close, span⟩ :: rest) bound hnext (choiceEnds_mark hstop) hlength)

theorem reread_elements {comma : Span} (hopen : StartsWith openers T)
    (h : Reread (.element el) T comma.start a) (hothers : Reread (.elements el) U next as) :
    Reread (.elements el) (T ++ ⟨.mark ',', comma⟩ :: U) next (a :: as) := by
  intro rest bound budget close span hclose hnext hlength hbudget
  simp only [List.length_append, List.length_cons] at hlength hbudget
  obtain _ | ⟨_, budget⟩ := budget
  · exact absurd hbudget (Nat.not_lt_zero _)
  rw [List.length_cons] at hbudget
  rw [List.append_assoc]
  exact items_more (hopen.ahead_ne _ (Element.closer hclose).1)
    (h (⟨.mark ',', comma⟩ :: (U ++ ⟨.mark close, span⟩ :: rest)) bound rfl
      (choiceEnds_mark (by decide)) (by omega))
    (hothers rest bound budget close span hclose hnext (by omega) (by omega))

end Rules

/-- **What is phrased is read as the tree it stands for, spans included.** -/
theorem phrased_reread {p : Phrase} {T : List Token} {next : Nat} {r : p.Result}
    (h : Phrased p T next r) : Reread p T next r := by
  induction h with
  | plain _ hbound ih => exact reread_plain ih hbound
  | choice h hbound _ _ ih ihyes ihno => exact reread_choice h.starts ih hbound ihyes ihno
  | leaf _ ih => exact reread_leaf ih
  | node _ hop hr ihl ihr => exact reread_node ihl hop hr.starts ihr
  | operand hO h ih => exact reread_operand hO h.starts ih
  | first _ ih => exact reread_first ih
  | field _ ih => exact reread_field ih
  | method _ _ ih ihargs => exact reread_method ih ihargs
  | index _ _ ih ihindex => exact reread_index ih ihindex
  | constant h => exact reread_constant h
  | name h => exact reread_name h
  | call h _ ih => exact reread_call h ih
  | group _ ih => exact reread_group ih
  | list _ ih => exact reread_list ih
  | dict _ ih => exact reread_dict ih
  | item _ ih => exact ih
  | entry _ _ ihkey ih => exact reread_entry ihkey ih
  | none => exact reread_none
  | last h ih => exact reread_last h.starts ih
  | more h _ ih ihothers => exact reread_elements h.starts ih ihothers

/-- Tokens of an expression are read as a whole text. -/
theorem readAll_phrased {T : List Token} {span : Span} {e : Expr}
    (h : Phrased .choice T span.start e) : readAll (T ++ [⟨.finish, span⟩]) = .ok e := by
  have hlength : T.length < (T ++ [(⟨.finish, span⟩ : Token)]).length + 1 := by
    rw [List.length_append]
    omega
  have hread := phrased_reread h [⟨.finish, span⟩] _ rfl choiceEnds_finish hlength
  simp only [readAll, hread, ok_bind, pure_eq_ok]

/-- **The tokens of a text are read as a tree exactly if those before the last one are a phrase of
it.** -/
theorem readAll_eq_ok {tokens : List Token} {e : Expr} : readAll tokens = .ok e ↔
    ∃ T span, tokens = T ++ [⟨.finish, span⟩] ∧ Phrased .choice T span.start e := by
  constructor
  · intro h
    obtain ⟨⟨e', rest⟩, hread, h⟩ := bind_eq_ok.mp h
    split at h
    · rename_i span heq
      cases h
      cases heq
      obtain ⟨T, htokens, hT⟩ := expression_phrased _ hread
      exact ⟨T, span, htokens, hT⟩
    · cases h
  · rintro ⟨T, span, rfl, hT⟩
    exact readAll_phrased hT

end JsonTemplate.Reader
