/-
Phrases at other places. If offsets are moved in order, the tokens of a phrase moved are a phrase of
the tree moved; only a tree that spans up to the token after its own needs that token to move along
(`phrased_move`).
-/
import JsonTemplate.Proofs.Phrases
import JsonTemplate.Proofs.Places
import Mathlib.Order.MinMax

namespace JsonTemplate

/-- Both ends of a span moved. -/
def Span.move (f : Nat → Nat) (s : Span) : Span := ⟨f s.start, f s.stop⟩

/-- A token at the span moved. -/
def Token.move (f : Nat → Nat) (token : Token) : Token := { token with span := token.span.move f }

/-- A tree at the spans moved. -/
def Expr.move (f : Nat → Nat) (e : Expr) : Expr := e.respan (Span.move f)

section Move

variable {f : Nat → Nat}

theorem Span.move_merge (hf : Monotone f) (s t : Span) :
    (s.merge t).move f = (s.move f).merge (t.move f) := by
  simp only [merge, move, hf.map_min, hf.map_max]

@[simp] theorem Expr.span_move (e : Expr) : (e.move f).span = e.span.move f := e.span_respan _

/-- The tokens of a lexeme are its tokens elsewhere too. -/
theorem Lexeme.Tokens.move {l : Lexeme} {T : List Token} (h : l.Tokens T) :
    l.Tokens (T.map (Token.move f)) := by
  cases h with
  | word => exact .word
  | number => exact .number
  | string => exact .string
  | mark => exact .mark
  | membership => exact .membership
  | single hop => exact .single hop
  | double hne hop htouch => exact .double hne hop (congrArg f htouch)

theorem Spells.move {L : List Lexeme} {T : List Token} (h : Spells L T) :
    Spells L (T.map (Token.move f)) := by
  induction h with
  | nil => exact .nil
  | cons hl _ ih =>
    rw [List.map_append]
    exact .cons hl.move ih

namespace OpTree

theorem move_toExpr (hf : Monotone f) (tree : OpTree Expr) :
    tree.toExpr.move f = (tree.map (Expr.move f)).toExpr := by
  induction tree with
  | operand e => rfl
  | node left op right ihl ihr =>
    rw [toExpr, map, toExpr, ← ihl, ← ihr, Expr.span_move, Expr.span_move, ← Span.move_merge hf]
    rfl

theorem top?_map {α β : Type} (g : α → β) (tree : OpTree α) : (tree.map g).top? = tree.top? := by
  cases tree <;> rfl

theorem wellBound_map {α β : Type} (g : α → β) (tree : OpTree α) :
    (tree.map g).WellBound ↔ tree.WellBound := by
  induction tree with
  | operand a => exact Iff.rfl
  | node left op right ihl ihr => simp only [map, WellBound, top?_map, ihl, ihr]

end OpTree

namespace Reader

theorem StartsWith.startOf_move {marks : List Char} {T : List Token} (h : StartsWith marks T) :
    startOf (T.map (Token.move f)) = f (startOf T) := by
  cases h with
  | cons _ => rfl

theorem startOf_operator_move {op : BinaryOp} {S : List Token}
    (h : (Lexeme.operator op).Tokens S) : startOf (S.map (Token.move f)) = f (startOf S) := by
  cases h <;> rfl

/-- What an element stands for, moved. -/
def Element.move (f : Nat → Nat) : (el : Element) → el.Result → el.Result
  | item, e => Expr.move f e
  | entry, (key, e) => (key.move f, e.move f)

/-- What a phrase stands for, moved. -/
def Phrase.move (f : Nat → Nat) : (p : Phrase) → p.Result → p.Result
  | choice, e | operand, e | primary, e => Expr.move f e
  | tree, t => OpTree.map (Expr.move f) t
  | chain, (e, stop) => (e.move f, stop.map f)
  | element el, a => el.move f a
  | elements el, as => as.map (el.move f)

/-- What a phrase stands for does not depend on where the next token starts. -/
def Phrase.Ends : (p : Phrase) → p.Result → (next : Nat) → Prop
  | choice, e, next | operand, e, next => (Expr.span e).stop < next
  | tree, t, next => (OpTree.toExpr t).span.stop < next
  | chain, _, _ | primary, _, _ => True
  | element _, _, _ | elements _, _, _ => False

theorem Element.items_move (es : List Expr) :
    es.map (Element.item.move f) = Expr.respanItems (Span.move f) es :=
  (Expr.respanItems_eq _ es).symm

theorem Element.entries_move (entries : List (Expr × Expr)) :
    entries.map (Element.entry.move f) = Expr.respanEntries (Span.move f) entries :=
  (Expr.respanEntries_eq _ entries).symm

/-- The tokens of a phrase, moved, are a phrase of what it stands for, moved. -/
def Moves (f : Nat → Nat) (p : Phrase) (T : List Token) (next : Nat) (r : p.Result) : Prop :=
  ∀ next', next' = f next ∨ p.Ends r next →
    Phrased p (T.map (Token.move f)) next' (p.move f r)

section Rules

variable {T U V S O : List Token} {next : Nat} {e i key yes no : Expr} {args es : List Expr}
  {l r t : OpTree Expr} {stop : Option Nat} {dot word left right : Span} {name : String}
  {el : Element} {a : el.Result} {as : List el.Result}

/-- Before a token that moves along. -/
theorem Moves.before {p : Phrase} {x : p.Result} {s : Span} (h : Moves f p T s.start x) :
    Phrased p (T.map (Token.move f)) (s.move f).start (p.move f x) :=
  h _ (.inl rfl)

theorem moves_node {op : BinaryOp} (hop : (Lexeme.operator op).Tokens S)
    (ihl : Moves f .tree T (startOf S) l) (ihr : Moves f .tree U next r) :
    Moves f .tree (T ++ (S ++ U)) next (.node l op r) := by
  intro next' hnext
  have hr : next' = f next ∨ r.toExpr.span.stop < next :=
    hnext.imp_right (Nat.lt_of_le_of_lt (Nat.le_max_right _ _))
  have hmoved :=
    Phrased.node (ihl _ (.inl (startOf_operator_move hop))) hop.move (ihr next' hr)
  simp only [List.map_append]
  exact hmoved

theorem moves_operand {ops : List UnaryOp} (hO : Spells (prefixed ops) O)
    (h : Phrased .chain T next (e, stop)) (ih : Moves f .chain T next (e, stop)) :
    Moves f .operand (O ++ T) next
      (ops.foldr (applyUnary ⟨startOf (O ++ T), stop.getD next⟩) e) := by
  intro next' hnext
  have hmoved := Phrased.operand (hO.move (f := f)) (ih next' (.inr trivial))
  rw [← List.map_append, (Phrased.operand hO h).starts.startOf_move] at hmoved
  have hsame : ops.foldr (applyUnary ⟨f (startOf (O ++ T)), (stop.map f).getD next'⟩) (e.move f) =
      (ops.foldr (applyUnary ⟨startOf (O ++ T), stop.getD next⟩) e).move f := by
    obtain _ | ⟨op, ops⟩ := ops
    · rfl
    · -- Operators before an operand span up to its end, or else to the next token.
      have hstop : (stop.map f).getD next' = f (stop.getD next) := by
        cases stop with
        | some n => rfl
        | none =>
          refine hnext.resolve_right fun hlt => ?_
          rw [Phrase.Ends, List.foldr_cons, span_applyUnary] at hlt
          exact Nat.lt_irrefl _ hlt
      rw [hstop]
      exact (Expr.respan_foldr_applyUnary (Span.move f) ⟨startOf (O ++ T), stop.getD next⟩
        (op :: ops) e).symm
  rw [Phrase.move, ← hsame]
  exact hmoved

theorem moves_call (hname : name ∉ keywords) (ih : Moves f (.elements .item) U right.start args) :
    Moves f .primary (⟨.word name, word⟩ :: ⟨.mark '(', left⟩ :: (U ++ [⟨.mark ')', right⟩])) next
      (.call ⟨word.start, right.stop⟩ none name args) := by
  intro next' _
  have hmoved := @Phrased.call _ next' (word.move f) (left.move f) _ _ _ hname ih.before
  rw [Phrase.move, Element.items_move] at hmoved
  simp only [List.map_append, List.map_cons]
  exact hmoved

theorem moves_group (ih : Moves f .choice U right.start e) :
    Moves f .primary (⟨.mark '(', left⟩ :: (U ++ [⟨.mark ')', right⟩])) next e := by
  intro next' _
  have hmoved := @Phrased.group _ next' (left.move f) _ _ ih.before
  simp only [List.map_append, List.map_cons]
  exact hmoved

theorem moves_list (ih : Moves f (.elements .item) U right.start es) :
    Moves f .primary (⟨.mark '[', left⟩ :: (U ++ [⟨.mark ']', right⟩])) next
      (.list ⟨left.start, right.stop⟩ es) := by
  intro next' _
  have hmoved := @Phrased.list _ next' (left.move f) _ _ ih.before
  rw [Phrase.move, Element.items_move] at hmoved
  simp only [List.map_append, List.map_cons]
  exact hmoved

theorem moves_dict {entries : List (Expr × Expr)}
    (ih : Moves f (.elements .entry) U right.start entries) :
    Moves f .primary (⟨.mark '\x7b', left⟩ :: (U ++ [⟨.mark '\x7d', right⟩])) next
      (.dict ⟨left.start, right.stop⟩ entries) := by
  intro next' _
  have hmoved := @Phrased.dict _ next' (left.move f) _ _ ih.before
  rw [Phrase.move, Element.entries_move] at hmoved
  simp only [List.map_append, List.map_cons]
  exact hmoved

theorem moves_entry {colon : Span} (ihkey : Moves f .choice T colon.start key)
    (ih : Moves f .choice U next e) :
    Moves f (.element .entry) (T ++ ⟨.mark ':', colon⟩ :: U) next (key, e) := by
  intro next' hnext
  have hmoved := Phrased.entry ihkey.before (ih next' (hnext.imp_right False.elim))
  simp only [List.map_append, List.map_cons]
  exact hmoved

theorem moves_more {comma : Span} (ih : Moves f (.element el) T comma.start a)
    (ihothers : Moves f (.elements el) U next as) :
    Moves f (.elements el) (T ++ ⟨.mark ',', comma⟩ :: U) next (a :: as) := by
  intro next' hnext
  have hmoved := Phrased.more ih.before (ihothers next' (hnext.imp_right False.elim))
  simp only [List.map_append, List.map_cons]
  exact hmoved

variable (hf : Monotone f)
include hf

theorem moves_plain (hbound : t.WellBound) (ih : Moves f .tree T next t) :
    Moves f .choice T next t.toExpr := by
  intro next' hnext
  have hmoved := Phrased.plain (ih next' hnext) ((OpTree.wellBound_map _ _).mpr hbound)
  rwa [Phrase.move, ← OpTree.move_toExpr hf] at hmoved

theorem moves_choice {question colon : Span} (h : Phrased .tree T question.start t)
    (hbound : t.WellBound) (ih : Moves f .tree T question.start t)
    (ihyes : Moves f .choice U colon.start yes) (ihno : Moves f .choice V next no) :
    Moves f .choice (T ++ ⟨.mark '?', question⟩ :: (U ++ ⟨.mark ':', colon⟩ :: V)) next
      (.conditional ⟨startOf T, next⟩ t.toExpr yes no) := by
  intro next' hnext
  obtain rfl : next' = f next := hnext.resolve_right (Nat.lt_irrefl _)
  have hmoved := Phrased.choice ih.before ((OpTree.wellBound_map _ _).mpr hbound) ihyes.before
    (ihno _ (.inl rfl))
  simp only [Phrase.move, ← OpTree.move_toExpr hf, h.starts.startOf_move] at hmoved
  simp only [List.map_append, List.map_cons]
  exact hmoved

theorem moves_field (ih : Moves f .chain T dot.start (e, stop)) :
    Moves f .chain (T ++ [⟨.mark '.', dot⟩, ⟨.word name, word⟩]) next
      (.select (e.span.merge word) e name, some word.stop) := by
  intro next' _
  have hmoved := @Phrased.field _ next' _ _ (word.move f) name _ ih.before
  rw [Expr.span_move, ← Span.move_merge hf] at hmoved
  simp only [List.map_append]
  exact hmoved

theorem moves_method (ih : Moves f .chain T dot.start (e, stop))
    (ihargs : Moves f (.elements .item) U right.start args) :
    Moves f .chain (T ++ ⟨.mark '.', dot⟩ :: ⟨.word name, word⟩ :: ⟨.mark '(', left⟩ ::
        (U ++ [⟨.mark ')', right⟩])) next
      (.call (e.span.merge ⟨word.start, right.stop⟩) (some e) name args, some right.stop) := by
  intro next' _
  have hmoved := @Phrased.method _ _ next' _ _ (word.move f) (left.move f) _ name _ _ ih.before
    ihargs.before
  have hspan : (e.span.merge ⟨word.start, right.stop⟩).move f =
      (e.span.move f).merge ⟨(word.move f).start, (right.move f).stop⟩ := Span.move_merge hf _ _
  rw [Expr.span_move, ← hspan, Phrase.move, Element.items_move] at hmoved
  simp only [List.map_append, List.map_cons]
  exact hmoved

theorem moves_index (ih : Moves f .chain T left.start (e, stop))
    (ihi : Moves f .choice U right.start i) :
    Moves f .chain (T ++ ⟨.mark '[', left⟩ :: (U ++ [⟨.mark ']', right⟩])) next
      (.index (e.span.merge ⟨left.start, right.stop⟩) e i, some right.stop) := by
  intro next' _
  have hmoved := @Phrased.index _ _ next' _ _ _ _ _ ih.before ihi.before
  have hspan : (e.span.merge ⟨left.start, right.stop⟩).move f =
      (e.span.move f).merge ⟨(left.move f).start, (right.move f).stop⟩ := Span.move_merge hf _ _
  rw [Expr.span_move, ← hspan] at hmoved
  simp only [List.map_append, List.map_cons]
  exact hmoved

end Rules

/-- **The tokens of a phrase moved are a phrase of what it stands for, moved.** -/
theorem phrased_move (hf : Monotone f) {p : Phrase} {T : List Token} {next : Nat} {r : p.Result}
    (h : Phrased p T next r) : Moves f p T next r := by
  induction h with
  | plain _ hbound ih => exact moves_plain hf hbound ih
  | choice h hbound _ _ ih ihyes ihno => exact moves_choice hf h hbound ih ihyes ihno
  | leaf _ ih => exact fun next' hnext => .leaf (ih next' hnext)
  | node _ hop _ ihl ihr => exact moves_node hop ihl ihr
  | operand hO h ih => exact moves_operand hO h ih
  | first _ ih => exact fun next' _ => .first (ih next' (.inr trivial))
  | field _ ih => exact moves_field hf ih
  | method _ _ ih ihargs => exact moves_method hf ih ihargs
  | index _ _ ih ihi => exact moves_index hf ih ihi
  | constant h => exact fun _ _ => .constant h
  | name h => exact fun _ _ => .name h
  | call hname _ ih => exact moves_call hname ih
  | group _ ih => exact moves_group ih
  | list _ ih => exact moves_list ih
  | dict _ ih => exact moves_dict ih
  | item _ ih => exact fun next' hnext => .item (ih next' (hnext.imp_right False.elim))
  | entry _ _ ihkey ih => exact moves_entry ihkey ih
  | none => exact fun _ _ => .none
  | last _ ih => exact fun next' hnext => .last (ih next' (hnext.imp_right False.elim))
  | more _ _ ih ihothers => exact moves_more ih ihothers

end Reader

end Move

end JsonTemplate
