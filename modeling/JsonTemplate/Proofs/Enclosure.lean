/-
How the places of a tree enclose one another. In the tree of an accepted text every node spans some
characters, the parts of a node stand inside its span, and each of them stands after those before
it (`spans_form_ordered_cover`). Each rule for phrases keeps this: from its first token to the one
after it, what it stands for is in a row (`phrased_rows`), and expanding calls keeps the row
(`kept_expandMacros`).
-/
import JsonTemplate.Proofs.Compilation
import JsonTemplate.Proofs.Layout
import JsonTemplate.Proofs.Rereading

namespace JsonTemplate

/-! ## Spans in order -/

namespace Span

/-- The spans stand between two places, each after those before it. -/
inductive InOrder : Nat → Nat → List Span → Prop
  | nil {lower upper} : lower ≤ upper → InOrder lower upper []
  | cons {lower upper s rest} : lower ≤ s.start → s.start ≤ s.stop → InOrder s.stop upper rest →
      InOrder lower upper (s :: rest)

namespace InOrder

variable {lower upper : Nat} {spans : List Span}

theorem le (h : InOrder lower upper spans) : lower ≤ upper := by
  induction h with
  | nil hle => exact hle
  | cons hlower hspan _ ih => exact hlower.trans (hspan.trans ih)

theorem mono {lower' upper' : Nat} (h : InOrder lower upper spans) (hlower : lower' ≤ lower)
    (hupper : upper ≤ upper') : InOrder lower' upper' spans := by
  induction h generalizing lower' with
  | nil hle => exact .nil (hlower.trans (hle.trans hupper))
  | cons hstart hspan _ ih => exact .cons (hlower.trans hstart) hspan (ih le_rfl hupper)

theorem sublist {fewer : List Span} (h : InOrder lower upper spans) (hsub : fewer.Sublist spans) :
    InOrder lower upper fewer := by
  induction hsub generalizing lower with
  | slnil => exact h
  | cons s _ ih =>
    obtain _ | ⟨hstart, hspan, hrest⟩ := h
    exact ih (hrest.mono (hstart.trans hspan) le_rfl)
  | cons_cons s _ ih =>
    obtain _ | ⟨hstart, hspan, hrest⟩ := h
    exact .cons hstart hspan (ih hrest)

theorem between (h : InOrder lower upper spans) :
    ∀ s ∈ spans, lower ≤ s.start ∧ s.stop ≤ upper := by
  induction h with
  | nil _ => exact List.forall_mem_nil _
  | cons hstart hspan hrest ih =>
    refine List.forall_mem_cons.mpr ⟨⟨hstart, hrest.le⟩, fun s hs => ?_⟩
    obtain ⟨hs, hs'⟩ := ih s hs
    exact ⟨hstart.trans (hspan.trans hs), hs'⟩

theorem pairwise (h : InOrder lower upper spans) :
    spans.Pairwise fun a b => a.stop ≤ b.start := by
  induction h with
  | nil _ => exact .nil
  | cons _ _ hrest ih => exact .cons (fun s hs => (hrest.between s hs).1) ih

end InOrder

/-- Spans in order stand in order on either side of some place. -/
theorem inOrder_append {lower upper : Nat} {before after : List Span} :
    InOrder lower upper (before ++ after) ↔
      ∃ mid, InOrder lower mid before ∧ InOrder mid upper after := by
  constructor
  · intro h
    induction before generalizing lower with
    | nil => exact ⟨lower, .nil le_rfl, h⟩
    | cons s before ih =>
      obtain _ | ⟨hstart, hspan, hrest⟩ := h
      obtain ⟨mid, hbefore, hafter⟩ := ih hrest
      exact ⟨mid, .cons hstart hspan hbefore, hafter⟩
  · rintro ⟨mid, hbefore, hafter⟩
    induction hbefore with
    | nil hle => exact hafter.mono hle le_rfl
    | cons hstart hspan _ ih => exact .cons hstart hspan (ih hafter)

end Span

/-! ## Trees -/

namespace Expr

/-- Every node spans some characters of the text, and its parts stand in order inside its span. -/
def Nested (text : List Char) (e : Expr) : Prop :=
  ∀ n ∈ e.nodes, n.span.Within text ∧ Span.InOrder n.span.start n.span.stop (n.parts.map span)

/-- Trees between two places of the text, each after those before it. -/
structure Row (text : List Char) (lower upper : Nat) (es : List Expr) : Prop where
  inOrder : Span.InOrder lower upper (es.map span)
  nested : ∀ e ∈ es, e.Nested text

section Row

variable {text : List Char} {lower upper : Nat} {e target : Expr} {es fewer rest : List Expr}

theorem nested_iff :
    e.Nested text ↔ e.span.Within text ∧ Row text e.span.start e.span.stop e.parts := by
  rw [Nested, nodes_eq, List.forall_mem_cons, List.forall_mem_flatMap, and_assoc]
  exact and_congr_right' ⟨fun h => ⟨h.1, h.2⟩, fun h => ⟨h.1, h.2⟩⟩

theorem Nested.within (h : e.Nested text) : e.Within text := by
  rintro s hs
  obtain ⟨n, hn, rfl⟩ := List.mem_map.mp hs
  exact (h n hn).1

theorem Row.le (h : Row text lower upper es) : lower ≤ upper := h.inOrder.le

theorem Row.mono {lower' upper' : Nat} (h : Row text lower upper es) (hlower : lower' ≤ lower)
    (hupper : upper ≤ upper') : Row text lower' upper' es :=
  ⟨h.inOrder.mono hlower hupper, h.nested⟩

theorem Row.sublist (h : Row text lower upper es) (hsub : fewer.Sublist es) :
    Row text lower upper fewer :=
  ⟨h.inOrder.sublist (hsub.map span), fun e he => h.nested e (hsub.subset he)⟩

theorem row_nil : Row text lower upper [] ↔ lower ≤ upper :=
  ⟨Row.le, fun h => ⟨.nil h, List.forall_mem_nil _⟩⟩

theorem row_cons : Row text lower upper (e :: rest) ↔
    lower ≤ e.span.start ∧ e.Nested text ∧ Row text e.span.stop upper rest := by
  constructor
  · rintro ⟨_ | ⟨hstart, -, hrest⟩, hnested⟩
    rw [List.forall_mem_cons] at hnested
    exact ⟨hstart, hnested.1, hrest, hnested.2⟩
  · rintro ⟨hstart, hnested, hrest, hall⟩
    have hspan := (nested_iff.mp hnested).1.lt.le
    exact ⟨.cons hstart hspan hrest, List.forall_mem_cons.mpr ⟨hnested, hall⟩⟩

theorem row_singleton : Row text lower upper [e] ↔
    lower ≤ e.span.start ∧ e.Nested text ∧ e.span.stop ≤ upper := by
  rw [row_cons, row_nil]

theorem Row.lt (h : Row text lower upper [e]) : lower < upper := by
  obtain ⟨hlower, hnested, hupper⟩ := row_singleton.mp h
  exact hlower.trans_lt ((nested_iff.mp hnested).1.lt.trans_le hupper)

theorem row_append {before after : List Expr} : Row text lower upper (before ++ after) ↔
    ∃ mid, Row text lower mid before ∧ Row text mid upper after := by
  constructor
  · rintro ⟨horder, hnested⟩
    rw [List.map_append, Span.inOrder_append] at horder
    rw [List.forall_mem_append] at hnested
    obtain ⟨mid, hbefore, hafter⟩ := horder
    exact ⟨mid, ⟨hbefore, hnested.1⟩, ⟨hafter, hnested.2⟩⟩
  · rintro ⟨mid, hbefore, hafter⟩
    refine ⟨?_, List.forall_mem_append.mpr ⟨hbefore.nested, hafter.nested⟩⟩
    rw [List.map_append, Span.inOrder_append]
    exact ⟨mid, hbefore.inOrder, hafter.inOrder⟩

/-- A tree stands where its span does if its parts stand in a row there. -/
theorem row_of_parts (hwithin : e.span.Within text)
    (hparts : Row text e.span.start e.span.stop e.parts) :
    Row text e.span.start e.span.stop [e] :=
  row_singleton.mpr ⟨le_rfl, nested_iff.mpr ⟨hwithin, hparts⟩, le_rfl⟩

/-- A tree that spans from its first part over some characters after it, where the other parts
stand. -/
theorem row_of_merge {s : Span} (htarget : Row text lower s.start [target]) (hs : s.Within text)
    (hrest : Row text s.start s.stop rest) (hspan : e.span = target.span.merge s)
    (hparts : e.parts = target :: rest) : Row text lower s.stop [e] := by
  obtain ⟨hlower, hnested, hstop⟩ := row_singleton.mp htarget
  have hwithin := (nested_iff.mp hnested).1
  have hmerge : e.span = ⟨target.span.start, s.stop⟩ := by
    have hstart := hwithin.lt.le.trans hstop
    rw [hspan, Span.merge, Nat.min_eq_left hstart, Nat.max_eq_right (hstop.trans hs.lt.le)]
  have hrow : Row text e.span.start e.span.stop e.parts := by
    rw [hparts, hmerge, row_cons]
    exact ⟨le_rfl, hnested, hrest.mono hstop le_rfl⟩
  have hwhole : e.span.Within text := hspan ▸ hwithin.merge hs
  rw [row_singleton]
  refine ⟨?_, nested_iff.mpr ⟨hwhole, hrow⟩, ?_⟩
  · rw [hmerge]
    exact hlower
  · rw [hmerge]

end Row

end Expr

/-! ## Phrases -/

namespace Reader

open JsonTemplate.Expr

/-- Where what a phrase stands for ends. A chain ends with what was put after its operand last. -/
def Phrase.stop (next : Nat) : (p : Phrase) → p.Result → Nat
  | chain, (_, stop) => stop.getD next
  | _, _ => next

/-- The trees that a phrase stands for are in a row from its first token on, whichever tokens of a
text go on after it. -/
def Rows (text : List Char) (p : Phrase) (T : List Token) (next : Nat) (r : p.Result) : Prop :=
  ∀ rest, rest ≠ [] → Laid text (T ++ rest) → startOf rest = next →
    Row text (startOf (T ++ rest)) (p.stop next r) (p.trees r)

section Rules

variable {text : List Char} {T U V S O rest : List Token} {next : Nat} {token last : Token}
  {e i key yes no : Expr} {es args : List Expr} {l r t : OpTree Expr} {stop : Option Nat}
  {dot word left right : Span} {name : String} {el : Element} {a : el.Result} {as : List el.Result}

/-- A tree that is one token. -/
theorem row_token (hlaid : Laid text (token :: rest)) (hne : rest ≠ [])
    (hspan : e.span = token.span) (hparts : e.parts = []) :
    Row text token.span.start (startOf rest) [e] := by
  obtain ⟨hwithin, -, hle⟩ := hlaid.token hne
  rw [← hspan] at hwithin hle ⊢
  exact (row_of_parts hwithin (hparts ▸ row_nil.mpr hwithin.lt.le)).mono le_rfl hle

/-- Trees between two tokens stand where a span from one to the other does. -/
theorem Laid.enclosed (hlaid : Laid text (token :: (T ++ last :: rest))) (hne : rest ≠ [])
    (hrow : Row text (startOf (T ++ last :: rest)) last.span.start es) :
    Span.Within text ⟨token.span.start, last.span.stop⟩ ∧
      Row text token.span.start last.span.stop es ∧ last.span.stop ≤ startOf rest := by
  obtain ⟨htoken, hinside, hle⟩ := hlaid.token (by simp)
  obtain ⟨hlast, -⟩ := hinside.drop (List.cons_ne_nil _ _)
  obtain ⟨hlast, -, hstop⟩ := hlast.token hne
  have hstart := htoken.lt.le.trans hle
  exact ⟨⟨htoken.start, hlast.stop, hstart.trans_lt (hrow.le.trans_lt hlast.lt)⟩,
    hrow.mono hstart hlast.lt.le, hstop⟩

theorem row_enclosed (hlaid : Laid text (token :: (T ++ last :: rest))) (hne : rest ≠ [])
    (hspan : e.span = ⟨token.span.start, last.span.stop⟩)
    (hparts : Row text (startOf (T ++ last :: rest)) last.span.start e.parts) :
    Row text token.span.start (startOf rest) [e] := by
  obtain ⟨hwithin, hparts, hle⟩ := hlaid.enclosed hne hparts
  rw [← hspan] at hwithin
  have hrow := row_of_parts hwithin (by rwa [hspan])
  rw [hspan] at hrow
  exact hrow.mono le_rfl hle

theorem rows_choice {question colon : Span} (h : Phrased .tree T question.start t)
    (ih : Rows text .tree T question.start t) (ihyes : Rows text .choice U colon.start yes)
    (ihno : Rows text .choice V next no) :
    Rows text .choice (T ++ ⟨.mark '?', question⟩ :: (U ++ ⟨.mark ':', colon⟩ :: V)) next
      (.conditional ⟨startOf T, next⟩ t.toExpr yes no) := by
  rintro rest hne hlaid rfl
  simp only [List.append_assoc, List.cons_append] at hlaid ⊢
  obtain ⟨hU, hquestion⟩ := hlaid.past (by simp)
  obtain ⟨hV, hcolon⟩ := hU.past (by simp [hne])
  obtain ⟨hrest, -⟩ := hV.drop hne
  have hcondition := ih _ (List.cons_ne_nil _ _) hlaid rfl
  have hyes := ihyes _ (List.cons_ne_nil _ _) hU rfl
  have hno := ihno _ hne hV rfl
  have hparts := row_append.mpr ⟨_, hcondition, row_append.mpr
    ⟨_, hyes.mono hquestion.le le_rfl, hno.mono hcolon.le le_rfl⟩⟩
  rw [h.starts.startOf_append] at hparts
  rw [h.starts.startOf_append]
  have hlt : startOf T < startOf rest := by
    rw [← h.starts.startOf_append]
    exact hcondition.lt.trans (hquestion.trans (hyes.lt.trans (hcolon.trans hno.lt)))
  exact row_of_parts (e := .conditional ⟨startOf T, startOf rest⟩ t.toExpr yes no)
    ⟨h.starts.startOf_append _ ▸ hlaid.start, hrest.start, hlt⟩ hparts

theorem rows_node {op : BinaryOp} (hS : (Lexeme.operator op).Tokens S)
    (ihl : Rows text .tree T (startOf S) l) (ihr : Rows text .tree U next r) :
    Rows text .tree (T ++ (S ++ U)) next (.node l op r) := by
  rintro rest hne hlaid rfl
  simp only [List.append_assoc] at hlaid ⊢
  obtain ⟨hS', -⟩ := hlaid.drop (by simp [hne])
  obtain ⟨hU, hle⟩ := hS'.drop (by simp [hne])
  have hleft := ihl _ (by simp [hne]) hlaid (startOf_operator hS _)
  obtain ⟨hstart, hnested, hstop⟩ := row_singleton.mp (ihr _ hne hU rfl)
  rw [startOf_operator hS] at hle
  have hright : Row text r.toExpr.span.start r.toExpr.span.stop [r.toExpr] :=
    row_singleton.mpr ⟨le_rfl, hnested, le_rfl⟩
  exact (row_of_merge (hleft.mono le_rfl (hle.trans hstart)) (nested_iff.mp hnested).1 hright rfl
    rfl).mono le_rfl hstop

/-- Prefix operators all stand where the operand and the first of them do. -/
theorem foldr_applyUnary_row {span : Span} (hspan : span.Within text) (ops : List UnaryOp)
    (he : Row text span.start span.stop [e]) :
    Row text span.start span.stop [ops.foldr (applyUnary span) e] := by
  induction ops with
  | nil => exact he
  | cons op ops ih =>
    rw [List.foldr_cons]
    unfold applyUnary
    split
    · exact row_of_parts (e := .literal span _) hspan (row_nil.mpr hspan.lt.le)
    · exact row_of_parts (e := .unary span _ _) hspan ih

/-- What was put last after an operand ends before the next token. -/
theorem chain_stop (h : Phrased .chain T next (e, stop)) (hne : rest ≠ [])
    (hlaid : Laid text (T ++ rest)) (hnext : startOf rest = next) :
    Text.Boundary text (stop.getD next) ∧ stop.getD next ≤ next := by
  have hlast : ∀ {before : List Token} {token : Token}, T = before ++ [token] →
      Text.Boundary text token.span.stop ∧ token.span.stop ≤ next := by
    rintro before token rfl
    rw [List.append_assoc] at hlaid
    obtain ⟨hspan, -, hle⟩ := (hlaid.drop (List.cons_ne_nil _ _)).1.token hne
    exact ⟨hspan.stop, hnext ▸ hle⟩
  cases h with
  | first _ => exact ⟨hnext ▸ (hlaid.drop hne).1.start, le_rfl⟩
  | field _ => exact hlast (List.append_cons _ _ _)
  | method _ _ => exact hlast (List.append_assoc _ (_ :: _ :: _ :: _) _).symm
  | index _ _ => exact hlast (List.append_assoc _ (_ :: _) _).symm

theorem rows_operand {ops : List UnaryOp} (hO : Spells (prefixed ops) O)
    (h : Phrased .chain T next (e, stop)) (ih : Rows text .chain T next (e, stop)) :
    Rows text .operand (O ++ T) next
      (ops.foldr (applyUnary ⟨startOf (O ++ T), stop.getD next⟩) e) := by
  rintro rest hne hlaid rfl
  have hstart := (Phrased.operand hO h).starts.startOf_append rest
  rw [hstart]
  have hfirst : Text.Boundary text (startOf (O ++ T)) := hstart ▸ hlaid.start
  rw [List.append_assoc] at hlaid hstart
  obtain ⟨hT, hle⟩ := hlaid.drop (List.append_ne_nil_of_right_ne_nil T hne)
  obtain ⟨hlast, hstop⟩ := chain_stop h hne hT rfl
  have hrow := (ih rest hne hT rfl).mono (hstart ▸ hle) le_rfl
  have hwithin : Span.Within text ⟨startOf (O ++ T), stop.getD (startOf rest)⟩ :=
    ⟨hfirst, hlast, hrow.lt⟩
  exact (foldr_applyUnary_row hwithin ops hrow).mono le_rfl hstop

/-- One more part put after an operand, from the token after that on. -/
theorem row_more {e' : Expr} {s : Span} (hlaid : Laid text (T ++ token :: rest))
    (h : Phrased .chain T token.span.start (e, stop))
    (ih : Rows text .chain T token.span.start (e, stop)) (hs : s.Within text)
    (hstart : token.span.start ≤ s.start) (hes : Row text s.start s.stop es)
    (hspan : e'.span = e.span.merge s) (hparts : e'.parts = e :: es) :
    Row text (startOf (T ++ token :: rest)) s.stop [e'] := by
  have hrow := ih _ (List.cons_ne_nil _ _) hlaid rfl
  obtain ⟨-, hle⟩ := chain_stop h (List.cons_ne_nil _ _) hlaid rfl
  exact row_of_merge (hrow.mono le_rfl (hle.trans hstart)) hs hes hspan hparts

theorem rows_field (h : Phrased .chain T dot.start (e, stop))
    (ih : Rows text .chain T dot.start (e, stop)) :
    Rows text .chain (T ++ [⟨.mark '.', dot⟩, ⟨.word name, word⟩]) next
      (.select (e.span.merge word) e name, some word.stop) := by
  rintro rest hne hlaid rfl
  simp only [List.append_assoc, List.cons_append, List.nil_append] at hlaid ⊢
  obtain ⟨hdot, hlt⟩ := hlaid.past (List.cons_ne_nil _ _)
  obtain ⟨hword, -⟩ := hdot.token hne
  exact row_more hlaid h ih hword hlt.le (row_nil.mpr hword.lt.le) rfl rfl

theorem rows_method (h : Phrased .chain T dot.start (e, stop))
    (ih : Rows text .chain T dot.start (e, stop))
    (ihargs : Rows text (.elements .item) U right.start args) :
    Rows text .chain (T ++ ⟨.mark '.', dot⟩ :: ⟨.word name, word⟩ :: ⟨.mark '(', left⟩ ::
        (U ++ [⟨.mark ')', right⟩])) next
      (.call (e.span.merge ⟨word.start, right.stop⟩) (some e) name args, some right.stop) := by
  rintro rest hne hlaid rfl
  simp only [List.append_assoc, List.cons_append, List.nil_append] at hlaid ⊢
  obtain ⟨hword, hlt⟩ := hlaid.past (List.cons_ne_nil _ _)
  obtain ⟨hU, hlt'⟩ := (hword.token (List.cons_ne_nil _ _)).2.1.past (T := []) (by simp)
  have hargs := ihargs _ (List.cons_ne_nil _ _) hU rfl
  obtain ⟨hwithin, hargs, -⟩ := hword.enclosed (T := ⟨.mark '(', left⟩ :: U) hne
    (hargs.mono hlt'.le le_rfl)
  rw [Phrase.trees_items] at hargs
  exact row_more (s := ⟨word.start, right.stop⟩) hlaid h ih hwithin hlt.le hargs rfl rfl

theorem rows_index (h : Phrased .chain T left.start (e, stop))
    (ih : Rows text .chain T left.start (e, stop)) (ihi : Rows text .choice U right.start i) :
    Rows text .chain (T ++ ⟨.mark '[', left⟩ :: (U ++ [⟨.mark ']', right⟩])) next
      (.index (e.span.merge ⟨left.start, right.stop⟩) e i, some right.stop) := by
  rintro rest hne hlaid rfl
  simp only [List.append_assoc, List.cons_append, List.nil_append] at hlaid ⊢
  obtain ⟨hU, -⟩ := hlaid.past (by simp)
  have hopen := (hlaid.drop (List.cons_ne_nil _ _)).1
  obtain ⟨hwithin, hi, -⟩ := hopen.enclosed hne (ihi _ (List.cons_ne_nil _ _) hU rfl)
  exact row_more (s := ⟨left.start, right.stop⟩) hlaid h ih hwithin le_rfl hi rfl rfl

theorem rows_call (ih : Rows text (.elements .item) U right.start args) :
    Rows text .primary (⟨.word name, word⟩ :: ⟨.mark '(', left⟩ :: (U ++ [⟨.mark ')', right⟩])) next
      (.call ⟨word.start, right.stop⟩ none name args) := by
  rintro rest hne hlaid rfl
  simp only [List.append_assoc, List.cons_append, List.nil_append] at hlaid ⊢
  obtain ⟨hU, hlt⟩ := (hlaid.token (List.cons_ne_nil _ _)).2.1.past (T := []) (by simp)
  have hargs := ih _ (List.cons_ne_nil _ _) hU rfl
  rw [Phrase.trees_items] at hargs
  exact row_enclosed (T := ⟨.mark '(', left⟩ :: U) hlaid hne rfl (hargs.mono hlt.le le_rfl)

theorem rows_group (ih : Rows text .choice U right.start e) :
    Rows text .primary (⟨.mark '(', left⟩ :: (U ++ [⟨.mark ')', right⟩])) next e := by
  rintro rest hne hlaid rfl
  simp only [List.append_assoc, List.cons_append, List.nil_append] at hlaid ⊢
  obtain ⟨hU, hlt⟩ := hlaid.past (T := []) (by simp)
  obtain ⟨hrest, hlt'⟩ := hU.past hne
  exact (ih _ (List.cons_ne_nil _ _) hU rfl).mono hlt.le hlt'.le

theorem rows_list (ih : Rows text (.elements .item) U right.start es) :
    Rows text .primary (⟨.mark '[', left⟩ :: (U ++ [⟨.mark ']', right⟩])) next
      (.list ⟨left.start, right.stop⟩ es) := by
  rintro rest hne hlaid rfl
  simp only [List.append_assoc, List.cons_append, List.nil_append] at hlaid ⊢
  obtain ⟨hU, -⟩ := hlaid.past (T := []) (by simp)
  have helements := ih _ (List.cons_ne_nil _ _) hU rfl
  rw [Phrase.trees_items] at helements
  exact row_enclosed hlaid hne rfl helements

theorem rows_dict {entries : List (Expr × Expr)}
    (ih : Rows text (.elements .entry) U right.start entries) :
    Rows text .primary (⟨.mark '\x7b', left⟩ :: (U ++ [⟨.mark '\x7d', right⟩])) next
      (.dict ⟨left.start, right.stop⟩ entries) := by
  rintro rest hne hlaid rfl
  simp only [List.append_assoc, List.cons_append, List.nil_append] at hlaid ⊢
  obtain ⟨hU, -⟩ := hlaid.past (T := []) (by simp)
  exact row_enclosed hlaid hne rfl (ih _ (List.cons_ne_nil _ _) hU rfl)

theorem rows_entry {colon : Span} (ihkey : Rows text .choice T colon.start key)
    (ih : Rows text .choice U next e) :
    Rows text (.element .entry) (T ++ ⟨.mark ':', colon⟩ :: U) next (key, e) := by
  rintro rest hne hlaid rfl
  simp only [List.append_assoc, List.cons_append] at hlaid ⊢
  obtain ⟨hU, hlt⟩ := hlaid.past (by simp [hne])
  exact row_append.mpr
    ⟨_, ihkey _ (List.cons_ne_nil _ _) hlaid rfl, (ih rest hne hU rfl).mono hlt.le le_rfl⟩

theorem rows_last (ih : Rows text (.element el) T next a) :
    Rows text (.elements el) T next [a] := by
  intro rest hne hlaid hnext
  have hrow := ih rest hne hlaid hnext
  simp only [Phrase.trees, List.flatMap_cons, List.flatMap_nil, List.append_nil] at hrow ⊢
  exact hrow

theorem rows_more {comma : Span} (ih : Rows text (.element el) T comma.start a)
    (ihothers : Rows text (.elements el) U next as) :
    Rows text (.elements el) (T ++ ⟨.mark ',', comma⟩ :: U) next (a :: as) := by
  rintro rest hne hlaid rfl
  simp only [List.append_assoc, List.cons_append] at hlaid ⊢
  obtain ⟨hU, hlt⟩ := hlaid.past (by simp [hne])
  exact row_append.mpr
    ⟨_, ih _ (List.cons_ne_nil _ _) hlaid rfl, (ihothers rest hne hU rfl).mono hlt.le le_rfl⟩

end Rules

/-- **What is read of a text stands in a row there.** -/
theorem phrased_rows (text : List Char) {p : Phrase} {T : List Token} {next : Nat} {r : p.Result}
    (h : Phrased p T next r) : Rows text p T next r := by
  induction h with
  | plain _ _ ih => exact ih
  | choice h _ _ _ ih ihyes ihno => exact rows_choice h ih ihyes ihno
  | leaf _ ih => exact ih
  | node _ hop _ ihl ihr => exact rows_node hop ihl ihr
  | operand hops h ih => exact rows_operand hops h ih
  | first _ ih => exact ih
  | field h ih => exact rows_field h ih
  | method h _ ih ihargs => exact rows_method h ih ihargs
  | index h _ ih ihi => exact rows_index h ih ihi
  | constant _ | name _ =>
    rintro rest hne hlaid rfl
    exact row_token hlaid hne rfl rfl
  | call _ _ ih => exact rows_call ih
  | group _ ih => exact rows_group ih
  | list _ ih => exact rows_list ih
  | dict _ ih => exact rows_dict ih
  | item _ ih => exact ih
  | entry _ _ ihkey ih => exact rows_entry ihkey ih
  | none =>
    rintro rest _ _ rfl
    exact row_nil.mpr le_rfl
  | last _ ih => exact rows_last ih
  | more _ _ ih ihothers => exact rows_more ih ihothers

theorem readAll_nested {text : List Char} {tokens : List Token} (hlaid : Laid text tokens)
    {e : Expr} (h : readAll tokens = .ok e) : e.Nested text := by
  obtain ⟨T, span, rfl, hT⟩ := readAll_eq_ok.mp h
  exact (row_singleton.mp (phrased_rows text hT _ (List.cons_ne_nil _ _) hlaid rfl)).2.1

end Reader

/-! ## Calls with a meaning of their own -/

namespace Expr

/-- A tree that stands where another does, and is nested if that is. -/
def Kept (text : List Char) (e t : Expr) : Prop :=
  t.span = e.span ∧ (e.Nested text → t.Nested text)

section Kept

variable {text : List Char}

theorem Kept.refl (e : Expr) : Kept text e e := ⟨rfl, id⟩

theorem Kept.trans {e t u : Expr} (h : Kept text e t) (h' : Kept text t u) : Kept text e u :=
  ⟨h'.1.trans h.1, h'.2 ∘ h.2⟩

theorem Row.kept {lower upper : Nat} {es ts : List Expr} (hkept : List.Forall₂ (Kept text) es ts)
    (h : Row text lower upper es) : Row text lower upper ts := by
  induction hkept generalizing lower with
  | nil => exact h
  | cons hhead _ ih =>
    obtain ⟨hstart, hnested, hrest⟩ := row_cons.mp h
    rw [row_cons, hhead.1]
    exact ⟨hstart, hhead.2 hnested, ih hrest⟩

theorem kept_of_parts {e t : Expr} (hspan : t.span = e.span)
    (hparts : List.Forall₂ (Kept text) e.parts t.parts) : Kept text e t := by
  refine ⟨hspan, fun h => ?_⟩
  rw [nested_iff] at h
  rw [nested_iff, hspan]
  exact ⟨h.1, h.2.kept hparts⟩

/-- A tree may lose some of its parts. -/
theorem kept_of_sublist {e t : Expr} (hspan : t.span = e.span) (hsub : t.parts.Sublist e.parts) :
    Kept text e t := by
  refine ⟨hspan, fun h => ?_⟩
  rw [nested_iff] at h
  rw [nested_iff, hspan]
  exact ⟨h.1, h.2.sublist hsub⟩

theorem LoopTree.kept {s : Span} {word : LoopWord} {range : Expr} {args : List Expr} {t : Expr}
    {function : String} (h : LoopTree s word range args t) :
    Kept text (call s (some range) function args) t := by
  -- The variable of the loop is no part of it.
  cases h with
  | image | testedImage | test =>
    exact kept_of_sublist rfl ((List.sublist_cons_self _ _).cons_cons _)

theorem CallTree.kept {s : Span} {target : Option Expr} {function : String} {args : List Expr}
    {t : Expr} (h : CallTree s target function args t) :
    Kept text (call s target function args) t := by
  cases h with
  | presence =>
    -- The selection goes, and what it selects from stands inside it.
    refine ⟨rfl, fun h => ?_⟩
    obtain ⟨hwithin, hrow⟩ := nested_iff.mp h
    obtain ⟨hstart, hselect, hstop⟩ := row_singleton.mp hrow
    exact nested_iff.mpr ⟨hwithin, (nested_iff.mp hselect).2.mono hstart hstop⟩
  | loop _ hloop => exact hloop.kept
  | function _ | method _ => exact .refl _

/-- Expansion keeps a tree where it stands. -/
theorem kept_expandMacros {e t : Expr} (h : e.expandMacros = .ok t) : Kept text e t := by
  induction e using parts_induction generalizing t with
  | ofParts e ih =>
    obtain ⟨u, hspan, hparts, hcalled⟩ := expandMacros_parts h
    have hkept : List.Forall₂ (Kept text) e.parts u.parts :=
      List.Forall₂.imp (fun _ t h => h.1 t h.2)
        ((List.forall₂_and_left _ _).mpr ⟨fun part hpart t => @ih part hpart t, hparts⟩)
    have hu := kept_of_parts hspan hkept
    rcases hcalled with rfl | ⟨_, _, _, _, rfl, hcall⟩
    · exact hu
    · exact hu.trans hcall.kept

end Kept

theorem parse_nested {source : String} {e : Expr} (h : parse source = .ok e) :
    e.Nested source.toList := by
  obtain ⟨raw, hread, he⟩ := parse_eq_ok h
  exact (kept_expandMacros he).2 (Reader.readAll_nested (Reader.laid_ofSource source) hread)

end Expr

/-! ## Programs -/

/-- **The nodes of a compiled program span characters of its source.** -/
theorem Environment.compile_within {env : Environment} {source : String} {p : Program}
    (h : env.compile source = .ok p) : p.expr.Within p.source.toList := by
  obtain ⟨e, hparse, -, rfl⟩ := compile_eq_ok.mp h
  intro s hs
  rw [Expr.spans_resolveTypes] at hs
  exact (Expr.parse_nested hparse).within s hs

theorem Text.Boundary.le {text : List Char} {offset : Nat} (h : Boundary text offset) :
    offset ≤ byteLength text := by
  obtain ⟨before, after, rfl, rfl⟩ := h
  rw [byteLength_append]
  exact Nat.le_add_right _ _

/-- **The spans of an accepted text are nested and in order.** Every node spans some characters,
its parts stand inside its span, and each of them stands after those before it. -/
theorem spans_form_ordered_cover {source : String} {e : Expr} (h : Expr.parse source = .ok e) :
    ∀ n ∈ e.nodes, n.span.Within source.toList ∧
      n.span.stop ≤ Text.byteLength source.toList ∧
      (∀ part ∈ n.parts, n.span.start ≤ part.span.start ∧ part.span.stop ≤ n.span.stop) ∧
      n.parts.Pairwise fun a b => a.span.stop ≤ b.span.start := by
  intro n hn
  obtain ⟨hwithin, horder⟩ := Expr.parse_nested h n hn
  have hbetween := horder.between
  have hpairwise := horder.pairwise
  rw [List.forall_mem_map] at hbetween
  rw [List.pairwise_map] at hpairwise
  exact ⟨hwithin, hwithin.stop.le, hbetween, hpairwise⟩

/-- Brackets, prefix operators, a choice, loops and a question about a field, after a string that is
longer in bytes than in characters. -/
theorem spans_form_ordered_cover_of_loops : ∃ e,
    Expr.parse "('é' + [a ? b : - -c[0]].map(x, !has(x.k), f(x))).all(y, y)" = .ok e ∧
      ∀ n ∈ e.nodes, n.span.Within
          "('é' + [a ? b : - -c[0]].map(x, !has(x.k), f(x))).all(y, y)".toList ∧
        n.span.stop ≤ Text.byteLength
          "('é' + [a ? b : - -c[0]].map(x, !has(x.k), f(x))).all(y, y)".toList ∧
        (∀ part ∈ n.parts, n.span.start ≤ part.span.start ∧ part.span.stop ≤ n.span.stop) ∧
        n.parts.Pairwise fun a b => a.span.stop ≤ b.span.start := by
  obtain ⟨e, he⟩ : ∃ e,
      Expr.parse "('é' + [a ? b : - -c[0]].map(x, !has(x.k), f(x))).all(y, y)" = .ok e :=
    failure?_eq_none.mp (by decide +kernel)
  exact ⟨e, he, spans_form_ordered_cover he⟩

end JsonTemplate
