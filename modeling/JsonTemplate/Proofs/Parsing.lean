/-
The grammar of lexemes and the tokens that are read. The tokens of a phrase spell lexemes that are
derived with its tree (`phrased_derived`), and tokens that spell what is derived are a phrase of a
tree that is the derived one up to places (`derives_placed`). So a text of tokens is read exactly if
its lexemes are derived (`readAll_iff`).
-/
import JsonTemplate.Proofs.Rereading

namespace JsonTemplate.Reader

theorem bare_foldr_applyUnary (span : Span) (ops : List UnaryOp) (e : Expr) :
    (ops.foldr (applyUnary span) e).bare = ops.foldr (applyUnary default) e.bare := by
  induction ops with
  | nil => rfl
  | cons op ops ih => rw [List.foldr_cons, Expr.bare_applyUnary, ih, List.foldr_cons]

/-- Operators and operands without places. -/
abbrev bareSteps (steps : List (BinaryOp × Expr)) : List (BinaryOp × Expr) :=
  OpTree.mapSteps Expr.bare steps

/-! ## What is phrased is derived -/

/-- The tokens of a phrase spell lexemes that are derived with what it stands for, without places.
Of operators and operands the first operand is derived on its own, and so is the first part of a
chain, with all that can follow it. -/
def Derived : (p : Phrase) → List Token → p.Result → Prop
  | .choice, T, e => ∃ L, Spells L T ∧ Derives .choice L (Expr.bare e)
  | .tree, T, t => ∃ L M first steps, Spells (L ++ M) T ∧ Derives .operand L (Expr.bare first) ∧
      Derives .operations M (bareSteps steps) ∧ OpTree.items t = OpTree.listed first steps
  | .operand, T, e => ∃ L, Spells L T ∧ Derives .operand L (Expr.bare e)
  | .chain, T, (e, _) => ∃ L M first, Spells (L ++ M) T ∧ Derives .primary L first ∧
      ∀ {N} {out : Expr}, Derives (.suffixes (Expr.bare e)) N out →
        Derives (.suffixes first) (M ++ N) out
  | .primary, T, e => ∃ L, Spells L T ∧ Derives .primary L (Expr.bare e)
  | .element .item, T, e => ∃ L, Spells L T ∧ Derives .choice L (Expr.bare e)
  | .element .entry, T, (key, e) => ∃ K L, Spells (K ++ .mark ':' :: L) T ∧
      Derives .choice K (Expr.bare key) ∧ Derives .choice L (Expr.bare e)
  | .elements .item, T, es => ∃ L, Spells L T ∧ Derives .items L (Expr.bareItems es)
  | .elements .entry, T, entries => ∃ L, Spells L T ∧ Derives .entries L (Expr.bareEntries entries)

theorem derives_prefixed {L : List Lexeme} {e : Expr} (ops : List UnaryOp)
    (h : Derives .operand L e) :
    Derives .operand (prefixed ops ++ L) (ops.foldr (applyUnary default) e) := by
  induction ops with
  | nil => exact h
  | cons op ops ih => exact .unary ih

theorem derives_operations_append {L M : List Lexeme} {steps others : List (BinaryOp × Expr)}
    (h : Derives .operations L steps) (h' : Derives .operations M others) :
    Derives .operations (L ++ M) (steps ++ others) := by
  induction steps generalizing L with
  | nil =>
    cases h
    exact h'
  | cons step steps ih =>
    cases h with
    | operation hoperand hsteps =>
      rw [List.cons_append, List.append_assoc]
      exact .operation hoperand (ih hsteps)

section Rules

variable {T U V S O : List Token} {stop : Option Nat} {e key yes no : Expr} {t l r : OpTree Expr}
  {span word left right : Span} {name : String}

theorem derived_sequence (h : Derived .tree T t) (hbound : t.WellBound) :
    ∃ L, Spells L T ∧ Derives .sequence L t.toExpr.bare := by
  obtain ⟨L, M, first, steps, hT, hL, hM, hitems⟩ := h
  have htree : t = OpTree.ofSequence first steps :=
    OpTree.eq_of_items hbound (OpTree.ofSequence_wellBound first steps)
      (hitems.trans (OpTree.items_ofSequence first steps).symm)
  refine ⟨L ++ M, hT, ?_⟩
  rw [htree, OpTree.bare_toExpr, OpTree.map_ofSequence]
  exact .sequence hL hM

theorem derived_choice {question colon : Span} (h : Derived .tree T t) (hbound : t.WellBound)
    (hyes : Derived .choice U yes) (hno : Derived .choice V no) :
    Derived .choice (T ++ ⟨.mark '?', question⟩ :: (U ++ ⟨.mark ':', colon⟩ :: V))
      (.conditional span t.toExpr yes no) := by
  obtain ⟨L, hT, hL⟩ := derived_sequence h hbound
  obtain ⟨M, hU, hM⟩ := hyes
  obtain ⟨N, hV, hN⟩ := hno
  exact ⟨L ++ .mark '?' :: (M ++ .mark ':' :: N), hT.append (.mark (hU.append (.mark hV))),
    .choice hL hM hN⟩

theorem derived_node {op : BinaryOp} (hl : Derived .tree T l) (hop : (Lexeme.operator op).Tokens S)
    (hr : Derived .tree U r) : Derived .tree (T ++ (S ++ U)) (.node l op r) := by
  obtain ⟨L, M, first, steps, hT, hL, hM, hitems⟩ := hl
  obtain ⟨L', M', first', steps', hU, hL', hM', hitems'⟩ := hr
  refine
    ⟨L, M ++ .operator op :: (L' ++ M'), first, steps ++ (op, first') :: steps', ?_, hL, ?_, ?_⟩
  · rw [← List.append_assoc]
    exact hT.append (.cons hop hU)
  · rw [bareSteps, OpTree.mapSteps, List.map_append]
    exact derives_operations_append hM (.operation hL' hM')
  · simp [OpTree.items, OpTree.listed, hitems, hitems']

theorem derived_operand {ops : List UnaryOp} (hO : Spells (prefixed ops) O)
    (h : Derived .chain T (e, stop)) :
    Derived .operand (O ++ T) (ops.foldr (applyUnary span) e) := by
  obtain ⟨L, M, first, hT, hL, hM⟩ := h
  refine ⟨prefixed ops ++ (L ++ M), hO.append hT, ?_⟩
  rw [bare_foldr_applyUnary]
  have hwhole : Derives (.suffixes e.bare) [] e.bare := .whole
  have hsuffixes := hM hwhole
  rw [List.append_nil] at hsuffixes
  exact derives_prefixed ops (.operand hL hsuffixes)

/-- A chain with more put after it, if that is derived where the chain ends. -/
theorem derived_more {K : List Lexeme} {e' : Expr} {stop' : Option Nat}
    (h : Derived .chain T (e, stop)) (hU : Spells K U)
    (hmore : ∀ {N} {out : Expr}, Derives (.suffixes e'.bare) N out →
      Derives (.suffixes e.bare) (K ++ N) out) : Derived .chain (T ++ U) (e', stop') := by
  obtain ⟨L, M, first, hT, hL, hM⟩ := h
  refine ⟨L, M ++ K, first, ?_, hL, fun hN => ?_⟩
  · rw [← List.append_assoc]
    exact hT.append hU
  · rw [List.append_assoc]
    exact hM (hmore hN)

theorem derived_constant {form : Token.Form} {v : Literal} (h : constant? form = some v) :
    Derived .primary [⟨form, span⟩] (.literal span v) := by
  unfold constant? at h
  split at h <;> cases h
  · exact ⟨_, .cons .number .nil, .number⟩
  · exact ⟨_, .cons .string .nil, .string⟩
  · exact ⟨_, .word .nil, .bool true⟩
  · exact ⟨_, .word .nil, .bool false⟩
  · exact ⟨_, .word .nil, .null⟩

theorem derived_last {el : Element} {a : el.Result} (h : Derived (.element el) T a) :
    Derived (.elements el) T [a] := by
  cases el with
  | item =>
    obtain ⟨L, hT, hL⟩ := h
    exact ⟨L, hT, .lastItem hL⟩
  | entry =>
    obtain ⟨K, L, hT, hK, hL⟩ := h
    exact ⟨K ++ .mark ':' :: L, hT, .lastEntry hK hL⟩

theorem derived_moreElements {comma : Span} {el : Element} {a : el.Result} {as : List el.Result}
    (h : Derived (.element el) T a) (hothers : Derived (.elements el) U as) :
    Derived (.elements el) (T ++ ⟨.mark ',', comma⟩ :: U) (a :: as) := by
  cases el with
  | item =>
    obtain ⟨L, hT, hL⟩ := h
    obtain ⟨M, hU, hM⟩ := hothers
    exact ⟨L ++ .mark ',' :: M, hT.append (.mark hU), .item hL hM⟩
  | entry =>
    obtain ⟨K, L, hT, hK, hL⟩ := h
    obtain ⟨M, hU, hM⟩ := hothers
    refine ⟨K ++ .mark ':' :: (L ++ .mark ',' :: M), ?_, .entry hK hL hM⟩
    simpa using hT.append (.mark hU)

end Rules

/-- **The tokens of a phrase spell lexemes that are derived with its tree.** -/
theorem phrased_derived {p : Phrase} {T : List Token} {next : Nat} {r : p.Result}
    (h : Phrased p T next r) : Derived p T r := by
  induction h with
  | plain _ hbound ih =>
    obtain ⟨L, hT, hL⟩ := derived_sequence ih hbound
    exact ⟨L, hT, .plain hL⟩
  | choice _ hbound _ _ ih ihyes ihno => exact derived_choice ih hbound ihyes ihno
  | @leaf T next e _ ih =>
    obtain ⟨L, hT, hL⟩ := ih
    exact ⟨L, [], e, [], by rwa [List.append_nil], hL, .noOperations, rfl⟩
  | node _ hop _ ihl ihr => exact derived_node ihl hop ihr
  | operand hO _ ih => exact derived_operand hO ih
  | first _ ih =>
    obtain ⟨L, hT, hL⟩ := ih
    exact ⟨L, [], _, by rwa [List.append_nil], hL, id⟩
  | field _ ih => exact derived_more ih (.mark (.word .nil)) .field
  | method _ _ ih ihargs =>
    obtain ⟨L, hU, hL⟩ := ihargs
    refine derived_more ih (.mark (.word hU.enclosed)) fun hN => ?_
    simpa using Derives.method hL hN
  | index _ _ ih ihindex =>
    obtain ⟨L, hU, hL⟩ := ihindex
    refine derived_more ih hU.enclosed fun hN => ?_
    simpa using Derives.index hL hN
  | constant h => exact derived_constant h
  | name h => exact ⟨_, .word .nil, .name h⟩
  | call h _ ih =>
    obtain ⟨L, hU, hL⟩ := ih
    exact ⟨_, .word hU.enclosed, .call h hL⟩
  | group _ ih =>
    obtain ⟨L, hU, hL⟩ := ih
    exact ⟨_, hU.enclosed, .group hL⟩
  | list _ ih =>
    obtain ⟨L, hU, hL⟩ := ih
    exact ⟨_, hU.enclosed, .list hL⟩
  | dict _ ih =>
    obtain ⟨L, hU, hL⟩ := ih
    exact ⟨_, hU.enclosed, .dict hL⟩
  | item _ ih => exact ih
  | entry _ _ ihkey ih =>
    obtain ⟨K, hT, hK⟩ := ihkey
    obtain ⟨L, hU, hL⟩ := ih
    exact ⟨K, L, hT.append (.mark hU), hK, hL⟩
  | @none el _ =>
    cases el with
    | item => exact ⟨[], .nil, .noItems⟩
    | entry => exact ⟨[], .nil, .noEntries⟩
  | last _ ih => exact derived_last ih
  | more _ _ ih ihothers => exact derived_moreElements ih ihothers

/-! ## What is derived is phrased -/

/-- Every spelling of the lexemes is a phrase, before any tokens, of a tree that is the given one up
to places. Operators and operands are put after those before them, and what follows an operand is
put after that. -/
def Placed (L : List Lexeme) : (c : Category) → c.Result → Prop
  | .choice, e => ∀ T rest, Spells L T → ∃ e', Phrased .choice T (startOf rest) e' ∧ e'.bare = e
  | .sequence, e => ∀ T rest, Spells L T → ∃ t, Phrased .tree T (startOf rest) t ∧ t.WellBound ∧
      t.toExpr.bare = e
  | .operations, steps => ∀ U T rest t, Spells L T → Phrased .tree U (startOf (T ++ rest)) t →
      ∃ steps', Phrased .tree (U ++ T) (startOf rest)
        (steps'.foldl (fun tree (op, value) => tree.attach op value) t) ∧ bareSteps steps' = steps
  | .operand, e => ∀ T rest, Spells L T → ∃ e', Phrased .operand T (startOf rest) e' ∧ e'.bare = e
  | .suffixes target, e => ∀ U T rest target' stop, Spells L T →
      Phrased .chain U (startOf (T ++ rest)) (target', stop) → target'.bare = target →
      ∃ e' stop', Phrased .chain (U ++ T) (startOf rest) (e', stop') ∧ e'.bare = e
  | .primary, e => ∀ T next, Spells L T → ∃ e', Phrased .primary T next e' ∧ e'.bare = e
  | .items, es => ∀ T rest, Spells L T →
      ∃ es', Phrased (.elements .item) T (startOf rest) es' ∧ Expr.bareItems es' = es
  | .entries, entries => ∀ T rest, Spells L T →
      ∃ entries', Phrased (.elements .entry) T (startOf rest) entries' ∧
        Expr.bareEntries entries' = entries

section Rules

variable {K L M N : List Lexeme} {e key yes no out : Expr} {steps : List (BinaryOp × Expr)}
  {name : String}

/-- A first operand and the operators and operands after it. -/
theorem placed_steps (hoperand : Placed L .operand e) (hsteps : Placed M .operations steps)
    {T : List Token} (hspell : Spells (L ++ M) T) (rest : List Token) : ∃ e' steps',
      Phrased .tree T (startOf rest) (OpTree.ofSequence e' steps') ∧ e'.bare = e ∧
        bareSteps steps' = steps := by
  obtain ⟨T, U, rfl, hT, hU⟩ := hspell.of_append
  obtain ⟨e', he', hbare⟩ := hoperand T (U ++ rest) hT
  obtain ⟨steps', hsteps', hbareSteps⟩ := hsteps T U rest (.operand e') hU (.leaf he')
  exact ⟨e', steps', hsteps', hbare, hbareSteps⟩

theorem placed_sequence (hoperand : Placed L .operand e) (hsteps : Placed M .operations steps) :
    Placed (L ++ M) .sequence (OpTree.ofSequence e steps).toExpr := by
  intro T rest hT
  obtain ⟨e', steps', ht, rfl, rfl⟩ := placed_steps hoperand hsteps hT rest
  refine ⟨_, ht, OpTree.ofSequence_wellBound _ _, ?_⟩
  rw [OpTree.bare_toExpr, OpTree.map_ofSequence]

theorem placed_choice (h : Placed L .sequence e) (hyes : Placed M .choice yes)
    (hno : Placed N .choice no) : Placed (L ++ .mark '?' :: (M ++ .mark ':' :: N)) .choice
      (.conditional default e yes no) := by
  intro T rest hspell
  obtain ⟨T, question, _, rfl, hT, hbranches⟩ := hspell.of_append_mark
  obtain ⟨U, colon, V, rfl, hU, hV⟩ := hbranches.of_append_mark
  obtain ⟨t, ht, hbound, rfl⟩ := h T [⟨.mark '?', question⟩] hT
  obtain ⟨yes', hyes', rfl⟩ := hyes U [⟨.mark ':', colon⟩] hU
  obtain ⟨no', hno', rfl⟩ := hno V rest hV
  exact ⟨_, .choice ht hbound hyes' hno', rfl⟩

theorem placed_operation {op : BinaryOp} (hoperand : Placed L .operand e)
    (hsteps : Placed M .operations steps) :
    Placed (.operator op :: (L ++ M)) .operations ((op, e) :: steps) := by
  intro U T rest t hspell ht
  obtain _ | @⟨_, _, S, _, hop, hothers⟩ := hspell
  obtain ⟨T, V, rfl, hT, hV⟩ := hothers.of_append
  rw [List.append_assoc, startOf_operator hop] at ht
  obtain ⟨e', he', rfl⟩ := hoperand T (V ++ rest) hT
  obtain ⟨steps', hsteps', rfl⟩ := hsteps _ V rest _ hV (phrased_attach hop he' ht)
  refine ⟨(op, e') :: steps', ?_, rfl⟩
  simpa using hsteps'

theorem placed_unary {op : UnaryOp} (h : Placed L .operand e) :
    Placed (.mark op.mark :: L) .operand (applyUnary default op e) := by
  intro T rest hspell
  obtain ⟨span, T, rfl, hT⟩ := hspell.of_mark
  obtain ⟨e', he', rfl⟩ := h T rest hT
  -- The operator is one more in front of those of the operand; only the places differ.
  cases he' with
  | @operand ops O T _ stop e hO hchain =>
    have hmarked := @Phrased.operand (op :: ops) (⟨.mark op.mark, span⟩ :: O) T _ stop e
      (.mark hO) hchain
    refine ⟨_, hmarked, ?_⟩
    rw [bare_foldr_applyUnary, bare_foldr_applyUnary]
    rfl

theorem placed_operand (h : Placed L .primary e) (hsuffixes : Placed M (.suffixes e) out) :
    Placed (L ++ M) .operand out := by
  intro T rest hspell
  obtain ⟨T, U, rfl, hT, hU⟩ := hspell.of_append
  obtain ⟨e', he', hbare⟩ := h T (startOf (U ++ rest)) hT
  obtain ⟨out', stop, hout, rfl⟩ := hsuffixes T U rest e' none hU (.first he') hbare
  exact ⟨out', @Phrased.operand [] [] _ _ stop out' .nil hout, rfl⟩

theorem placed_field (h : Placed L (.suffixes (.select default e name)) out) :
    Placed (.mark '.' :: .word name :: L) (.suffixes e) out := by
  intro U T rest target stop hspell ht hbare
  obtain ⟨dot, _, rfl, hword⟩ := hspell.of_mark
  obtain ⟨word, T, rfl, hT⟩ := hword.of_word
  have hfield : Phrased .chain (U ++ [⟨.mark '.', dot⟩, ⟨.word name, word⟩]) (startOf (T ++ rest))
      (.select (target.span.merge word) target name, some word.stop) := .field ht
  obtain ⟨e', stop', he', rfl⟩ := h _ T rest _ _ hT hfield (by rw [Expr.bare, hbare])
  exact ⟨e', stop', by simpa using he', rfl⟩

theorem placed_method {args : List Expr} (hargs : Placed L .items args)
    (h : Placed M (.suffixes (.call default (some e) name args)) out) :
    Placed (.mark '.' :: .word name :: .mark '(' :: (L ++ .mark ')' :: M)) (.suffixes e) out := by
  intro U T rest target stop hspell ht hbare
  obtain ⟨dot, _, rfl, hword⟩ := hspell.of_mark
  obtain ⟨word, _, rfl, hopen⟩ := hword.of_word
  obtain ⟨left, _, rfl, hcall⟩ := hopen.of_mark
  obtain ⟨V, right, T, rfl, hV, hT⟩ := hcall.of_append_mark
  obtain ⟨args', hargs', rfl⟩ := hargs V [⟨.mark ')', right⟩] hV
  have hmethod : Phrased .chain (U ++ ⟨.mark '.', dot⟩ :: ⟨.word name, word⟩ :: ⟨.mark '(', left⟩ ::
      (V ++ [⟨.mark ')', right⟩])) (startOf (T ++ rest))
      (.call (target.span.merge ⟨word.start, right.stop⟩) (some target) name args',
        some right.stop) := .method ht hargs'
  obtain ⟨e', stop', he', rfl⟩ := h _ T rest _ _ hT hmethod
    (by rw [Expr.bare, Expr.bareOptional, hbare])
  exact ⟨e', stop', by simpa using he', rfl⟩

theorem placed_index {i : Expr} (hi : Placed L .choice i)
    (h : Placed M (.suffixes (.index default e i)) out) :
    Placed (.mark '[' :: (L ++ .mark ']' :: M)) (.suffixes e) out := by
  intro U T rest target stop hspell ht hbare
  obtain ⟨left, _, rfl, hbody⟩ := hspell.of_mark
  obtain ⟨V, right, T, rfl, hV, hT⟩ := hbody.of_append_mark
  obtain ⟨i', hi', rfl⟩ := hi V [⟨.mark ']', right⟩] hV
  obtain ⟨e', stop', he', rfl⟩ := h _ T rest _ _ hT (.index ht hi') (by rw [Expr.bare, hbare])
  exact ⟨e', stop', by simpa using he', rfl⟩

theorem placed_call {args : List Expr} (h : name ∉ keywords) (hargs : Placed L .items args) :
    Placed (.word name :: .mark '(' :: (L ++ [.mark ')'])) .primary
      (.call default none name args) := by
  intro T next hspell
  obtain ⟨word, _, rfl, hopen⟩ := hspell.of_word
  obtain ⟨left, U, right, rfl, hU⟩ := hopen.of_enclosed
  obtain ⟨args', hargs', rfl⟩ := hargs U [⟨.mark ')', right⟩] hU
  exact ⟨_, .call h hargs', rfl⟩

theorem placed_group (h : Placed L .choice e) :
    Placed (.mark '(' :: (L ++ [.mark ')'])) .primary e := by
  intro T next hT
  obtain ⟨left, U, right, rfl, hU⟩ := hT.of_enclosed
  obtain ⟨e', he', rfl⟩ := h U [⟨.mark ')', right⟩] hU
  exact ⟨e', .group he', rfl⟩

theorem placed_list {es : List Expr} (h : Placed L .items es) :
    Placed (.mark '[' :: (L ++ [.mark ']'])) .primary (.list default es) := by
  intro T next hT
  obtain ⟨left, U, right, rfl, hU⟩ := hT.of_enclosed
  obtain ⟨es', hes', rfl⟩ := h U [⟨.mark ']', right⟩] hU
  exact ⟨_, .list hes', rfl⟩

theorem placed_dict {entries : List (Expr × Expr)} (h : Placed L .entries entries) :
    Placed (.mark '\x7b' :: (L ++ [.mark '\x7d'])) .primary (.dict default entries) := by
  intro T next hT
  obtain ⟨left, U, right, rfl, hU⟩ := hT.of_enclosed
  obtain ⟨entries', hentries', rfl⟩ := h U [⟨.mark '\x7d', right⟩] hU
  exact ⟨_, .dict hentries', rfl⟩

theorem placed_item {es : List Expr} (h : Placed L .choice e) (hitems : Placed M .items es) :
    Placed (L ++ .mark ',' :: M) .items (e :: es) := by
  intro T rest hspell
  obtain ⟨T, comma, U, rfl, hT, hU⟩ := hspell.of_append_mark
  obtain ⟨e', he', rfl⟩ := h T [⟨.mark ',', comma⟩] hT
  obtain ⟨es', hes', rfl⟩ := hitems U rest hU
  exact ⟨e' :: es', .more (.item he') hes', rfl⟩

/-- A key and its value. -/
theorem placed_key (hkey : Placed K .choice key) (h : Placed L .choice e) {T : List Token}
    (hspell : Spells (K ++ .mark ':' :: L) T) (rest : List Token) :
    ∃ key' e', Phrased (.element .entry) T (startOf rest) (key', e') ∧ key'.bare = key ∧
      e'.bare = e := by
  obtain ⟨T, colon, U, rfl, hT, hU⟩ := hspell.of_append_mark
  obtain ⟨key', hkey', hbareKey⟩ := hkey T [⟨.mark ':', colon⟩] hT
  obtain ⟨e', he', hbare⟩ := h U rest hU
  exact ⟨key', e', .entry hkey' he', hbareKey, hbare⟩

theorem placed_lastEntry (hkey : Placed K .choice key) (h : Placed L .choice e) :
    Placed (K ++ .mark ':' :: L) .entries [(key, e)] := by
  intro T rest hT
  obtain ⟨key', e', hentry, rfl, rfl⟩ := placed_key hkey h hT rest
  exact ⟨[(key', e')], .last hentry, rfl⟩

theorem placed_entry {entries : List (Expr × Expr)} (hkey : Placed K .choice key)
    (h : Placed L .choice e) (hentries : Placed M .entries entries) :
    Placed (K ++ .mark ':' :: (L ++ .mark ',' :: M)) .entries ((key, e) :: entries) := by
  intro T rest hspell
  have hsplit : Spells ((K ++ .mark ':' :: L) ++ .mark ',' :: M) T := by simpa using hspell
  obtain ⟨T, comma, U, rfl, hT, hU⟩ := hsplit.of_append_mark
  obtain ⟨key', e', hentry, rfl, rfl⟩ := placed_key hkey h hT [⟨.mark ',', comma⟩]
  obtain ⟨entries', hentries', rfl⟩ := hentries U rest hU
  exact ⟨(key', e') :: entries', .more hentry hentries', rfl⟩

end Rules

/-- **Tokens that spell what is derived are a phrase of it, up to places.** -/
theorem derives_placed {c : Category} {L : List Lexeme} {r : c.Result} (h : Derives c L r) :
    Placed L c r := by
  induction h with
  | plain _ ih =>
    intro T rest hT
    obtain ⟨t, ht, hbound, hbare⟩ := ih T rest hT
    exact ⟨_, .plain ht hbound, hbare⟩
  | choice _ _ _ ih ihyes ihno => exact placed_choice ih ihyes ihno
  | sequence _ _ ih ihsteps => exact placed_sequence ih ihsteps
  | noOperations =>
    intro U T rest t hT ht
    obtain rfl := hT.of_nil
    exact ⟨[], by rwa [List.append_nil], rfl⟩
  | operation _ _ ih ihsteps => exact placed_operation ih ihsteps
  | unary _ ih => exact placed_unary ih
  | operand _ _ ih ihsuffixes => exact placed_operand ih ihsuffixes
  | whole =>
    intro U T rest target stop hT ht hbare
    obtain rfl := hT.of_nil
    exact ⟨target, stop, by rwa [List.append_nil], hbare⟩
  | field _ ih => exact placed_field ih
  | method _ _ ihargs ih => exact placed_method ihargs ih
  | index _ _ ihindex ih => exact placed_index ihindex ih
  | number | string =>
    intro T next hT
    obtain _ | ⟨hl, hnil⟩ := hT
    cases hl
    cases hnil
    exact ⟨_, .constant rfl, rfl⟩
  | bool b =>
    intro T next hT
    obtain ⟨word, U, rfl, hU⟩ := hT.of_word
    obtain rfl := hU.of_nil
    exact ⟨.literal word (.bool b), .constant (by cases b <;> rfl), rfl⟩
  | null =>
    intro T next hT
    obtain ⟨word, U, rfl, hU⟩ := hT.of_word
    obtain rfl := hU.of_nil
    exact ⟨_, .constant rfl, rfl⟩
  | name h =>
    intro T next hT
    obtain ⟨word, U, rfl, hU⟩ := hT.of_word
    obtain rfl := hU.of_nil
    exact ⟨_, .name h, rfl⟩
  | call h _ ih => exact placed_call h ih
  | group _ ih => exact placed_group ih
  | list _ ih => exact placed_list ih
  | dict _ ih => exact placed_dict ih
  | noItems =>
    intro T rest hT
    obtain rfl := hT.of_nil
    exact ⟨[], .none, rfl⟩
  | lastItem _ ih =>
    intro T rest hT
    obtain ⟨e', he', rfl⟩ := ih T rest hT
    exact ⟨[e'], .last (.item he'), rfl⟩
  | item _ _ ih ihitems => exact placed_item ih ihitems
  | noEntries =>
    intro T rest hT
    obtain rfl := hT.of_nil
    exact ⟨[], .none, rfl⟩
  | lastEntry _ _ ihkey ih => exact placed_lastEntry ihkey ih
  | entry _ _ _ ihkey ih ihentries => exact placed_entry ihkey ih ihentries

/-! ## The whole text -/

/-- **The tokens of a text are read as a tree exactly if they are spelled by lexemes that the
grammar derives with that tree.** -/
theorem readAll_iff {tokens : List Token} {e : Expr} :
    (∃ e', readAll tokens = .ok e' ∧ e'.bare = e) ↔
      ∃ L T span, tokens = T ++ [⟨.finish, span⟩] ∧ Spells L T ∧ Derives .choice L e := by
  constructor
  · rintro ⟨e', h, rfl⟩
    obtain ⟨T, span, htokens, hphrased⟩ := readAll_eq_ok.mp h
    obtain ⟨L, hT, hL⟩ := phrased_derived hphrased
    exact ⟨L, T, span, htokens, hT, hL⟩
  · rintro ⟨L, T, span, rfl, hT, hL⟩
    have hplaced : Placed L .choice e := derives_placed hL
    obtain ⟨e', he', hbare⟩ := hplaced T [⟨.finish, span⟩] hT
    exact ⟨e', readAll_phrased he', hbare⟩

end JsonTemplate.Reader
