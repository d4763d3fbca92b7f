/-
The grammar of tokens with their places. `Phrased` says which tokens are an expression, or a part of
one, and of which tree with which spans. A tree may span up to the token after its own, so the start
of that token is given too. What follows an operand is put after it, and operators stand over the
trees of their sides, so each node of a tree has tokens of its own in a row. All that the reader
takes is phrased (`expression_phrased`).
-/
import JsonTemplate.Proofs.Reading

namespace JsonTemplate.Reader

/-! ## Rules -/

/-- What stands between the commas of a list, of a call or of a dictionary. -/
inductive Element
  | item
  | entry

/-- What an element stands for. -/
@[reducible] def Element.Result : Element → Type
  | item => Expr
  | entry => Expr × Expr

/-- What tokens in a row may be: `tree` is a sequence of operators and operands, and `chain` an
operand without the operators before it. -/
inductive Phrase
  | choice
  | tree
  | operand
  | chain
  | primary
  | element (el : Element)
  | elements (el : Element)

/-- What a phrase stands for. A chain also has the end of what was put after it last. -/
@[reducible] def Phrase.Result : Phrase → Type
  | choice | operand | primary => Expr
  | tree => OpTree Expr
  | chain => Expr × Option Nat
  | element el => el.Result
  | elements el => List el.Result

/-- The trees at the top of what an element stands for. -/
def Element.trees : (el : Element) → el.Result → List Expr
  | item, e => [e]
  | entry, a => [Prod.fst a, Prod.snd a]

/-- The trees at the top of what a phrase stands for. -/
def Phrase.trees : (p : Phrase) → p.Result → List Expr
  | choice, e | operand, e | primary, e | chain, (e, _) => [e]
  | tree, t => [OpTree.toExpr t]
  | element el, a => el.trees a
  | elements el, as => as.flatMap el.trees

theorem Phrase.trees_items (es : List Expr) : (elements .item).trees es = es :=
  List.flatMap_singleton' es

/-- The constant that a token is. -/
def constant? : Token.Form → Option Literal
  | .number value => some (.number value)
  | .string body => some (.string (String.ofList (Escape.decode body)))
  | .word "true" => some (.bool true)
  | .word "false" => some (.bool false)
  | .word "null" => some .null
  | _ => none

/-- The lexemes of operators before an operand. -/
abbrev prefixed (ops : List UnaryOp) : List Lexeme := ops.map fun op => .mark op.mark

/-- Tokens in a row are a phrase and stand for a tree, or for a list of them. The token after them
starts at the given place. -/
inductive Phrased : (p : Phrase) → List Token → Nat → p.Result → Prop
  | plain {T next} {t : OpTree Expr} : Phrased .tree T next t → t.WellBound →
      Phrased .choice T next t.toExpr
  | choice {T U V q c next} {t : OpTree Expr} {yes no : Expr} : Phrased .tree T q.start t →
      t.WellBound → Phrased .choice U c.start yes → Phrased .choice V next no →
      Phrased .choice (T ++ ⟨.mark '?', q⟩ :: (U ++ ⟨.mark ':', c⟩ :: V)) next
        (.conditional ⟨startOf T, next⟩ t.toExpr yes no)
  | leaf {T next} {e : Expr} : Phrased .operand T next e → Phrased .tree T next (.operand e)
  | node {T S U next op} {l r : OpTree Expr} : Phrased .tree T (startOf S) l →
      (Lexeme.operator op).Tokens S → Phrased .tree U next r →
      Phrased .tree (T ++ (S ++ U)) next (.node l op r)
  | operand {ops O T next stop} {e : Expr} : Spells (prefixed ops) O →
      Phrased .chain T next (e, stop) → Phrased .operand (O ++ T) next
        (ops.foldr (applyUnary ⟨startOf (O ++ T), stop.getD next⟩) e)
  | first {T next} {e : Expr} : Phrased .primary T next e → Phrased .chain T next (e, none)
  | field {T next stop dot word name} {e : Expr} : Phrased .chain T dot.start (e, stop) →
      Phrased .chain (T ++ [⟨.mark '.', dot⟩, ⟨.word name, word⟩]) next
        (.select (e.span.merge word) e name, some word.stop)
  | method {T U next stop dot word l r name} {e : Expr} {args : List Expr} :
      Phrased .chain T dot.start (e, stop) → Phrased (.elements .item) U r.start args →
      Phrased .chain
        (T ++ ⟨.mark '.', dot⟩ :: ⟨.word name, word⟩ :: ⟨.mark '(', l⟩ :: (U ++ [⟨.mark ')', r⟩]))
        next (.call (e.span.merge ⟨word.start, r.stop⟩) (some e) name args, some r.stop)
  | index {T U next stop l r} {e i : Expr} : Phrased .chain T l.start (e, stop) →
      Phrased .choice U r.start i →
      Phrased .chain (T ++ ⟨.mark '[', l⟩ :: (U ++ [⟨.mark ']', r⟩])) next
        (.index (e.span.merge ⟨l.start, r.stop⟩) e i, some r.stop)
  | constant {form v span next} : constant? form = some v →
      Phrased .primary [⟨form, span⟩] next (.literal span v)
  | name {name span next} : name ∉ keywords →
      Phrased .primary [⟨.word name, span⟩] next (.ident span name)
  | call {U next word l r name} {args : List Expr} : name ∉ keywords →
      Phrased (.elements .item) U r.start args →
      Phrased .primary (⟨.word name, word⟩ :: ⟨.mark '(', l⟩ :: (U ++ [⟨.mark ')', r⟩])) next
        (.call ⟨word.start, r.stop⟩ none name args)
  | group {U next l r} {e : Expr} : Phrased .choice U r.start e →
      Phrased .primary (⟨.mark '(', l⟩ :: (U ++ [⟨.mark ')', r⟩])) next e
  | list {U next l r} {es : List Expr} : Phrased (.elements .item) U r.start es →
      Phrased .primary (⟨.mark '[', l⟩ :: (U ++ [⟨.mark ']', r⟩])) next (.list ⟨l.start, r.stop⟩ es)
  | dict {U next l r} {entries : List (Expr × Expr)} :
      Phrased (.elements .entry) U r.start entries →
      Phrased .primary (⟨.mark '\x7b', l⟩ :: (U ++ [⟨.mark '\x7d', r⟩])) next
        (.dict ⟨l.start, r.stop⟩ entries)
  | item {T next} {e : Expr} : Phrased .choice T next e → Phrased (.element .item) T next e
  | entry {T U next c} {key e : Expr} : Phrased .choice T c.start key → Phrased .choice U next e →
      Phrased (.element .entry) (T ++ ⟨.mark ':', c⟩ :: U) next (key, e)
  | none {el next} : Phrased (.elements el) [] next []
  | last {el T next} {a : el.Result} : Phrased (.element el) T next a →
      Phrased (.elements el) T next [a]
  | more {el T U next c} {a : el.Result} {as : List el.Result} :
      Phrased (.element el) T c.start a → Phrased (.elements el) U next as →
      Phrased (.elements el) (T ++ ⟨.mark ',', c⟩ :: U) next (a :: as)

theorem span_applyUnary (span : Span) (op : UnaryOp) (e : Expr) :
    (applyUnary span op e).span = span := by
  unfold applyUnary
  split <;> rfl

/-! ## The first token -/

/-- The first token is there, and if it is a mark it is one of the given ones. -/
inductive StartsWith (marks : List Char) : List Token → Prop
  | cons {token rest} : (∀ c, token.form = .mark c → c ∈ marks) → StartsWith marks (token :: rest)

theorem StartsWith.ne_nil {marks : List Char} {T : List Token} (h : StartsWith marks T) :
    T ≠ [] := by
  cases h with
  | cons _ => exact List.cons_ne_nil _ _

theorem StartsWith.append {marks : List Char} {T : List Token} (h : StartsWith marks T)
    (U : List Token) : StartsWith marks (T ++ U) := by
  cases h with
  | cons h => exact .cons h

theorem StartsWith.mono {marks marks' : List Char} {T : List Token} (h : StartsWith marks T)
    (hmarks : marks ⊆ marks') : StartsWith marks' T := by
  cases h with
  | cons h => exact .cons fun c hc => hmarks (h c hc)

theorem StartsWith.startOf_append {marks : List Char} {T : List Token} (h : StartsWith marks T)
    (U : List Token) : startOf (T ++ U) = startOf T := by
  cases h with
  | cons _ => rfl

theorem StartsWith.ahead_ne {marks : List Char} {T : List Token} {c : Char}
    (h : StartsWith marks T) (U : List Token) (hc : c ∉ marks) :
    ahead (T ++ U) ≠ some (.mark c) := by
  cases h with
  | cons h =>
    rintro hahead
    exact hc (h c (Option.some.inj hahead))

/-- What the phrases other than a list of elements start with. -/
def Phrase.Starts : Phrase → List Token → Prop
  | chain | primary => StartsWith brackets
  | choice | tree | operand | element _ => StartsWith openers
  | elements _ => fun _ => True

/-- A phrase of expressions starts as an expression does. -/
theorem Phrased.starts {p : Phrase} {T : List Token} {next : Nat} {r : p.Result}
    (h : Phrased p T next r) : p.Starts T := by
  induction h with
  | plain _ _ ih | leaf _ ih | first _ ih | item _ ih => exact ih
  | choice _ _ _ _ ih _ _ | node _ _ _ ih _ | field _ ih | method _ _ ih _ | index _ _ ih _
  | entry _ _ ih _ => exact ih.append _
  | @operand ops _ _ _ _ _ hops _ ih =>
    cases ops with
    | nil =>
      rw [hops.of_nil]
      exact ih.mono (by decide)
    | cons op ops =>
      obtain ⟨span, O, rfl, -⟩ := hops.of_mark
      refine .cons ?_
      rintro c ⟨⟩
      cases op <;> decide
  | constant hform =>
    refine .cons ?_
    rintro c rfl
    cases hform
  | name _ | call _ _ _ => exact .cons nofun
  | group _ _ | list _ _ | dict _ _ =>
    refine .cons ?_
    rintro c ⟨⟩
    decide
  | none | last _ _ | more _ _ _ _ => trivial

theorem startOf_operator {op : BinaryOp} {S : List Token} (h : (Lexeme.operator op).Tokens S)
    (rest : List Token) : startOf (S ++ rest) = startOf S := by
  cases h <;> rfl

theorem length_operator {op : BinaryOp} {S : List Token} (h : (Lexeme.operator op).Tokens S) :
    0 < S.length := by
  cases h <;> simp

/-! ## What is taken is phrased -/

/-- What a reader takes from the front of the tokens is a phrase. -/
def TakesPhrase (p : Phrase) (read : Reads p.Result) : Prop :=
  ∀ {tokens a rest}, read tokens = .ok (a, rest) →
    ∃ T, tokens = T ++ rest ∧ Phrased p T (startOf rest) a

/-- Elements up to their closing mark, with the end of that. -/
theorem items_phrased {el : Element} {item : Reads el.Result} {close : Char}
    (hitem : TakesPhrase (.element el) item) (budget : List Token) :
    ∀ {tokens rest : List Token} {as : List el.Result} {stop : Nat},
      items item close budget tokens = .ok ((as, stop), rest) →
        ∃ T right, tokens = T ++ ⟨.mark close, right⟩ :: rest ∧ stop = right.stop ∧
          Phrased (.elements el) T right.start as := by
  induction budget with
  | nil =>
    intro tokens rest as stop h
    cases h
  | cons _ budget ih =>
    intro tokens rest as stop h
    rw [items] at h
    split at h
    · -- The closing mark is next.
      rename_i hclose
      cases h
      obtain ⟨span, rfl, rfl⟩ := mark_ok hclose
      exact ⟨[], span, rfl, rfl, .none⟩
    · rw [bind_eq_ok] at h
      obtain ⟨⟨first, after⟩, hfirst, h⟩ := h
      obtain ⟨T, rfl, hT⟩ := hitem hfirst
      dsimp only at h
      split at h
      · -- A comma is next, and more elements.
        rename_i hcomma
        obtain ⟨comma, rfl, -⟩ := mark_ok hcomma
        rw [bind_eq_ok] at h
        obtain ⟨⟨⟨others, stop⟩, after⟩, hothers, h⟩ := h
        cases h
        obtain ⟨U, right, rfl, rfl, hU⟩ := ih hothers
        exact ⟨T ++ ⟨.mark ',', comma⟩ :: U, right, by simp, rfl, .more hT hU⟩
      · -- The element was the last one.
        rw [bind_eq_ok] at h
        obtain ⟨⟨stop, after⟩, hclose, h⟩ := h
        cases h
        obtain ⟨right, rfl, rfl⟩ := mark_ok hclose
        exact ⟨T, right, rfl, rfl, .last hT⟩

/-- One more operator with its right side goes down the right edge. -/
theorem phrased_attach {op : BinaryOp} {S U : List Token} {next : Nat} {e : Expr}
    (hS : (Lexeme.operator op).Tokens S) (hU : Phrased .operand U next e) {t : OpTree Expr} :
    ∀ {T : List Token}, Phrased .tree T (startOf S) t →
      Phrased .tree (T ++ (S ++ U)) next (t.attach op e) := by
  induction t with
  | operand a =>
    intro T hT
    exact .node hT hS (.leaf hU)
  | node l o r _ ih =>
    intro T hT
    by_cases ho : o.level < op.level
    · cases hT with
      | node hl hO hr =>
        simp only [OpTree.attach, if_pos ho, List.append_assoc]
        exact .node hl hO (ih hr)
    · simp only [OpTree.attach, if_neg ho]
      exact .node hT hS (.leaf hU)

section Parts

variable {sub : Reads Expr} (hsub : TakesPhrase .choice sub)
include hsub

theorem item_phrased : TakesPhrase (.element .item) sub := by
  intro tokens e rest h
  obtain ⟨T, rfl, hT⟩ := hsub h
  exact ⟨T, rfl, .item hT⟩

theorem entry_phrased : TakesPhrase (.element .entry) (entry sub) := by
  intro tokens found rest h
  simp only [entry, bind_eq_ok] at h
  obtain ⟨⟨key, after⟩, hkey, ⟨stop, after'⟩, hcolon, ⟨value, after''⟩, hvalue, h⟩ := h
  cases h
  obtain ⟨T, rfl, hT⟩ := hsub hkey
  obtain ⟨colon, rfl, -⟩ := mark_ok hcolon
  obtain ⟨U, rfl, hU⟩ := hsub hvalue
  exact ⟨T ++ ⟨.mark ':', colon⟩ :: U, by simp, .entry hT hU⟩

/-- Items up to the closing mark of a list or of a call. -/
theorem args_phrased {close : Char} {budget tokens rest : List Token} {es : List Expr} {stop : Nat}
    (h : items sub close budget tokens = .ok ((es, stop), rest)) : ∃ T right,
      tokens = T ++ ⟨.mark close, right⟩ :: rest ∧ stop = right.stop ∧
        Phrased (.elements .item) T right.start es :=
  @items_phrased .item sub close (item_phrased hsub) budget tokens rest es stop h

theorem entries_phrased {budget tokens rest : List Token} {entries : List (Expr × Expr)}
    {stop : Nat} (h : items (entry sub) '\x7d' budget tokens = .ok ((entries, stop), rest)) :
    ∃ T right, tokens = T ++ ⟨.mark '\x7d', right⟩ :: rest ∧ stop = right.stop ∧
      Phrased (.elements .entry) T right.start entries :=
  @items_phrased .entry (entry sub) '\x7d' (entry_phrased hsub) budget tokens rest entries stop h

/-- An operand that starts with a word: a literal, a name or a call. -/
theorem primary_word_phrased {name : String} {span : Span} {others : List Token} {e : Expr}
    {rest : List Token} (h : primary sub (⟨.word name, span⟩ :: others) = .ok (e, rest)) :
    ∃ T, ⟨.word name, span⟩ :: others = T ++ rest ∧ Phrased .primary T (startOf rest) e := by
  by_cases hkeyword : name ∈ keywords
  · rcases keyword_cases hkeyword with rfl | ⟨b, rfl⟩
    · rw [primary_null] at h
      cases h
      exact ⟨[⟨.word "null", span⟩], rfl, .constant rfl⟩
    · rw [primary_bool] at h
      cases h
      exact ⟨[⟨.word _, span⟩], rfl, .constant (by cases b <;> rfl)⟩
  · by_cases hopen : ahead others = some (.mark '(')
    · obtain _ | ⟨⟨_, left⟩, others⟩ := others
      · cases hopen
      · cases hopen
        rw [primary_call sub span others hkeyword, bind_eq_ok] at h
        obtain ⟨⟨⟨args, stop⟩, after⟩, hargs, h⟩ := h
        cases h
        obtain ⟨U, right, rfl, rfl, hU⟩ := args_phrased hsub hargs
        exact ⟨⟨.word name, span⟩ :: ⟨.mark '(', left⟩ :: (U ++ [⟨.mark ')', right⟩]), by simp,
          .call hkeyword hU⟩
    · rw [primary_name sub span hkeyword hopen] at h
      cases h
      exact ⟨[⟨.word name, span⟩], rfl, .name hkeyword⟩

/-- An operand that starts with a mark: a group, a list or a dictionary. -/
theorem primary_mark_phrased {c : Char} {span : Span} {others : List Token} {e : Expr}
    {rest : List Token} (h : primary sub (⟨.mark c, span⟩ :: others) = .ok (e, rest)) :
    ∃ T, ⟨.mark c, span⟩ :: others = T ++ rest ∧ Phrased .primary T (startOf rest) e := by
  rw [primary_mark] at h
  by_cases hgroup : c = '('
  · subst hgroup
    simp only [↓reduceIte, bind_eq_ok] at h
    obtain ⟨⟨inner, after⟩, hinner, ⟨stop, after'⟩, hclose, h⟩ := h
    cases h
    obtain ⟨U, rfl, hU⟩ := hsub hinner
    obtain ⟨right, rfl, -⟩ := mark_ok hclose
    exact ⟨⟨.mark '(', span⟩ :: (U ++ [⟨.mark ')', right⟩]), by simp, .group hU⟩
  rw [if_neg hgroup] at h
  by_cases hlist : c = '['
  · subst hlist
    simp only [↓reduceIte, bind_eq_ok] at h
    obtain ⟨⟨⟨elements, stop⟩, after⟩, helements, h⟩ := h
    cases h
    obtain ⟨U, right, rfl, rfl, hU⟩ := args_phrased hsub helements
    exact ⟨⟨.mark '[', span⟩ :: (U ++ [⟨.mark ']', right⟩]), by simp, .list hU⟩
  rw [if_neg hlist] at h
  by_cases hdict : c = '\x7b'
  · subst hdict
    simp only [↓reduceIte, bind_eq_ok] at h
    obtain ⟨⟨⟨entries, stop⟩, after⟩, hentries, h⟩ := h
    cases h
    obtain ⟨U, right, rfl, rfl, hU⟩ := entries_phrased hsub hentries
    exact ⟨⟨.mark '\x7b', span⟩ :: (U ++ [⟨.mark '\x7d', right⟩]), by simp, .dict hU⟩
  rw [if_neg hdict] at h
  cases h

theorem primary_phrased : TakesPhrase .primary (primary sub) := by
  intro tokens e rest h
  obtain _ | ⟨⟨form, span⟩, others⟩ := tokens
  · cases h
  · cases form with
    | number n =>
      cases h
      exact ⟨[⟨.number n, span⟩], rfl, .constant rfl⟩
    | string body =>
      cases h
      exact ⟨[⟨.string body, span⟩], rfl, .constant rfl⟩
    | word name => exact primary_word_phrased hsub h
    | mark c => exact primary_mark_phrased hsub h
    | finish => cases h

/-- What follows a dot, put after what stands before it. -/
theorem member_phrased {T : List Token} {dot : Span} {target : Expr} {stop : Option Nat}
    (hT : Phrased .chain T dot.start (target, stop)) {tokens rest : List Token}
    {found : Expr} {stop' : Nat} (h : member sub target tokens = .ok ((found, stop'), rest)) :
    ∃ U, tokens = U ++ rest ∧
      Phrased .chain (T ++ ⟨.mark '.', dot⟩ :: U) (startOf rest) (found, some stop') := by
  unfold member at h
  split at h
  · rename_i name span others
    split at h
    · -- a call
      rename_i hopen
      obtain ⟨left, rfl, -⟩ := mark_ok hopen
      rw [bind_eq_ok] at h
      obtain ⟨⟨⟨args, stop⟩, after⟩, hargs, h⟩ := h
      cases h
      obtain ⟨U, right, rfl, rfl, hU⟩ := args_phrased hsub hargs
      exact ⟨⟨.word name, span⟩ :: ⟨.mark '(', left⟩ :: (U ++ [⟨.mark ')', right⟩]), by simp,
        .method hT hU⟩
    · -- a field
      cases h
      exact ⟨[⟨.word name, span⟩], rfl, .field hT⟩
  · cases h

/-- Selections, indices and calls, put after what stands before them. -/
theorem postfixes_phrased (budget : List Token) : ∀ {T tokens rest : List Token} {target e : Expr}
    {stop stop' : Option Nat}, Phrased .chain T (startOf tokens) (target, stop) →
      postfixes sub target stop budget tokens = .ok ((e, stop'), rest) →
        ∃ U, tokens = U ++ rest ∧ Phrased .chain (T ++ U) (startOf rest) (e, stop') := by
  induction budget with
  | nil =>
    intro T tokens rest target e stop stop' hT h
    cases h
    exact ⟨[], rfl, by rwa [List.append_nil]⟩
  | cons _ budget ih =>
    intro T tokens rest target e stop stop' hT h
    rw [postfixes] at h
    split at h
    · rename_i hdot
      obtain ⟨dot, rfl, -⟩ := mark_ok hdot
      rw [bind_eq_ok] at h
      obtain ⟨⟨⟨selected, end'⟩, after⟩, hmember, h⟩ := h
      obtain ⟨U, rfl, hU⟩ := member_phrased hsub hT hmember
      obtain ⟨V, rfl, hV⟩ := ih hU h
      exact ⟨⟨.mark '.', dot⟩ :: (U ++ V), by simp, by simpa using hV⟩
    · split at h
      · rename_i hopen
        obtain ⟨left, rfl, -⟩ := mark_ok hopen
        simp only [bind_eq_ok] at h
        obtain ⟨⟨i, after⟩, hi, ⟨end', after'⟩, hclose, h⟩ := h
        obtain ⟨U, rfl, hU⟩ := hsub hi
        obtain ⟨right, rfl, rfl⟩ := mark_ok hclose
        obtain ⟨V, rfl, hV⟩ := ih (.index hT hU) h
        exact ⟨⟨.mark '[', left⟩ :: (U ++ ⟨.mark ']', right⟩ :: V), by simp, by simpa using hV⟩
      · cases h
        exact ⟨[], rfl, by rwa [List.append_nil]⟩

theorem operand_phrased : TakesPhrase .operand (operand sub) := by
  intro tokens e rest h
  obtain ⟨ops, after, first, middle, whole, stop, hops, hfirst, hwhole, rfl⟩ :=
    operand_eq_ok.mp h
  obtain ⟨O, htokens, hO⟩ := unaryOps_takes tokens
  rw [hops] at htokens hO
  obtain ⟨T, rfl, hT⟩ := primary_phrased hsub hfirst
  obtain ⟨U, rfl, hU⟩ := postfixes_phrased hsub _ (.first hT) hwhole
  have hphrased := Phrased.operand hO hU
  have hstart : startOf tokens = startOf (O ++ (T ++ U)) := by
    rw [htokens, ← hphrased.starts.startOf_append rest]
    simp
  rw [hstart]
  exact ⟨O ++ (T ++ U), by simp [htokens], hphrased⟩

theorem operations_phrased (budget : List Token) : ∀ {T tokens rest : List Token}
    {steps : List (BinaryOp × Expr)} {t : OpTree Expr}, Phrased .tree T (startOf tokens) t →
      operations sub budget tokens = .ok (steps, rest) → ∃ U, tokens = U ++ rest ∧
        Phrased .tree (T ++ U) (startOf rest)
          (steps.foldl (fun tree (op, value) => tree.attach op value) t) := by
  induction budget with
  | nil =>
    intro T tokens rest steps t hT h
    cases h
    exact ⟨[], rfl, by rwa [List.append_nil]⟩
  | cons _ budget ih =>
    intro T tokens rest steps t hT h
    rw [operations] at h
    split at h
    · cases h
      exact ⟨[], rfl, by rwa [List.append_nil]⟩
    · rename_i op after hop
      simp only [bind_eq_ok] at h
      obtain ⟨⟨right, after'⟩, hright, ⟨others, after''⟩, hothers, h⟩ := h
      cases h
      obtain ⟨S, rfl, hS⟩ := operator?_takes hop
      obtain ⟨U, rfl, hU⟩ := operand_phrased hsub hright
      rw [startOf_operator hS] at hT
      obtain ⟨V, rfl, hV⟩ := ih (phrased_attach hS hU hT) hothers
      exact ⟨S ++ (U ++ V), by simp, by simpa using hV⟩

theorem sequence_phrased {tokens rest : List Token} {e : Expr}
    (h : sequence sub tokens = .ok (e, rest)) : ∃ T t, tokens = T ++ rest ∧
      Phrased .tree T (startOf rest) t ∧ t.WellBound ∧ e = t.toExpr := by
  simp only [sequence, bind_eq_ok] at h
  obtain ⟨⟨first, after⟩, hfirst, ⟨others, after'⟩, hothers, h⟩ := h
  cases h
  obtain ⟨T, rfl, hT⟩ := operand_phrased hsub hfirst
  obtain ⟨U, rfl, hU⟩ := operations_phrased hsub _ (.leaf hT) hothers
  exact ⟨T ++ U, _, by simp, hU, OpTree.ofSequence_wellBound first others, rfl⟩

theorem choice_phrased : TakesPhrase .choice (choice sub) := by
  intro tokens e rest h
  simp only [choice, bind_eq_ok] at h
  obtain ⟨⟨condition, after⟩, hcondition, h⟩ := h
  obtain ⟨T, t, rfl, hT, hbound, rfl⟩ := sequence_phrased hsub hcondition
  dsimp only at h
  split at h
  · cases h
    exact ⟨T, rfl, .plain hT hbound⟩
  · rename_i hmark
    obtain ⟨question, rfl, -⟩ := mark_ok hmark
    simp only [bind_eq_ok] at h
    obtain ⟨⟨yes, after⟩, hyes, ⟨stop, after'⟩, hcolon, ⟨no, after''⟩, hno, h⟩ := h
    cases h
    obtain ⟨U, rfl, hU⟩ := hsub hyes
    obtain ⟨colon, rfl, -⟩ := mark_ok hcolon
    obtain ⟨V, rfl, hV⟩ := hsub hno
    rw [hT.starts.startOf_append]
    exact ⟨T ++ ⟨.mark '?', question⟩ :: (U ++ ⟨.mark ':', colon⟩ :: V), by simp,
      .choice hT hbound hU hV⟩

end Parts

/-- **What the reader takes is phrased, spans included.** -/
theorem expression_phrased (bound : Nat) : TakesPhrase .choice (expression bound) := by
  induction bound with
  | zero =>
    intro tokens e rest h
    cases h
  | succ bound ih => exact choice_phrased ih

end JsonTemplate.Reader
