/-
Spans and brackets. A span covers some tokens in a row of those its tree was read from, and leaves
out brackets around them: those of a first operand at the start, those of a last one at the end
(`Framed`). The tokens of a phrase close all brackets that they open (`phrased_balanced`), so a span
that leaves out brackets at one end covers brackets that are not balanced (`Headed.eq_of_balanced`).
-/
import JsonTemplate.Proofs.Phrases

namespace JsonTemplate

/-! ## Open brackets -/

namespace Token

/-- How many round brackets are open after some tokens, if none is closed that was not opened. -/
def level : Nat → List Token → Option Nat
  | n, [] => some n
  | n, token :: rest =>
    if token.isMark '(' then level (n + 1) rest
    else if token.isMark ')' then
      match n with
      | 0 => none
      | n + 1 => level n rest
    else level n rest

/-- The tokens close all round brackets that they open, and no others. -/
def Balanced (T : List Token) : Prop := level 0 T = some 0

instance (T : List Token) : Decidable (Balanced T) := inferInstanceAs (Decidable (_ = _))

/-- A token that is no round bracket. -/
def IsPlain (token : Token) : Prop := token.form ≠ .mark '(' ∧ token.form ≠ .mark ')'

variable {T U : List Token} {token : Token} {n : Nat}

theorem level_open (h : token.form = .mark '(') : level n (token :: T) = level (n + 1) T := by
  simp [level, isMark, h]

theorem level_close (h : token.form = .mark ')') : level (n + 1) (token :: T) = level n T := by
  simp [level, isMark, h]

theorem level_plain (h : token.IsPlain) : level n (token :: T) = level n T := by
  simp [level, isMark, h.1, h.2]

theorem level_append (T U : List Token) (n : Nat) :
    level n (T ++ U) = (level n T).bind fun k => level k U := by
  fun_induction level n T with
  | case1 => rfl
  | case2 n token rest h ih => simpa [level, h] using ih
  | case3 token rest h h' => simp [level, h, h']
  | case4 token rest h h' n ih => simpa [level, h, h'] using ih
  | case5 n token rest h h' ih => simpa [level, h, h'] using ih

/-- More brackets may be open before. -/
theorem level_add {k : Nat} (h : level n T = some k) (d : Nat) :
    level (n + d) T = some (k + d) := by
  fun_induction level n T with
  | case1 =>
    cases h
    rfl
  | case2 n token rest hopen ih =>
    have hrest := ih h
    rw [Nat.add_right_comm] at hrest
    simpa [level, hopen] using hrest
  | case3 => cases h
  | case4 token rest hopen hclose n ih =>
    rw [Nat.succ_add]
    simpa [level, hopen, hclose] using ih h
  | case5 n token rest hopen hclose ih => simpa [level, hopen, hclose] using ih h

theorem level_opens (h : ∀ token ∈ T, token.form = .mark '(') :
    level n T = some (n + T.length) := by
  induction T generalizing n with
  | nil => rfl
  | cons token T ih =>
    rw [List.forall_mem_cons] at h
    rw [level_open h.1, ih h.2, List.length_cons, Nat.add_right_comm, Nat.add_assoc]

namespace Balanced

theorem level_eq (h : Balanced T) (n : Nat) : level n T = some n := by
  simpa using level_add h n

theorem nil : Balanced [] := rfl

theorem append (hT : Balanced T) (hU : Balanced U) : Balanced (T ++ U) := by
  rw [Balanced, level_append, hT]
  exact hU

theorem cons (h : token.IsPlain) (hT : Balanced T) : Balanced (token :: T) :=
  (level_plain h).trans hT

theorem append_cons (hT : Balanced T) (h : token.IsPlain) (hU : Balanced U) :
    Balanced (T ++ token :: U) :=
  hT.append (hU.cons h)

/-- What stands in brackets. -/
theorem enclose {left right : Token} (hleft : left.form = .mark '(')
    (hright : right.form = .mark ')')
    (hT : Balanced T) : Balanced (left :: (T ++ [right])) := by
  rw [Balanced, level_open hleft, level_append, hT.level_eq]
  exact level_close hright

end Balanced

end Token

namespace Reader

open Token (Balanced IsPlain)

theorem isPlain_mark {c : Char} {span : Span} (h : c ∉ ['(', ')']) :
    Token.IsPlain ⟨.mark c, span⟩ := by
  constructor <;> rintro ⟨⟩ <;> exact h (by decide)

theorem operator_balanced {op : BinaryOp} {S : List Token} (h : (Lexeme.operator op).Tokens S) :
    Balanced S := by
  cases h with
  | membership => exact .cons ⟨nofun, nofun⟩ .nil
  | single hop =>
    refine .cons (isPlain_mark ?_) .nil
    cases op <;> simp [BinaryOp.symbol] at hop <;> subst hop <;> decide
  | double hne hop _ =>
    refine .cons (isPlain_mark ?_) (.cons (isPlain_mark ?_) .nil) <;>
      cases op <;> simp [BinaryOp.symbol] at hop hne <;> obtain ⟨rfl, rfl⟩ := hop <;> decide

theorem prefixed_balanced {ops : List UnaryOp} {O : List Token} (h : Spells (prefixed ops) O) :
    Balanced O := by
  induction ops generalizing O with
  | nil =>
    rw [h.of_nil]
    exact .nil
  | cons op ops ih =>
    obtain ⟨span, U, rfl, hU⟩ := h.of_mark
    exact .cons (isPlain_mark (by cases op <;> decide)) (ih hU)

/-- **The tokens of a phrase close the brackets that they open.** -/
theorem phrased_balanced {p : Phrase} {T : List Token} {next : Nat} {r : p.Result}
    (h : Phrased p T next r) : Balanced T := by
  have hplain {c : Char} (hc : c ∉ ['(', ')']) (span : Span) :
      Token.IsPlain ⟨.mark c, span⟩ := isPlain_mark hc
  have hword (name : String) (span : Span) : Token.IsPlain ⟨.word name, span⟩ := ⟨nofun, nofun⟩
  induction h with
  | plain _ _ ih | leaf _ ih | first _ ih | item _ ih | last _ ih => exact ih
  | choice _ _ _ _ ih ihyes ihno =>
    exact ih.append_cons (hplain (by decide) _) (ihyes.append_cons (hplain (by decide) _) ihno)
  | node _ hop _ ihl ihr => exact ihl.append ((operator_balanced hop).append ihr)
  | operand hO _ ih => exact (prefixed_balanced hO).append ih
  | field _ ih => exact ih.append_cons (hplain (by decide) _) (.cons (hword _ _) .nil)
  | method _ _ ih ihargs =>
    exact ih.append_cons (hplain (by decide) _) (.cons (hword _ _) (ihargs.enclose rfl rfl))
  | index _ _ ih ihindex =>
    exact ih.append_cons (hplain (by decide) _) (ihindex.append_cons (hplain (by decide) _) .nil)
  | constant hform =>
    refine .cons ⟨?_, ?_⟩ .nil <;> rintro rfl <;> cases hform
  | name _ => exact .cons (hword _ _) .nil
  | call _ _ ih => exact .cons (hword _ _) (ih.enclose rfl rfl)
  | group _ ih => exact ih.enclose rfl rfl
  | list _ ih | dict _ ih =>
    exact .cons (hplain (by decide) _) (ih.append_cons (hplain (by decide) _) .nil)
  | entry _ _ ihkey ih => exact ihkey.append_cons (hplain (by decide) _) ih
  | none => exact .nil
  | more _ _ ih ihothers => exact ih.append_cons (hplain (by decide) _) ihothers

/-! ## What a span covers -/

/-- A token ends before another one starts. -/
def Before (a b : Token) : Prop := a.span.start < a.span.stop ∧ a.span.stop ≤ b.span.start

/-- Tokens that a span covers, between brackets that it leaves out, all before a place. -/
structure Frame (opens inside closes : List Token) (next : Nat) (s : Span) : Prop where
  left : ∀ token ∈ opens, token.form = .mark '('
  right : ∀ token ∈ closes, token.form = .mark ')'
  start : ∃ first others, inside = first :: others ∧ s.start = first.span.start
  stop : ∀ token ∈ inside, token.span.stop ≤ s.stop
  ending : ∀ token ∈ closes, s.stop ≤ token.span.start
  next : s.stop ≤ next

/-- A span covers the tokens but for brackets around them. -/
def Framed (T : List Token) (next : Nat) (s : Span) : Prop :=
  ∃ opens inside closes, T = opens ++ (inside ++ closes) ∧ Frame opens inside closes next s

/-- A span covers the tokens but for brackets around them, and those at the start are closed by
some that it covers. -/
def Headed (T : List Token) (next : Nat) (s : Span) : Prop :=
  ∃ opens head others closes, T = opens ++ (head ++ others ++ closes) ∧
    Frame opens (head ++ others) closes next s ∧ Balanced (opens ++ head)

section Framed

variable {T U V S rest : List Token} {next x : Nat} {s v w : Span} {b last left right : Token}

theorem Headed.framed (h : Headed T next s) : Framed T next s := by
  obtain ⟨opens, head, others, closes, rfl, hframe, -⟩ := h
  exact ⟨opens, head ++ others, closes, rfl, hframe⟩

/-- A span that covers all of the tokens. -/
theorem headed_whole {marks : List Char} (hT : StartsWith marks T) (hstart : s.start = startOf T)
    (hstop : ∀ token ∈ T, token.span.stop ≤ s.stop) (hnext : s.stop ≤ next) : Headed T next s := by
  refine ⟨[], [], T, [], by simp, ⟨nofun, nofun, ?_, hstop, nofun, hnext⟩, .nil⟩
  cases hT with
  | cons _ => exact ⟨_, _, rfl, hstart⟩

/-- A span that goes on from where another one starts, and leaves out nothing there that the other
one does not. -/
theorem Framed.headed {closes : List Token} (h : Framed T x s) (hT : Balanced T)
    (hstart : w.start = s.start) (hstop : ∀ token ∈ T ++ U, token.span.stop ≤ w.stop)
    (hright : ∀ token ∈ closes, token.form = .mark ')')
    (hending : ∀ token ∈ closes, w.stop ≤ token.span.start) (hnext : w.stop ≤ next) :
    Headed (T ++ (U ++ closes)) next w := by
  obtain ⟨opens, inside, closed, rfl, hframe⟩ := h
  obtain ⟨first, others, rfl, hfirst⟩ := hframe.start
  refine ⟨opens, first :: others ++ closed, U, closes, by simp, ?_, by simpa using hT⟩
  refine ⟨hframe.left, hright, ⟨first, others ++ closed ++ U, by simp, hstart.trans hfirst⟩, ?_,
    hending, hnext⟩
  intro token htoken
  refine hstop token ?_
  simp only [List.mem_append] at htoken ⊢
  exact htoken.imp_left .inr

theorem before_of_row (hrow : (T ++ b :: rest).Pairwise Before) :
    ∀ token ∈ T, token.span.start < token.span.stop ∧ token.span.stop ≤ b.span.start :=
  fun token htoken => (List.pairwise_append.mp hrow).2.2 token htoken b List.mem_cons_self

/-- A span covers a token at its start. -/
theorem Framed.first (h : Framed T x s) :
    ∃ token ∈ T, s.start = token.span.start ∧ token.span.stop ≤ s.stop ∧ s.stop ≤ x := by
  obtain ⟨opens, inside, closes, rfl, hframe⟩ := h
  obtain ⟨first, others, rfl, hstart⟩ := hframe.start
  exact ⟨first, by simp, hstart, hframe.stop first List.mem_cons_self, hframe.next⟩

/-- No token ends after the last one. -/
theorem stop_le_last (hrow : (T ++ [last] ++ b :: rest).Pairwise Before) :
    ∀ token ∈ T ++ [last], token.span.stop ≤ last.span.stop := by
  have hlast := before_of_row hrow last (by simp)
  have hbefore := before_of_row (List.append_assoc T [last] (b :: rest) ▸ hrow)
  intro token htoken
  rcases List.mem_append.mp htoken with htoken | htoken
  · have hstop := hbefore token htoken
    omega
  · obtain rfl := List.mem_singleton.mp htoken
    exact Nat.le_refl _

/-- The span of an operand and of what is put after it. -/
theorem Framed.extended (h : Framed T x s) (hT : Balanced T)
    (hrow : (T ++ (V ++ [last]) ++ b :: rest).Pairwise Before) (hx : x ≤ v.start)
    (hle : v.start ≤ v.stop) (hv : v.stop = last.span.stop) :
    Headed (T ++ (V ++ [last])) b.span.start (s.merge v) := by
  obtain ⟨first, hfirst, hstart, hstop, hnext⟩ := h.first
  have hpositive := before_of_row hrow first (by simp [hfirst])
  have hend := before_of_row hrow last (by simp)
  have hmerge : s.merge v = ⟨s.start, last.span.stop⟩ := by
    simp only [Span.merge, Span.mk.injEq]
    omega
  have hlast : ∀ token ∈ T ++ (V ++ [last]), token.span.stop ≤ last.span.stop := by
    rw [← List.append_assoc]
    exact stop_le_last (by simpa using hrow)
  have hheaded : Headed (T ++ (V ++ [last] ++ [])) b.span.start ⟨s.start, last.span.stop⟩ :=
    h.headed hT rfl hlast nofun nofun hend.2
  rw [hmerge]
  simpa using hheaded

/-- The span of an operator and its sides. -/
theorem Framed.joined (h : Framed T (startOf S) s) (hT : Balanced T) (hS : S ≠ [])
    (h' : Framed U b.span.start v) (hrow : (T ++ (S ++ U) ++ b :: rest).Pairwise Before) :
    Headed (T ++ (S ++ U)) b.span.start (s.merge v) := by
  obtain ⟨first, hfirst, hstart, hstop, hnext⟩ := h.first
  obtain ⟨opens, inside, closes, rfl, hframe⟩ := h'
  obtain ⟨first', others, rfl, hstart'⟩ := hframe.start
  obtain ⟨sign, signs, rfl⟩ := List.exists_cons_of_ne_nil hS
  -- What stands before the first token that the right side covers ends before it.
  have hrow' : (T ++ (sign :: signs ++ opens) ++ first' :: (others ++ closes ++ b :: rest)).Pairwise
      Before := by simpa using hrow
  have hbefore := before_of_row hrow'
  have hpositive := hbefore first (by simp [hfirst])
  have hsign := hbefore sign (by simp)
  have hstop' := hframe.stop first' List.mem_cons_self
  have hend := before_of_row hrow first' (by simp)
  have hmerge : s.merge v = ⟨s.start, v.stop⟩ := by
    have hx : startOf (sign :: signs) = sign.span.start := rfl
    simp only [Span.merge, Span.mk.injEq]
    omega
  have hcovered : ∀ token ∈ T ++ (sign :: signs ++ (opens ++ first' :: others)),
      token.span.stop ≤ v.stop := by
    intro token htoken
    by_cases hinside : token ∈ first' :: others
    · exact hframe.stop token hinside
    · have hstop := hbefore token (by simp_all)
      omega
  have hheaded := h.headed (w := ⟨s.start, v.stop⟩) hT rfl hcovered hframe.right hframe.ending
    hframe.next
  rw [hmerge]
  simpa using hheaded

/-- Brackets around an operand are left out. -/
theorem Framed.enclosed (h : Framed T right.span.start s) (hleft : left.form = .mark '(')
    (hright : right.form = .mark ')')
    (hrow : (left :: (T ++ [right]) ++ b :: rest).Pairwise Before) :
    Framed (left :: (T ++ [right])) b.span.start s := by
  obtain ⟨opens, inside, closes, rfl, hframe⟩ := h
  have hlast := before_of_row hrow right (by simp)
  have hnext := hframe.next
  refine ⟨left :: opens, inside, closes ++ [right], by simp, ?_⟩
  refine ⟨List.forall_mem_cons.mpr ⟨hleft, hframe.left⟩, ?_, hframe.start, hframe.stop, ?_,
    by omega⟩
  · simpa [or_imp, forall_and] using ⟨hframe.right, hright⟩
  · simpa [or_imp, forall_and] using ⟨hframe.ending, hnext⟩

/-- A span that covers balanced brackets leaves out none. -/
theorem Headed.eq_of_balanced (h : Headed T next s) (hT : Balanced T) :
    ∃ opens inside closes, T = opens ++ (inside ++ closes) ∧ Frame opens inside closes next s ∧
      (Balanced inside → opens = [] ∧ closes = []) := by
  obtain ⟨opens, head, others, closes, rfl, hframe, hhead⟩ := h
  refine ⟨opens, head ++ others, closes, rfl, hframe, fun hinside => ?_⟩
  have hopens : opens = [] := by
    -- More brackets may be open before the head, but it closes those before it.
    rw [Token.Balanced, Token.level_append] at hinside
    obtain ⟨n, hn, -⟩ := Option.bind_eq_some_iff.mp hinside
    rw [Token.Balanced, Token.level_append, Token.level_opens hframe.left, Option.bind_some,
      Token.level_add hn] at hhead
    have hnone : opens.length = 0 := by
      have hsum := Option.some.inj hhead
      omega
    exact List.length_eq_zero_iff.mp hnone
  subst hopens
  refine ⟨rfl, ?_⟩
  rw [List.nil_append, Token.Balanced, Token.level_append, hinside, Option.bind_some] at hT
  cases closes with
  | nil => rfl
  | cons token closes =>
    have hclose := hframe.right token List.mem_cons_self
    simp [Token.level, Token.isMark, hclose] at hT

end Framed

end Reader

end JsonTemplate
