/-
What is read at the place of a node. The text that a node spans is read as that node again, unless
the span cuts brackets apart or an operator before the node spans the same
(`node_is_read_from_its_slice_iff`).
-/
import JsonTemplate.Proofs.Enclosure
import JsonTemplate.Proofs.Rescanning
import JsonTemplate.Proofs.Standing

namespace JsonTemplate

/-! ## Brackets at other places -/

namespace Token

theorem level_move (f : Nat → Nat) (n : Nat) (T : List Token) :
    level n (T.map (move f)) = level n T := by
  have hmark (token : Token) (c : Char) : (token.move f).isMark c = token.isMark c := rfl
  induction T generalizing n with
  | nil => rfl
  | cons token T ih => simp only [List.map_cons, level, hmark, ih]

/-- Neither the last token of a text nor where the tokens stand makes brackets unbalanced. -/
theorem balanced_move_finish {f : Nat → Nat} {T : List Token} {span : Span} :
    Balanced ((T ++ [Token.mk .finish span]).map (move f)) ↔ Balanced T := by
  have hfinish (n : Nat) : level n [Token.mk .finish span] = some n := rfl
  rw [Balanced, level_move, level_append, Option.bind_congr fun n _ => hfinish n,
    Option.bind_fun_some, Balanced]

end Token

/-! ## Nodes -/

namespace Expr

/-- The nodes of a tree stand inside its span. -/
theorem Nested.between {text : List Char} {e n : Expr} (h : e.Nested text) (hn : n ∈ e.nodes) :
    e.span.start ≤ n.span.start ∧ n.span.stop ≤ e.span.stop := by
  induction e using parts_induction with
  | ofParts e ih =>
    obtain ⟨-, hrow⟩ := nested_iff.mp h
    rw [nodes_eq, List.mem_cons, List.mem_flatMap] at hn
    rcases hn with rfl | ⟨part, hpart, hn⟩
    · exact ⟨le_rfl, le_rfl⟩
    · have hpart' := hrow.inOrder.between part.span (List.mem_map_of_mem hpart)
      have hn' := ih part hpart (hrow.nested part hpart) hn
      exact ⟨hpart'.1.trans hn'.1, hn'.2.trans hpart'.2⟩

theorem Nested.node {text : List Char} {e n : Expr} (h : e.Nested text) (hn : n ∈ e.nodes) :
    n.Nested text :=
  fun m hm => h m ((nodes_sublist hn).subset hm)

/-- A tree moved to the start of a text and back. -/
theorem Nested.move_back {text : List Char} {e : Expr} (h : e.Nested text) :
    (e.move (· - e.span.start)).move (· + e.span.start) = e := by
  refine respan_back _ _ fun s hs => ?_
  obtain ⟨n, hn, rfl⟩ := List.mem_map.mp hs
  have hstart := (h.between hn).1
  have hlt := (h n hn).1.lt
  simp only [Span.move]
  rw [Nat.sub_add_cancel hstart, Nat.sub_add_cancel (hstart.trans hlt.le)]

open Reader (Covered)

/-- Of the nodes with one span, some node is not covered. -/
theorem exists_uncovered {e : Expr} : ∀ {count : Nat} {n : Expr},
    e.nodes.length ≤ n.nodes.length + count → n ∈ e.nodes →
      ∃ m ∈ e.nodes, m.span = n.span ∧ ¬Covered e.nodes m := by
  intro count
  induction count with
  | zero =>
    intro n hcount hn
    refine ⟨n, hn, rfl, ?_⟩
    rintro ⟨op, hmem⟩
    have hle := (nodes_sublist hmem).length_le
    rw [nodes, List.length_cons] at hle
    omega
  | succ count ih =>
    intro n hcount hn
    by_cases hcovered : Covered e.nodes n
    · obtain ⟨op, hmem⟩ := hcovered
      refine @ih (unary n.span op n) ?_ hmem
      rw [nodes, List.length_cons]
      omega
    · exact ⟨n, hn, rfl, hcovered⟩

/-- An operator that covers a node covers what the node is expanded to. -/
theorem covered_expandMacros {raw e m n : Expr} (h : raw.expandMacros = .ok e)
    (hn : m.expandMacros = .ok n) (hcovered : Covered raw.nodes m) : Covered e.nodes n := by
  obtain ⟨op, hmem⟩ := hcovered
  obtain ⟨n', hn', hunary⟩ := unary_mem_expandMacros h hmem
  obtain rfl : n = n' := Except.ok.inj (hn.symm.trans hn')
  rw [← (expandMacros_span hn).1] at hunary
  exact ⟨op, hunary⟩

end Expr

/-! ## Slices -/

namespace Reader

open Token (Balanced)

/-- The slice at a node that stands among the tokens is read as the node if its brackets are
balanced. -/
theorem Stands.slice {source : String} {n : Expr} (h : Stands (Token.ofSource source) n)
    (hspan : n.span.Within source.toList) : ∃ text, Text.slice? source n.span = some text ∧
      (Balanced (Token.ofSource text) →
        readAll (Token.ofSource text) = .ok (n.move (· - n.span.start))) := by
  obtain ⟨before, T, b, after, htokens, hphrased, hheaded⟩ := h
  obtain ⟨opens, inside, closes, rfl, hframe, hends⟩ :=
    hheaded.eq_of_balanced (phrased_balanced hphrased)
  obtain ⟨c, others, hrest, hnext⟩ :
      ∃ c others, closes ++ b :: after = c :: others ∧ n.span.stop ≤ c.span.start := by
    cases closes with
    | nil => exact ⟨b, after, rfl, hframe.next⟩
    | cons c closes => exact ⟨c, closes ++ b :: after, rfl, hframe.ending c List.mem_cons_self⟩
  have hsplit : Token.ofSource source = (before ++ opens) ++ (inside ++ c :: others) := by
    rw [htokens, ← hrest]
    simp
  obtain ⟨text, hslice, htext⟩ := tokens_of_slice hsplit hspan hframe.start hframe.stop hnext
  refine ⟨text, hslice, fun hbalanced => ?_⟩
  rw [htext, Token.balanced_move_finish] at hbalanced
  obtain ⟨rfl, rfl⟩ := hends hbalanced
  have hnext' : n.span.stop - n.span.start = b.span.start - n.span.start ∨
      n.span.stop < b.span.start := hframe.next.eq_or_lt.imp_left (congrArg (· - n.span.start))
  have hmoved := phrased_move (f := (· - n.span.start)) (fun _ _ h => Nat.sub_le_sub_right h _)
    hphrased _ hnext'
  rw [List.nil_append, List.append_nil] at hmoved
  rw [htext, List.map_append]
  exact readAll_phrased hmoved

end Reader

namespace Expr

open Token (Balanced)
open Reader (Covered)

theorem slice_of_uncovered {source : String} {e n : Expr} (h : parse source = .ok e)
    (hn : n ∈ e.nodes) (huncovered : ¬Covered e.nodes n) :
    ∃ text, Text.slice? source n.span = some text ∧
      (Balanced (Token.ofSource text) → parse text = .ok (n.move (· - n.span.start))) := by
  obtain ⟨raw, hraw, he⟩ := parse_eq_ok h
  obtain ⟨T, span, htokens, hphrased⟩ := Reader.readAll_eq_ok.mp hraw
  have hrow := (Reader.laid_ofSource source).pairwise
  obtain ⟨-, hstand⟩ := Reader.phrased_keeps hrow hphrased raw.nodes [] ⟨.finish, span⟩ [] htokens
    rfl (List.forall_mem_singleton.mpr (List.Subset.refl _)) trivial
  obtain ⟨m, hm, hmn⟩ := expandMacros_nodes he hn
  have hspan := (expandMacros_span hmn).1
  have hstands : Reader.Stands (Token.ofSource source) m :=
    (hstand raw (List.mem_singleton.mpr rfl) m hm).resolve_left
      fun hcovered => huncovered (covered_expandMacros he hmn hcovered)
  rw [hspan]
  obtain ⟨text, hslice, hread⟩ := hstands.slice (hspan ▸ (parse_nested h n hn).1)
  refine ⟨text, hslice, fun hbalanced => ?_⟩
  simp only [parse, hread hbalanced]
  exact expandMacros_respan _ hmn

theorem balanced_of_parse {text : String} {t : Expr} (h : parse text = .ok t) :
    Balanced (Token.ofSource text) := by
  obtain ⟨raw, hraw, -⟩ := parse_eq_ok h
  obtain ⟨T, span, htokens, hphrased⟩ := Reader.readAll_eq_ok.mp hraw
  rw [htokens]
  exact (Reader.phrased_balanced hphrased).append (.cons ⟨nofun, nofun⟩ .nil)

end Expr

/-- **What a node spans is read as the node**, at the start of a text, exactly if the round brackets
in it are balanced and no operator whose operand is the node spans the same. -/
theorem node_is_read_from_its_slice_iff {source : String} {e : Expr}
    (h : Expr.parse source = .ok e) : ∀ n ∈ e.nodes,
      ∃ text, Text.slice? source n.span = some text ∧
        ((∃ t, Expr.parse text = .ok t ∧ t.move (· + n.span.start) = n) ↔
          Token.Balanced (Token.ofSource text) ∧ ∀ op, .unary n.span op n ∉ e.nodes) := by
  intro n hn
  have hnested := Expr.parse_nested h
  obtain ⟨m, hm, hspan, huncovered⟩ := Expr.exists_uncovered (Nat.le_add_left _ _) hn
  obtain ⟨text, hslice, hread⟩ := Expr.slice_of_uncovered h hm huncovered
  rw [hspan] at hslice
  refine ⟨text, hslice, ?_, ?_⟩
  · rintro ⟨t, ht, hmove⟩
    have hbalanced := Expr.balanced_of_parse ht
    refine ⟨hbalanced, fun op hop => huncovered ?_⟩
    -- The node that no operator covers is read too, so it is this one.
    have hsame : m = n := by
      obtain rfl : m.move (· - m.span.start) = t :=
        Except.ok.inj ((hread hbalanced).symm.trans ht)
      rw [← hspan] at hmove
      exact (hnested.node hm).move_back.symm.trans hmove
    rw [hsame]
    exact ⟨op, hop⟩
  · rintro ⟨hbalanced, hnone⟩
    obtain ⟨text', hslice', hread'⟩ := Expr.slice_of_uncovered h hn fun ⟨op, hop⟩ => hnone op hop
    obtain rfl : text = text' := Option.some.inj (hslice.symm.trans hslice')
    exact ⟨_, hread' hbalanced, (hnested.node hn).move_back⟩

/-- Operands in brackets at the start and inside, operators in a row, and a character of two
bytes. -/
theorem node_is_read_from_its_slice_iff_of_choice : ∃ e,
    Expr.parse "f(['é' + (a * - -b)])[0] ? (x).y : c" = .ok e ∧ ∀ n ∈ e.nodes,
      ∃ text, Text.slice? "f(['é' + (a * - -b)])[0] ? (x).y : c" n.span = some text ∧
        ((∃ t, Expr.parse text = .ok t ∧ t.move (· + n.span.start) = n) ↔
          Token.Balanced (Token.ofSource text) ∧ ∀ op, .unary n.span op n ∉ e.nodes) := by
  obtain ⟨e, he⟩ : ∃ e, Expr.parse "f(['é' + (a * - -b)])[0] ? (x).y : c" = .ok e :=
    failure?_eq_none.mp (by decide +kernel)
  exact ⟨e, he, node_is_read_from_its_slice_iff he⟩

/-- What a selection from an operand in brackets spans is no expression. -/
theorem slice_of_grouped_operand_is_not_read :
    ∃ e, Expr.parse "(a).b" = .ok e ∧ ∃ n ∈ e.nodes,
      Text.slice? "(a).b" n.span = some "a).b" ∧ ∀ t, Expr.parse "a).b" ≠ .ok t := by
  refine ⟨.select ⟨1, 5⟩ (.ident ⟨1, 2⟩ "a") "b", rfl, _, Expr.self_mem_nodes _, ?_, fun t h => ?_⟩
  · decide +kernel
  · exact absurd (Expr.balanced_of_parse h) (by decide +kernel)

end JsonTemplate
