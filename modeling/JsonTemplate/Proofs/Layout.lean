/-
Where the tokens of a text stand: one after the other, each on some of its characters (`Laid`,
`laid_ofSource`).
-/
import JsonTemplate.Proofs.Nodes
import JsonTemplate.Proofs.Writable

namespace JsonTemplate

/-! ## Places in a text -/

namespace Text

/-- An offset between two characters of a text, or at an end of it. -/
def Boundary (text : List Char) (offset : Nat) : Prop :=
  ∃ before after, text = before ++ after ∧ offset = byteLength before

/-- A character has some bytes, and they come off the front. -/
theorem exists_byteLength_cons (c : Char) (rest : List Char) :
    ∃ count, byteLength (c :: rest) = count + 1 ∧ c.utf8Size ≤ count + 1 ∧
      count + 1 - c.utf8Size = byteLength rest := by
  have hsize : 0 < c.utf8Size := c.utf8Size_pos
  refine ⟨c.utf8Size + byteLength rest - 1, ?_, ?_, ?_⟩
  · rw [byteLength]
    omega
  · omega
  · omega

theorem dropBytes?_append (before after : List Char) :
    dropBytes? (byteLength before) (before ++ after) = some after := by
  induction before with
  | nil => cases after <;> rfl
  | cons c before ih =>
    obtain ⟨count, hcount, hle, hrest⟩ := exists_byteLength_cons c before
    rw [hcount, List.cons_append, dropBytes?, if_pos hle, hrest, ih]

theorem takeBytes?_append (inside after : List Char) :
    takeBytes? (byteLength inside) (inside ++ after) = some inside := by
  induction inside with
  | nil => cases after <;> rfl
  | cons c inside ih =>
    obtain ⟨count, hcount, hle, hrest⟩ := exists_byteLength_cons c inside
    rw [hcount, List.cons_append, takeBytes?, if_pos hle, hrest, ih, Option.map_some]

/-- What stands between two places is cut out there. -/
theorem slice?_append {source : String} {before inside after : List Char}
    (h : source.toList = before ++ inside ++ after) :
    slice? source ⟨byteLength before, byteLength (before ++ inside)⟩ =
      some (String.ofList inside) := by
  have hlength : Span.length ⟨byteLength before, byteLength (before ++ inside)⟩ =
      byteLength inside := by
    simp only [Span.length, byteLength_append]
    omega
  have hle : byteLength before ≤ byteLength (before ++ inside) := by
    rw [byteLength_append]
    omega
  rw [slice?, if_pos hle, h, hlength, List.append_assoc, dropBytes?_append, Option.bind_some,
    takeBytes?_append, Option.map_some]

/-- Some characters stand between two places. -/
theorem Boundary.between {text : List Char} {a b : Nat} (ha : Boundary text a)
    (hb : Boundary text b) (h : a < b) : ∃ before inside after, text = before ++ inside ++ after ∧
      inside ≠ [] ∧ a = byteLength before ∧ b = byteLength (before ++ inside) := by
  obtain ⟨before, after, rfl, rfl⟩ := ha
  obtain ⟨before', after', htext, rfl⟩ := hb
  rcases List.append_eq_append_iff.mp htext with ⟨inside, rfl, rfl⟩ | ⟨inside, rfl, -⟩
  · refine ⟨before, inside, after', by simp, ?_, rfl, rfl⟩
    rintro rfl
    simp at h
  · rw [byteLength_append] at h
    omega

end Text

namespace Span

/-- The span is that of some characters of the text. -/
structure Within (text : List Char) (s : Span) : Prop where
  start : Text.Boundary text s.start
  stop : Text.Boundary text s.stop
  lt : s.start < s.stop

theorem Within.merge {text : List Char} {a b : Span} (ha : a.Within text) (hb : b.Within text) :
    (a.merge b).Within text where
  start := by
    rcases Nat.le_total a.start b.start with h | h
    · simpa [Span.merge, Nat.min_eq_left h] using ha.start
    · simpa [Span.merge, Nat.min_eq_right h] using hb.start
  stop := by
    rcases Nat.le_total a.stop b.stop with h | h
    · simpa [Span.merge, Nat.max_eq_right h] using hb.stop
    · simpa [Span.merge, Nat.max_eq_left h] using ha.stop
  lt := by
    have ha := ha.lt
    simp only [Span.merge]
    omega

end Span

/-- Every node of the expression spans some characters of the text. -/
def Expr.Within (text : List Char) (e : Expr) : Prop := ∀ s ∈ e.spans, s.Within text

/-! ## Tokens -/

namespace Reader

/-- The tokens stand one after the other on characters of the text, and the last one at its end. -/
inductive Laid (text : List Char) : List Token → Prop
  | finish {span} : Text.Boundary text span.start → Laid text [⟨.finish, span⟩]
  | cons {token tokens} : token.span.Within text → token.span.stop ≤ startOf tokens →
      Laid text tokens → Laid text (token :: tokens)

theorem le_startOf {n : Nat} {tokens : List Token} (hne : tokens ≠ [])
    (h : ∀ token ∈ tokens, n ≤ token.span.start) : n ≤ startOf tokens := by
  cases tokens with
  | nil => exact absurd rfl hne
  | cons token rest => exact h token List.mem_cons_self

theorem laid_scan {length : Nat} : ∀ (before after : List Char), after.length ≤ length →
    Laid (before ++ after) (Token.scan 0 (Text.byteLength before) after) := by
  induction length with
  | zero =>
    intro before after hlength
    rw [List.length_eq_zero_iff.mp (Nat.le_zero.mp hlength)]
    exact .finish ⟨before, [], rfl, rfl⟩
  | succ length ih =>
    intro before after hlength
    obtain _ | ⟨c, rest⟩ := after
    · exact .finish ⟨before, [], rfl, rfl⟩
    rw [List.length_cons] at hlength
    cases hgap : Token.isGap c with
    | true =>
      have hrest := ih (before ++ [c]) rest (by omega)
      rw [byteLength_append] at hrest
      rw [Token.scan_gap hgap]
      simpa [Text.byteLength] using hrest
    | false =>
      obtain ⟨form, chars, text, hsplit, hcut, hscan⟩ :=
        @Token.scan_cut c rest hgap (Text.byteLength before)
      obtain _ | ⟨d, chars⟩ := chars
      · exact absurd rfl hcut.ne_nil
      have hsize : 0 < Text.byteLength (d :: chars) :=
        Nat.lt_of_lt_of_le d.utf8Size_pos (Nat.le_add_right _ _)
      have hshorter : text.length ≤ length := by
        have hsame := congrArg List.length hsplit
        simp only [List.length_cons, List.length_append] at hsame
        omega
      have hrest := ih (before ++ d :: chars) text hshorter
      rw [byteLength_append, List.append_assoc, ← hsplit] at hrest
      rw [hscan]
      refine .cons ⟨⟨before, c :: rest, rfl, rfl⟩, ⟨before ++ d :: chars, text, ?_, ?_⟩, ?_⟩ ?_
        hrest
      · rw [hsplit, List.append_assoc]
      · rw [byteLength_append]
      · exact Nat.lt_add_of_pos_right hsize
      · exact le_startOf (Token.scan_ne_nil _ _ _) Token.scan_start

/-- **The tokens of a text stand in it.** -/
theorem laid_ofSource (source : String) : Laid source.toList (Token.ofSource source) :=
  laid_scan [] source.toList (Nat.le_refl _)

section Laid

variable {text : List Char}

theorem Laid.start {tokens : List Token} (h : Laid text tokens) :
    Text.Boundary text (startOf tokens) := by
  cases h with
  | finish hstart => exact hstart
  | cons hspan _ _ => exact hspan.start

theorem Laid.token {token : Token} {rest : List Token} (h : Laid text (token :: rest))
    (hne : rest ≠ []) :
    token.span.Within text ∧ Laid text rest ∧ token.span.stop ≤ startOf rest := by
  cases h with
  | finish _ => exact absurd rfl hne
  | cons hspan hle hrest => exact ⟨hspan, hrest, hle⟩

/-- What goes on after some tokens stands further on. -/
theorem Laid.drop {T rest : List Token} (h : Laid text (T ++ rest)) (hne : rest ≠ []) :
    Laid text rest ∧ startOf (T ++ rest) ≤ startOf rest := by
  induction T with
  | nil => exact ⟨h, Nat.le_refl _⟩
  | cons token T ih =>
    obtain ⟨hspan, hlaid, hstop⟩ := h.token (List.append_ne_nil_of_right_ne_nil T hne)
    obtain ⟨hrest, hle⟩ := ih hlaid
    exact ⟨hrest, hspan.lt.le.trans (hstop.trans hle)⟩

/-- What goes on after a token stands after it. -/
theorem Laid.past {T rest : List Token} {token : Token} (h : Laid text (T ++ token :: rest))
    (hne : rest ≠ []) : Laid text rest ∧ token.span.start < startOf rest := by
  obtain ⟨hspan, hrest, hstop⟩ := (h.drop (List.cons_ne_nil token rest)).1.token hne
  exact ⟨hrest, hspan.lt.trans_le hstop⟩

end Laid

end Reader

end JsonTemplate
