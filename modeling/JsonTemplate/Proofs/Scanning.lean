/-
Texts taken apart. Each token is cut from the text it is scanned from (`scan_cut`), so a text is a
spelling of whatever lexemes its tokens are spelled by (`spelling_of_scan`). With the grammar of
the reader: the texts that are read are exactly the spellings of what the grammar derives
(`readAll_ofSource_iff`).
-/
import JsonTemplate.Proofs.Spelling

namespace JsonTemplate

/-! ## The text of a token -/

namespace Decimal

/-- The digits at the start of a text, if there are any. -/
theorem takeWhile_isDigits {text : List Char} (h : text.takeWhile Char.isDigit ≠ []) :
    IsDigits (text.takeWhile Char.isDigit) := by
  refine ⟨h, fun c hc => ?_⟩
  have hall : (text.takeWhile Char.isDigit).all Char.isDigit = true := List.all_takeWhile
  exact List.all_eq_true.mp hall c hc

/-- What is scanned as a fraction is one. -/
theorem scanFraction_taken (text : List Char) : ∃ fraction after, text = fraction ++ after ∧
    IsFraction fraction (scanFraction text) ∧
    fractionLength (scanFraction text) = fraction.length := by
  by_cases h : scanFraction text = []
  · rw [h]
    exact ⟨[], text, rfl, .none, rfl⟩
  · unfold scanFraction at h ⊢
    split at h
    · rename_i rest
      refine ⟨'.' :: rest.takeWhile Char.isDigit, rest.dropWhile Char.isDigit, ?_,
        .point (takeWhile_isDigits h), ?_⟩
      · rw [List.cons_append, List.takeWhile_append_dropWhile]
      · simp [fractionLength, h]
    · exact absurd rfl h

theorem scanSign_taken (text : List Char) : ∃ sign after negative, text = sign ++ after ∧
    IsSign sign negative ∧ scanSign text = (negative, sign.length) := by
  unfold scanSign
  split
  · exact ⟨['-'], _, true, rfl, .minus, rfl⟩
  · exact ⟨['+'], _, false, rfl, .plus, rfl⟩
  · exact ⟨[], _, false, rfl, .none, rfl⟩

/-- What is scanned as an exponent is one. -/
theorem scanExponent_taken (text : List Char) : ∃ exponent after, text = exponent ++ after ∧
    IsExponent exponent (scanExponent text).1 ∧ (scanExponent text).2 = exponent.length := by
  obtain _ | ⟨e, rest⟩ := text
  · exact ⟨[], [], rfl, .none, rfl⟩
  by_cases he : e = 'e' ∨ e = 'E'
  · obtain ⟨sign, after, negative, rfl, hsign, hscan⟩ := scanSign_taken rest
    by_cases hdigits : after.takeWhile Char.isDigit = []
    · refine ⟨[], _, rfl, ?_, ?_⟩ <;> simp [scanExponent, he, hscan, hdigits, IsExponent.none]
    · refine ⟨e :: (sign ++ after.takeWhile Char.isDigit), after.dropWhile Char.isDigit, ?_, ?_, ?_⟩
      · simp
      · have hpower := IsExponent.power (by simpa using he) hsign (takeWhile_isDigits hdigits)
        simpa [scanExponent, he, hscan, hdigits] using hpower
      · simp [scanExponent, he, hscan, hdigits]
        omega
  · exact ⟨[], _, rfl, by simp [scanExponent, he, IsExponent.none], by simp [scanExponent, he]⟩

/-- What is scanned as a numeral is one. -/
theorem scan_taken {c : Char} {rest : List Char} (hc : c.isDigit) : ∃ chars after,
    c :: rest = chars ++ after ∧ IsNumeral chars (scan (c :: rest)).1.toBinary64 ∧
      (scan (c :: rest)).2 = chars.length := by
  have hdigits : IsDigits ((c :: rest).takeWhile Char.isDigit) :=
    takeWhile_isDigits (by simp [hc])
  have hsplit : (c :: rest).takeWhile Char.isDigit ++ (c :: rest).dropWhile Char.isDigit =
      c :: rest := List.takeWhile_append_dropWhile
  obtain ⟨fraction, others, hothers, hfraction, hlength⟩ :=
    scanFraction_taken ((c :: rest).dropWhile Char.isDigit)
  obtain ⟨exponent, after, rfl, hexponent, hpower⟩ := scanExponent_taken others
  generalize (c :: rest).dropWhile Char.isDigit = afterWhole at *
  generalize hwhole : (c :: rest).takeWhile Char.isDigit = whole at *
  subst hothers
  have hscan : scan (c :: rest) =
      (ofParts false whole (scanFraction (fraction ++ (exponent ++ after)))
        (scanExponent (exponent ++ after)).1, (whole ++ fraction ++ exponent).length) := by
    rw [← hsplit] at hwhole ⊢
    simp only [scan, hwhole, List.drop_left, hlength, hpower, List.length_append]
  rw [hscan]
  exact ⟨whole ++ fraction ++ exponent, after, by simp [← hsplit],
    .parts hdigits hfraction hexponent, rfl⟩

end Decimal

namespace Token

/-- The text up to a closing quote is what may stand between quotes. -/
theorem quoted?_taken {quote : Char} : ∀ {text body : List Char},
    quoted? quote text = some body →
      ∃ after, text = body ++ quote :: after ∧ IsBody quote body := by
  intro text
  fun_induction quoted? quote text with
  | case1 => exact nofun
  | case2 c rest ih =>
    intro body h
    obtain ⟨inner, hinner, rfl⟩ := Option.map_eq_some_iff.mp h
    obtain ⟨after, rfl, hbody⟩ := ih hinner
    exact ⟨after, rfl, .escape hbody⟩
  | case3 rest hrest =>
    intro body h
    cases h
    exact ⟨rest, rfl, .nil⟩
  | case4 c rest hpair hc ih =>
    intro body h
    obtain ⟨inner, hinner, rfl⟩ := Option.map_eq_some_iff.mp h
    obtain ⟨after, rfl, hbody⟩ := ih hinner
    refine ⟨after, rfl, .plain hc ?_ hbody⟩
    -- A backslash would take the next character with it, and there is one.
    rintro rfl
    cases inner with
    | nil => exact hpair quote after rfl rfl
    | cons d inner => exact hpair d (inner ++ quote :: after) rfl rfl

/-- The text of a token with what follows it. -/
inductive Cut : Form → List Char → List Char → Prop
  | word {name text} : IsWord name.toList → Parted text → Cut (.word name) name.toList text
  | number {n chars text} : IsNumeral chars n → Cut (.number n) chars text
  | string {quote body text} : isQuote quote → IsBody quote body →
      Cut (.string body) (quote :: (body ++ [quote])) text
  | mark {c text} : Cut (.mark c) [c] text

theorem Cut.ne_nil {form : Form} {chars text : List Char} (h : Cut form chars text) :
    chars ≠ [] := by
  cases h with
  | word hname _ =>
    intro hnil
    rw [hnil] at hname
    exact hname
  | number hn =>
    obtain ⟨⟨hwhole, _⟩, _, _⟩ := hn
    simp [hwhole]
  | string _ _ => exact nofun
  | mark => exact nofun

/-- The next token is cut from the text. -/
theorem next_cut (c : Char) (rest : List Char) : ∃ chars text, c :: rest = chars ++ text ∧
    Cut (next c rest).1 chars text ∧ (next c rest).2 = chars.length := by
  by_cases hword : isWordStart c
  · have hsplit : rest.takeWhile isWordChar ++ rest.dropWhile isWordChar = rest :=
      List.takeWhile_append_dropWhile
    have hname : IsWord (String.ofList (c :: rest.takeWhile isWordChar)).toList := by
      rw [String.toList_ofList]
      have hall : (rest.takeWhile isWordChar).all isWordChar = true := List.all_takeWhile
      exact ⟨hword, List.all_eq_true.mp hall⟩
    have hparted : Parted (rest.dropWhile isWordChar) := by
      intro d hd
      have hnot := List.head?_dropWhile_not isWordChar rest
      rw [hd] at hnot
      exact hnot
    have hcut := Cut.word hname hparted
    rw [String.toList_ofList] at hcut
    refine ⟨c :: rest.takeWhile isWordChar, rest.dropWhile isWordChar, ?_, ?_, ?_⟩
    · rw [List.cons_append, hsplit]
    · simpa [next, hword] using hcut
    · simp [next, hword]
  · by_cases hdigit : c.isDigit
    · obtain ⟨chars, text, hsplit, hnumeral, hlength⟩ := @Decimal.scan_taken c rest hdigit
      simp only [next, hword, hdigit]
      exact ⟨chars, text, hsplit, .number hnumeral, hlength⟩
    · cases hbody : quoted? c rest with
      | none =>
        refine ⟨[c], rest, rfl, ?_, ?_⟩ <;> simp [next, hword, hdigit, hbody, Cut.mark]
      | some body =>
        by_cases hquote : isQuote c
        · obtain ⟨after, rfl, hinner⟩ := quoted?_taken hbody
          refine ⟨c :: (body ++ [c]), after, by simp, ?_, ?_⟩
          · simpa [next, hword, hdigit, hquote, hbody] using Cut.string hquote hinner
          · simp [next, hword, hdigit, hquote, hbody]
        · refine ⟨[c], rest, rfl, ?_, ?_⟩ <;> simp [next, hword, hdigit, hquote, Cut.mark]

/-- The first token of a text that does not start with white space, and the tokens of the rest. -/
theorem scan_cut {c : Char} {rest : List Char} (hgap : isGap c = false) (offset : Nat) :
    ∃ form chars text, c :: rest = chars ++ text ∧ Cut form chars text ∧
      scan 0 offset (c :: rest) =
        ⟨form, ⟨offset, offset + Text.byteLength chars⟩⟩ ::
          scan 0 (offset + Text.byteLength chars) text := by
  obtain ⟨chars, text, hsplit, hcut, hlength⟩ := next_cut c rest
  obtain _ | ⟨d, chars⟩ := chars
  · exact absurd rfl hcut.ne_nil
  · obtain ⟨rfl, rfl⟩ : c = d ∧ rest = chars ++ text := by simpa using hsplit
    exact ⟨_, c :: chars, text, hsplit, hcut, scan_token hgap (Prod.ext rfl hlength) offset⟩

/-- No token of a text starts before the text. -/
theorem scan_start {text : List Char} {skip offset : Nat} :
    ∀ token ∈ scan skip offset text, offset ≤ token.span.start := by
  induction text generalizing skip offset with
  | nil => simp [scan]
  | cons c rest ih =>
    intro token htoken
    have hlater : ∀ {skip}, token ∈ scan skip (offset + c.utf8Size) rest →
        offset ≤ token.span.start := by
      intro skip h
      exact Nat.le_trans (Nat.le_add_right _ _) (ih token h)
    cases skip with
    | succ skip => exact hlater htoken
    | zero =>
      simp only [scan] at htoken
      split at htoken
      · exact hlater htoken
      · rcases List.mem_cons.mp htoken with rfl | htoken
        · exact Nat.le_refl _
        · exact hlater htoken

theorem scan_ne_nil (text : List Char) (skip offset : Nat) : scan skip offset text ≠ [] := by
  induction text generalizing skip offset with
  | nil => exact List.cons_ne_nil _ _
  | cons c rest ih =>
    cases skip with
    | succ skip => exact ih skip _
    | zero =>
      simp only [scan]
      split
      · exact ih 0 _
      · exact List.cons_ne_nil _ _

theorem scan_gap {c : Char} (h : isGap c) (rest : List Char) (offset : Nat) :
    scan 0 offset (c :: rest) = scan 0 (offset + c.utf8Size) rest := by
  simp [scan, h]

/-- The first token of a text comes after white space, if any, which may as well not be there. -/
theorem scan_first : ∀ {text : List Char} {offset : Nat} {token : Token} {tokens : List Token},
    scan 0 offset text = token :: tokens → token.form ≠ .finish →
      ∃ chars rest, Cut token.form chars rest ∧ scan 0 token.span.stop rest = tokens ∧
        (∀ L, Spelling L (chars ++ rest) → Spelling L text) ∧
        (token.span.start = offset → text = chars ++ rest) := by
  intro text
  induction text with
  | nil =>
    intro offset token tokens h hform
    cases h
    exact absurd rfl hform
  | cons c others ih =>
    intro offset token tokens h hform
    cases hgap : isGap c with
    | true =>
      rw [scan_gap hgap] at h
      obtain ⟨chars, rest, hcut, hrest, hspelling, -⟩ := ih h hform
      refine ⟨chars, rest, hcut, hrest, fun L hL => .gap hgap (hspelling L hL), ?_⟩
      intro hstart
      have hlate : offset + c.utf8Size ≤ token.span.start :=
        scan_start token (by rw [h]; exact List.mem_cons_self)
      have hsize : 0 < c.utf8Size := c.utf8Size_pos
      omega
    | false =>
      obtain ⟨form, chars, rest, hsplit, hcut, hscan⟩ := scan_cut hgap offset
      rw [hscan] at h
      cases h
      rw [hsplit]
      exact ⟨chars, rest, hcut, rfl, fun _ hL => hL, fun _ => rfl⟩

/-- A text of one token is white space. -/
theorem scan_end : ∀ {text : List Char} {offset : Nat} {token : Token},
    scan 0 offset text = [token] → Spelling [] text := by
  intro text
  induction text with
  | nil =>
    intro offset token h
    exact .nil
  | cons c others ih =>
    intro offset token h
    cases hgap : isGap c with
    | true =>
      rw [scan_gap hgap] at h
      exact .gap hgap (ih h)
    | false =>
      obtain ⟨form, chars, rest, hsplit, hcut, hscan⟩ := scan_cut hgap offset
      rw [hscan] at h
      simp only [List.cons.injEq] at h
      exact absurd h.2 (scan_ne_nil rest 0 _)

end Token

/-- **A text whose tokens are spelled by lexemes of the grammar is a spelling of them.** -/
theorem spelling_of_scan {L : List Lexeme} {T : List Token} {span : Span} (hT : Spells L T)
    (hL : ∀ m, .mark m ∈ L → m ∈ marks) : ∀ {text : List Char} {offset : Nat},
    Token.scan 0 offset text = T ++ [⟨.finish, span⟩] → Spelling L text := by
  induction hT with
  | nil =>
    intro text offset h
    exact Token.scan_end h
  | @cons l L S M hl _ ih =>
    intro text offset h
    have ih {text : List Char} {offset : Nat} :=
      @ih (fun m hm => hL m (List.mem_cons_of_mem l hm)) text offset
    cases hl with
    | word =>
      obtain ⟨chars, rest, hcut, hrest, hspelling, -⟩ := Token.scan_first h nofun
      obtain ⟨hname, hparted⟩ := hcut
      exact hspelling _ (.cons (.word hname) (fun _ => hparted) (ih hrest))
    | number =>
      obtain ⟨chars, rest, hcut, hrest, hspelling, -⟩ := Token.scan_first h nofun
      obtain ⟨⟩ | hn := hcut
      exact hspelling _ (.cons (.number hn) nofun (ih hrest))
    | string =>
      obtain ⟨chars, rest, hcut, hrest, hspelling, -⟩ := Token.scan_first h nofun
      obtain ⟨⟩ | ⟨⟩ | ⟨hquote, hbody⟩ := hcut
      exact hspelling _ (.cons (.string hquote hbody) nofun (ih hrest))
    | mark =>
      obtain ⟨chars, rest, hcut, hrest, hspelling, -⟩ := Token.scan_first h nofun
      cases hcut
      exact hspelling _ (.cons (.mark (hL _ List.mem_cons_self)) nofun (ih hrest))
    | membership =>
      obtain ⟨chars, rest, hcut, hrest, hspelling, -⟩ := Token.scan_first h nofun
      obtain ⟨hname, hparted⟩ := hcut
      exact hspelling _ (.cons .operator (fun _ => hparted) (ih hrest))
    | @single op c _ hop =>
      obtain ⟨chars, rest, hcut, hrest, hspelling, -⟩ := Token.scan_first h nofun
      cases hcut
      have hword : (Lexeme.operator op).isWord = false := by
        cases op <;> first | rfl | exact absurd hop (by simp [BinaryOp.symbol])
      refine hspelling _ ?_
      rw [← hop]
      exact .cons .operator (by simp [hword]) (ih hrest)
    | @double op c d _ _ hne hop htouch =>
      obtain ⟨chars, rest, hcut, hrest, hspelling, -⟩ := Token.scan_first h nofun
      cases hcut
      -- The second mark touches the first, so no white space stands before it.
      obtain ⟨chars, after, hcut, hafter, -, htext⟩ := Token.scan_first hrest nofun
      cases hcut
      have hword : (Lexeme.operator op).isWord = false := by
        cases op <;> first | rfl | exact absurd rfl hne
      refine hspelling _ ?_
      have htouching : [c] ++ rest = op.symbol.toList ++ after := by
        rw [htext htouch.symm, hop]
        rfl
      rw [htouching]
      exact .cons .operator (by simp [hword]) (ih hafter)

/-- **The texts that are read are the spellings of what the grammar derives**, and the tree that is
read is the one that is derived. -/
theorem readAll_ofSource_iff {source : String} {e : Expr} :
    (∃ e', Reader.readAll (Token.ofSource source) = .ok e' ∧ e'.bare = e) ↔
      ∃ L, Spelling L source.toList ∧ Derives .choice L e := by
  rw [Reader.readAll_iff]
  constructor
  · rintro ⟨L, T, span, hscan, hT, hL⟩
    exact ⟨L, spelling_of_scan hT (derives_marks hL) hscan, hL⟩
  · rintro ⟨L, hspelling, hL⟩
    obtain ⟨T, span, hscan, hT⟩ := scan_spelling hspelling (derives_fluent hL) 0
    exact ⟨L, T, span, hscan, hT, hL⟩

end JsonTemplate
