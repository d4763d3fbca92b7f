/-
Texts of lexemes. A lexeme may be written in several ways, and lexemes in a row make a text with
any white space between them; only a word needs something after it that cannot go on with it
(`Spelling`). The tokens of such a text are those of its lexemes (`scan_spelling`), because in
what the grammar derives a numeral is never followed by something that would make it longer
(`derives_fluent`).
-/
import JsonTemplate.Proofs.Parsing
import Mathlib.Data.List.Chain

namespace JsonTemplate

/-! ## Lexemes side by side -/

/-- No numeral stands before a word or a numeral, and no dot before a numeral. -/
def Lexeme.Admits : Lexeme → Lexeme → Prop
  | .number _, .word _ | .number _, .number _ => False
  | .mark c, .number _ => c ≠ '.'
  | _, _ => True

theorem Lexeme.admits_mark (l : Lexeme) (c : Char) : l.Admits (.mark c) := by
  cases l <;> exact trivial

theorem Lexeme.admits_operator (l : Lexeme) (op : BinaryOp) : l.Admits (.operator op) := by
  cases l <;> exact trivial

theorem Lexeme.mark_admits {c : Char} (hc : c ≠ '.') (l : Lexeme) : (Lexeme.mark c).Admits l := by
  cases l <;> first | exact trivial | exact hc

theorem Lexeme.operator_admits (op : BinaryOp) (l : Lexeme) : (Lexeme.operator op).Admits l := by
  cases l <;> exact trivial

/-- Each lexeme may stand before the next one. -/
def Fluent (L : List Lexeme) : Prop := L.IsChain Lexeme.Admits

namespace Fluent

variable {L M : List Lexeme}

theorem append (hL : Fluent L) (hM : Fluent M) (h : ∀ m ∈ M.head?, ∀ l : Lexeme, l.Admits m) :
    Fluent (L ++ M) :=
  List.isChain_append.mpr ⟨hL, hM, fun l _ m hm => h m hm l⟩

/-- A mark other than a dot may stand anywhere. -/
theorem mark {c : Char} (hc : c ≠ '.') (hM : Fluent M) : Fluent (.mark c :: M) :=
  List.isChain_cons.mpr ⟨fun m _ => Lexeme.mark_admits hc m, hM⟩

theorem append_mark {c : Char} (hc : c ≠ '.') (hL : Fluent L) (hM : Fluent M) :
    Fluent (L ++ .mark c :: M) := by
  refine hL.append (hM.mark hc) ?_
  rintro m ⟨⟩ l
  exact l.admits_mark c

theorem word_mark {name : String} {c : Char} (h : Fluent (.mark c :: M)) :
    Fluent (.word name :: .mark c :: M) :=
  .cons_cons trivial h

end Fluent

theorem admits_operations {L : List Lexeme} {steps : List (BinaryOp × Expr)}
    (h : Derives .operations L steps) : ∀ m ∈ L.head?, ∀ l : Lexeme, l.Admits m := by
  cases h with
  | noOperations => exact nofun
  | operation _ _ =>
    rintro m ⟨⟩ l
    exact l.admits_operator _

theorem admits_suffixes {L : List Lexeme} {e out : Expr} (h : Derives (.suffixes e) L out) :
    ∀ m ∈ L.head?, ∀ l : Lexeme, l.Admits m := by
  cases h with
  | whole => exact nofun
  | field _ | method _ _ | index _ _ =>
    rintro m ⟨⟩ l
    exact l.admits_mark _

/-- **In what the grammar derives no numeral is followed by a word or a numeral, and no dot by a
numeral.** -/
theorem derives_fluent {c : Category} {L : List Lexeme} {r : c.Result} (h : Derives c L r) :
    Fluent L := by
  induction h with
  | plain _ ih => exact ih
  | choice _ _ _ ihcondition ihyes ihno =>
    exact ihcondition.append_mark (by decide) (ihyes.append_mark (by decide) ihno)
  | sequence _ hsteps ihoperand ihsteps => exact ihoperand.append ihsteps (admits_operations hsteps)
  | noOperations => exact .nil
  | @operation op _ _ _ _ _ hsteps ihoperand ihsteps =>
    exact List.isChain_cons.mpr ⟨fun m _ => Lexeme.operator_admits op m,
      ihoperand.append ihsteps (admits_operations hsteps)⟩
  | @unary op _ _ _ ih => exact ih.mark (by cases op <;> decide)
  | operand _ hsuffixes ihprimary ihsuffixes =>
    exact ihprimary.append ihsuffixes (admits_suffixes hsuffixes)
  | whole => exact .nil
  | field hsuffixes ih =>
    exact .cons_cons trivial (List.isChain_cons.mpr
      ⟨fun m hm => admits_suffixes hsuffixes m hm _, ih⟩)
  | method _ _ ihargs ih =>
    exact .cons_cons trivial
      (Fluent.word_mark ((ihargs.append_mark (by decide) ih).mark (by decide)))
  | index _ _ ihindex ih => exact (ihindex.append_mark (by decide) ih).mark (by decide)
  | number => exact .singleton _
  | string => exact .singleton _
  | bool b => exact .singleton _
  | null => exact .singleton _
  | name _ => exact .singleton _
  | call _ _ ihargs => exact .word_mark ((ihargs.append_mark (by decide) .nil).mark (by decide))
  | group _ ih => exact (ih.append_mark (by decide) .nil).mark (by decide)
  | list _ ih => exact (ih.append_mark (by decide) .nil).mark (by decide)
  | dict _ ih => exact (ih.append_mark (by decide) .nil).mark (by decide)
  | noItems => exact .nil
  | lastItem _ ih => exact ih
  | item _ _ ih ihitems => exact ih.append_mark (by decide) ihitems
  | noEntries => exact .nil
  | lastEntry _ _ ihkey ih => exact ihkey.append_mark (by decide) ih
  | entry _ _ _ ihkey ih ihentries =>
    exact ihkey.append_mark (by decide) (ih.append_mark (by decide) ihentries)

/-- The marks of the grammar. -/
def marks : List Char := ['?', ':', '.', ',', '(', ')', '[', ']', '\x7b', '\x7d', '!', '-']

theorem derives_marks {c : Category} {L : List Lexeme} {r : c.Result} (h : Derives c L r) :
    ∀ m, .mark m ∈ L → m ∈ marks := by
  induction h with
  | @unary op _ _ _ ih =>
    intro m hm
    rcases List.mem_cons.mp hm with hm | hm
    · cases hm
      cases op <;> decide
    · exact ih m hm
  | _ => simp_all [marks, or_imp]

/-! ## Lexemes as they are written -/

/-- A letter or an underscore, then letters, digits and underscores. -/
def IsWord : List Char → Prop
  | [] => False
  | c :: rest => Token.isWordStart c ∧ ∀ d ∈ rest, Token.isWordChar d

instance : DecidablePred IsWord
  | [] => inferInstanceAs (Decidable False)
  | c :: rest =>
    decidable_of_iff (Token.isWordStart c ∧ rest.all Token.isWordChar) (by simp [IsWord])

def IsDigits (cs : List Char) : Prop := cs ≠ [] ∧ ∀ c ∈ cs, c.isDigit

/-- No fraction, or a point and digits. The digits come second. -/
inductive IsFraction : List Char → List Char → Prop
  | none : IsFraction [] []
  | point {digits} : IsDigits digits → IsFraction ('.' :: digits) digits

/-- No sign, or a plus or minus. A minus is true. -/
inductive IsSign : List Char → Bool → Prop
  | none : IsSign [] false
  | plus : IsSign ['+'] false
  | minus : IsSign ['-'] true

/-- No exponent, or a letter, a sign and digits. The number comes second. -/
inductive IsExponent : List Char → Int → Prop
  | none : IsExponent [] 0
  | power {e sign negative digits} : e ∈ ['e', 'E'] → IsSign sign negative → IsDigits digits →
      IsExponent (e :: (sign ++ digits))
        (if negative then -(Decimal.natOfDigits digits : Int) else Decimal.natOfDigits digits)

/-- A numeral with the double it denotes. -/
inductive IsNumeral : List Char → Binary64 → Prop
  | parts {whole fraction digits exponent power} : IsDigits whole → IsFraction fraction digits →
      IsExponent exponent power →
      IsNumeral (whole ++ fraction ++ exponent)
        (Decimal.ofParts false whole digits power).toBinary64

/-- What may stand between quotes: a backslash takes the next character with it. -/
inductive IsBody (quote : Char) : List Char → Prop
  | nil : IsBody quote []
  | plain {c rest} : c ≠ quote → c ≠ '\\' → IsBody quote rest → IsBody quote (c :: rest)
  | escape {c rest} : IsBody quote rest → IsBody quote ('\\' :: c :: rest)

namespace Lexeme

/-- The ways to write a lexeme. -/
inductive Written : Lexeme → List Char → Prop
  | word {name} : IsWord name.toList → Written (.word name) name.toList
  | number {n chars} : IsNumeral chars n → Written (.number n) chars
  | string {quote body} : Token.isQuote quote → IsBody quote body →
      Written (.string (String.ofList (Escape.decode body))) (quote :: (body ++ [quote]))
  | mark {c} : c ∈ marks → Written (.mark c) [c]
  | operator {op} : Written (.operator op) op.symbol.toList

/-- Whether a lexeme is a word to the eye. -/
def isWord : Lexeme → Bool
  | word _ | operator .mem => true
  | _ => false

end Lexeme

/-- A text does not go on with a word. -/
def Parted (text : List Char) : Prop := ∀ c ∈ text.head?, Token.isWordChar c = false

theorem parted_space (text : List Char) : Parted (' ' :: text) := by
  rintro c ⟨⟩
  decide

/-- A text of lexemes with any white space between them, before and after. A word is followed by
something that is not part of a word. -/
inductive Spelling : List Lexeme → List Char → Prop
  | nil : Spelling [] []
  | gap {c L text} : Token.isGap c → Spelling L text → Spelling L (c :: text)
  | cons {l L chars text} : l.Written chars → (l.isWord → Parted text) → Spelling L text →
      Spelling (l :: L) (chars ++ text)

/-! ## Numerals are scanned to their end -/

theorem takeWhile_digits {digits after : List Char} (h : ∀ c ∈ digits, c.isDigit)
    (hafter : ∀ c ∈ after.head?, c.isDigit = false) :
    (digits ++ after).takeWhile Char.isDigit = digits := by
  rw [List.takeWhile_append_of_pos h]
  cases after with
  | nil => simp
  | cons c rest => simp [hafter c rfl]

/-- What follows a numeral does not make it longer. -/
structure NumeralEnds (after : List Char) : Prop where
  digit : ∀ c ∈ after.head?, c.isDigit = false
  power : ∀ c ∈ after.head?, c ∉ ['e', 'E']
  point : ∀ rest, after = '.' :: rest → ∀ c ∈ rest.head?, c.isDigit = false

namespace Decimal

theorem scanSign_sign {sign : List Char} {negative : Bool} (h : IsSign sign negative)
    {digits : List Char} (hdigits : IsDigits digits) (after : List Char) :
    scanSign (sign ++ digits ++ after) = (negative, sign.length) := by
  cases h with
  | none =>
    obtain ⟨hne, hall⟩ := hdigits
    obtain _ | ⟨d, digits⟩ := digits
    · exact absurd rfl hne
    · have hd : d.isDigit = true := hall d List.mem_cons_self
      have hminus : d ≠ '-' := by rintro rfl; exact absurd hd (by decide)
      have hplus : d ≠ '+' := by rintro rfl; exact absurd hd (by decide)
      simp [scanSign, hminus, hplus]
  | plus => rfl
  | minus => rfl

theorem scanExponent_exponent {exponent : List Char} {power : Int}
    (h : IsExponent exponent power) {after : List Char} (hafter : NumeralEnds after) :
    scanExponent (exponent ++ after) = (power, exponent.length) := by
  cases h with
  | none =>
    cases after with
    | nil => rfl
    | cons c rest =>
      have hc := hafter.power c rfl
      simp only [List.mem_cons, List.not_mem_nil, or_false] at hc
      simp [scanExponent, hc]
  | @power e sign negative digits he hsign hdigits =>
    have he' : e = 'e' ∨ e = 'E' := by simpa using he
    have htake : ((sign ++ digits ++ after).drop sign.length).takeWhile Char.isDigit = digits := by
      rw [List.append_assoc, List.drop_left, takeWhile_digits hdigits.2 hafter.digit]
    have hne : digits.isEmpty = false := by simpa using hdigits.1
    simp only [List.cons_append, scanExponent, if_pos he', scanSign_sign hsign hdigits after, htake,
      hne]
    simp
    omega

theorem exponent_head {exponent : List Char} {power : Int} (h : IsExponent exponent power)
    {after : List Char} (hafter : NumeralEnds after) :
    ∀ c ∈ (exponent ++ after).head?, c.isDigit = false := by
  cases h with
  | none => exact hafter.digit
  | power he _ _ =>
    rintro c ⟨⟩
    simp only [List.mem_cons, List.not_mem_nil, or_false] at he
    rcases he with rfl | rfl <;> decide

theorem scanFraction_none {exponent : List Char} {power : Int} (h : IsExponent exponent power)
    {after : List Char} (hafter : NumeralEnds after) : scanFraction (exponent ++ after) = [] := by
  cases h with
  | none =>
    by_cases hpoint : ∃ rest, after = '.' :: rest
    · obtain ⟨rest, rfl⟩ := hpoint
      exact takeWhile_digits (List.forall_mem_nil _) (hafter.point rest rfl)
    · cases after with
      | nil => rfl
      | cons c rest =>
        have hc : c ≠ '.' := by
          rintro rfl
          exact hpoint ⟨rest, rfl⟩
        simp [scanFraction, hc]
  | power he _ _ =>
    simp only [List.mem_cons, List.not_mem_nil, or_false] at he
    rcases he with rfl | rfl <;> rfl

theorem scan_numeral {whole fraction digits exponent after : List Char} {power : Int}
    (hwhole : IsDigits whole) (hfraction : IsFraction fraction digits)
    (hexponent : IsExponent exponent power) (hafter : NumeralEnds after) :
    scan (whole ++ fraction ++ exponent ++ after) =
      (ofParts false whole digits power, (whole ++ fraction ++ exponent).length) := by
  have hexp := exponent_head hexponent hafter
  have hrest : ∀ c ∈ (fraction ++ (exponent ++ after)).head?, c.isDigit = false := by
    cases hfraction with
    | none => exact hexp
    | point _ =>
      rintro c ⟨⟩
      decide
  have hscan : scanFraction (fraction ++ (exponent ++ after)) = digits ∧
      fractionLength digits = fraction.length := by
    cases hfraction with
    | none => exact ⟨scanFraction_none hexponent hafter, rfl⟩
    | point hdigits =>
      refine ⟨takeWhile_digits hdigits.2 hexp, ?_⟩
      have hne : digits.isEmpty = false := by simpa using hdigits.1
      simp [fractionLength, hne]
  have htake : (whole ++ (fraction ++ (exponent ++ after))).takeWhile Char.isDigit = whole :=
    takeWhile_digits hwhole.2 hrest
  simp only [scan, List.append_assoc, htake, List.drop_left, hscan.1, hscan.2,
    scanExponent_exponent hexponent hafter]
  simp
  omega

end Decimal

/-! ## A spelling is scanned into the tokens of its lexemes -/

theorem byteLength_append (cs ds : List Char) :
    Text.byteLength (cs ++ ds) = Text.byteLength cs + Text.byteLength ds := by
  induction cs with
  | nil => simp [Text.byteLength]
  | cons c cs ih =>
    simp only [List.cons_append, Text.byteLength, ih]
    omega

namespace Token

/-- The characters of a token are passed over. -/
theorem scan_skip (chars text : List Char) (offset : Nat) :
    scan chars.length offset (chars ++ text) = scan 0 (offset + Text.byteLength chars) text := by
  induction chars generalizing offset with
  | nil => rfl
  | cons c chars ih =>
    simp only [List.length_cons, List.cons_append, scan, ih, Text.byteLength, Nat.add_assoc]

/-- A token that takes given characters from the front of a text. -/
theorem scan_token {c : Char} {chars text : List Char} {form : Form} (hgap : isGap c = false)
    (hnext : next c (chars ++ text) = (form, chars.length + 1)) (offset : Nat) :
    scan 0 offset (c :: (chars ++ text)) =
      ⟨form, ⟨offset, offset + Text.byteLength (c :: chars)⟩⟩ ::
        scan 0 (offset + Text.byteLength (c :: chars)) text := by
  have htake : (c :: (chars ++ text)).take (chars.length + 1) = c :: chars := by simp
  have hskip := scan_skip chars text (offset + c.utf8Size)
  simp only [scan, hgap, hnext, htake, Nat.add_sub_cancel, hskip, Text.byteLength,
    Nat.add_assoc]
  rfl

theorem quoted?_body {quote : Char} {body : List Char} (h : IsBody quote body)
    (hquote : quote ≠ '\\') (after : List Char) :
    quoted? quote (body ++ quote :: after) = some body := by
  induction h with
  | nil =>
    cases after <;> simp [quoted?, hquote]
  | @plain c rest hc hbackslash _ ih =>
    cases hrest : rest ++ quote :: after with
    | nil => simp at hrest
    | cons d others =>
      rw [hrest] at ih
      simp [quoted?, hbackslash, hc, hrest, ih]
  | escape _ ih => simp [quoted?, ih]

/-- The white space characters. -/
def gaps : List Char := [' ', '\t', '\r', '\n']

theorem mem_gaps {c : Char} (h : isGap c) : c ∈ gaps := by
  simpa [isGap, gaps, or_assoc] using h

theorem isGap_eq_false {p : Char → Bool} (hp : gaps.all (!p ·)) {c : Char} (h : p c) :
    isGap c = false := by
  cases hgap : isGap c with
  | false => rfl
  | true =>
    have hnot := List.all_eq_true.mp hp c (mem_gaps hgap)
    simp [h] at hnot

theorem isWordStart_digit {c : Char} (h : c.isDigit) : isWordStart c = false := by
  simp only [Char.isDigit, Bool.and_eq_true, decide_eq_true_eq] at h
  have hne : c ≠ '_' := by
    rintro rfl
    revert h
    decide
  -- The letters as ranges of character codes, as the digits are given above.
  have hletter : c.isAlpha = (decide (65 ≤ c.val ∧ c.val ≤ 90) ||
    decide (97 ≤ c.val) && decide (c.val ≤ 122)) := rfl
  simp only [isWordStart, hletter, Bool.or_eq_false_iff, beq_eq_false_iff_ne,
    Bool.and_eq_false_iff, decide_eq_false_iff_not]
  refine ⟨⟨?_, ?_⟩, hne⟩ <;> grind

/-- A character that is a token of its own. -/
def standsAlone (c : Char) : Bool := !isGap c && !isWordStart c && !c.isDigit && !isQuote c

theorem scan_mark {c : Char} (h : standsAlone c) (text : List Char) (offset : Nat) :
    scan 0 offset (c :: text) =
      ⟨.mark c, ⟨offset, offset + Text.byteLength [c]⟩⟩ ::
        scan 0 (offset + Text.byteLength [c]) text := by
  simp only [standsAlone, Bool.and_eq_true, Bool.not_eq_true'] at h
  obtain ⟨⟨⟨hgap, hword⟩, hdigit⟩, hquote⟩ := h
  have hnext : next c ([] ++ text) = (.mark c, ([] : List Char).length + 1) := by
    simp [next, hword, hdigit, hquote]
  exact scan_token hgap hnext offset

theorem scan_word {name : String} (h : IsWord name.toList) {text : List Char}
    (htext : Parted text) (offset : Nat) :
    scan 0 offset (name.toList ++ text) =
      ⟨.word name, ⟨offset, offset + Text.byteLength name.toList⟩⟩ ::
        scan 0 (offset + Text.byteLength name.toList) text := by
  cases hname : name.toList with
  | nil => simp [hname, IsWord] at h
  | cons c rest =>
    rw [hname] at h
    obtain ⟨hstart, hrest⟩ := h
    have hgap : isGap c = false := isGap_eq_false (by decide) hstart
    have htake : (rest ++ text).takeWhile isWordChar = rest := by
      rw [List.takeWhile_append_of_pos hrest]
      cases text with
      | nil => simp
      | cons d others => simp [htext d rfl]
    have hword : String.ofList (c :: rest) = name := by rw [← hname, String.ofList_toList]
    refine scan_token hgap ?_ offset
    simp [next, hstart, htake, hword]

theorem scan_number {n : Binary64} {chars : List Char} (h : IsNumeral chars n)
    {text : List Char} (htext : NumeralEnds text) (offset : Nat) :
    scan 0 offset (chars ++ text) =
      ⟨.number n, ⟨offset, offset + Text.byteLength chars⟩⟩ ::
        scan 0 (offset + Text.byteLength chars) text := by
  obtain @⟨whole, fraction, digits, exponent, power, hwhole, hfraction, hexponent⟩ := h
  have hscan := Decimal.scan_numeral hwhole hfraction hexponent htext
  obtain ⟨hne, hall⟩ := hwhole
  obtain _ | ⟨c, whole⟩ := whole
  · exact absurd rfl hne
  have hdigit : c.isDigit = true := hall c List.mem_cons_self
  simp only [List.cons_append] at hscan ⊢
  refine scan_token (isGap_eq_false (by decide) hdigit) ?_ offset
  simp only [next, isWordStart_digit hdigit, hdigit, hscan, Bool.false_eq_true, ↓reduceIte,
    List.length_cons]

theorem scan_string {quote : Char} {body : List Char} (hquote : isQuote quote)
    (h : IsBody quote body) (text : List Char) (offset : Nat) :
    scan 0 offset (quote :: (body ++ [quote]) ++ text) =
      ⟨.string body, ⟨offset, offset + Text.byteLength (quote :: (body ++ [quote]))⟩⟩ ::
        scan 0 (offset + Text.byteLength (quote :: (body ++ [quote]))) text := by
  have hcases : quote = '\'' ∨ quote = '"' := by simpa [isQuote] using hquote
  have hother : quote ≠ '\\' ∧ isWordStart quote = false ∧ quote.isDigit = false := by
    rcases hcases with rfl | rfl <;> decide
  obtain ⟨hbackslash, hword, hdigit⟩ := hother
  have hbody := quoted?_body h hbackslash text
  refine scan_token (isGap_eq_false (by decide) hquote) ?_ offset
  simp [next, hword, hdigit, hquote, hbody]

end Token

/-- The operators that are written with marks. -/
theorem symbol_marks {op : BinaryOp} (h : op ≠ .mem) :
    (∃ c, op.symbol.toList = [c] ∧ Token.standsAlone c) ∨
      ∃ c d, op.symbol.toList = [c, d] ∧ Token.standsAlone c ∧ Token.standsAlone d := by
  cases op with
  | or => exact .inr ⟨'|', '|', by decide⟩
  | and => exact .inr ⟨'&', '&', by decide⟩
  | eq => exact .inr ⟨'=', '=', by decide⟩
  | ne => exact .inr ⟨'!', '=', by decide⟩
  | lt => exact .inl ⟨'<', by decide⟩
  | le => exact .inr ⟨'<', '=', by decide⟩
  | gt => exact .inl ⟨'>', by decide⟩
  | ge => exact .inr ⟨'>', '=', by decide⟩
  | mem => exact absurd rfl h
  | add => exact .inl ⟨'+', by decide⟩
  | sub => exact .inl ⟨'-', by decide⟩
  | mul => exact .inl ⟨'*', by decide⟩
  | div => exact .inl ⟨'/', by decide⟩
  | rem => exact .inl ⟨'%', by decide⟩

theorem marks_standAlone : ∀ c ∈ marks, Token.standsAlone c :=
  List.all_eq_true.mp (by decide)

/-- A written lexeme is scanned into its tokens. -/
theorem Lexeme.Written.scan {l : Lexeme} {chars : List Char} (h : l.Written chars)
    {text : List Char} (hword : l.isWord → Parted text)
    (hnumber : ∀ n, l = .number n → NumeralEnds text) (offset : Nat) :
    ∃ S, Token.scan 0 offset (chars ++ text) =
      S ++ Token.scan 0 (offset + Text.byteLength chars) text ∧ l.Tokens S := by
  cases h with
  | word hname => exact ⟨_, Token.scan_word hname (hword rfl) offset, .word⟩
  | number hn => exact ⟨_, Token.scan_number hn (hnumber _ rfl) offset, .number⟩
  | string hquote hbody => exact ⟨_, Token.scan_string hquote hbody text offset, .string⟩
  | @mark c hc =>
    exact ⟨[⟨.mark c, _⟩], Token.scan_mark (marks_standAlone c hc) text offset, .mark⟩
  | @operator op =>
    by_cases hmem : op = .mem
    · subst hmem
      have hin : IsWord "in".toList := by decide
      exact ⟨[⟨.word "in", _⟩], Token.scan_word hin (hword rfl) offset, .membership⟩
    · rcases symbol_marks hmem with ⟨c, hop, hc⟩ | ⟨c, d, hop, hc, hd⟩
      · rw [hop]
        exact ⟨[⟨.mark c, _⟩], Token.scan_mark hc text offset, .single hop⟩
      · -- The second mark starts where the first one ends.
        have hfirst := Token.scan_mark hc (d :: text) offset
        rw [Token.scan_mark hd text] at hfirst
        have hlength : Text.byteLength [c, d] = Text.byteLength [c] + Text.byteLength [d] :=
          byteLength_append [c] [d]
        rw [hop, hlength, ← Nat.add_assoc]
        exact ⟨[⟨.mark c, _⟩, ⟨.mark d, _⟩], hfirst, .double hmem hop rfl⟩

/-- The first character of a written lexeme: a digit only of a numeral, one that starts an
exponent only of a word, and a point only of a dot. -/
theorem Lexeme.Written.head {l : Lexeme} {chars : List Char} (h : l.Written chars) :
    ∃ c rest, chars = c :: rest ∧ ((∀ n, l ≠ .number n) → c.isDigit = false) ∧
      ((∀ name, l ≠ .word name) → c ∉ ['e', 'E']) ∧ (c = '.' → l = .mark '.' ∧ rest = []) := by
  cases h with
  | @word name hname =>
    cases hchars : name.toList with
    | nil => simp [hchars, IsWord] at hname
    | cons c rest =>
      rw [hchars] at hname
      have hdigit : c.isDigit = false := by
        cases hd : c.isDigit with
        | false => rfl
        | true => exact absurd hname.1 (by simp [Token.isWordStart_digit hd])
      refine ⟨c, rest, rfl, fun _ => hdigit, fun hword => absurd rfl (hword name), ?_⟩
      rintro rfl
      exact absurd hname.1 (by decide)
  | @number n _ hn =>
    obtain @⟨whole, fraction, digits, exponent, power, ⟨hne, hall⟩, _, _⟩ := hn
    obtain _ | ⟨c, whole⟩ := whole
    · exact absurd rfl hne
    have hdigit : c.isDigit = true := hall c List.mem_cons_self
    refine ⟨c, _, rfl, fun hnumber => absurd rfl (hnumber _), fun _ hc => ?_, ?_⟩
    · simp only [List.mem_cons, List.not_mem_nil, or_false] at hc
      rcases hc with rfl | rfl <;> exact absurd hdigit (by decide)
    · rintro rfl
      exact absurd hdigit (by decide)
  | @string quote body hquote _ =>
    have hcases : quote = '\'' ∨ quote = '"' := by simpa [Token.isQuote] using hquote
    have hother : quote.isDigit = false ∧ quote ∉ ['e', 'E'] ∧ quote ≠ '.' := by
      rcases hcases with rfl | rfl <;> decide
    obtain ⟨hdigit, hpower, hpoint⟩ := hother
    exact ⟨quote, _, rfl, fun _ => hdigit, fun _ => hpower, fun h => absurd h hpoint⟩
  | @mark c hc =>
    have hmarks : ∀ c ∈ marks, c.isDigit = false ∧ c ∉ ['e', 'E'] := by simp [marks]
    refine ⟨c, [], rfl, fun _ => (hmarks c hc).1, fun _ => (hmarks c hc).2, ?_⟩
    rintro rfl
    exact ⟨rfl, rfl⟩
  | @operator op =>
    have hop : ∃ c rest, op.symbol.toList = c :: rest ∧ c.isDigit = false ∧ c ∉ ['e', 'E'] ∧
        c ≠ '.' := by
      cases op <;> exact ⟨_, _, rfl, by decide⟩
    obtain ⟨c, rest, hchars, hdigit, hpower, hpoint⟩ := hop
    exact ⟨c, rest, hchars, fun _ => hdigit, fun _ => hpower, fun h => absurd h hpoint⟩

theorem gap_head {c : Char} (h : Token.isGap c) :
    c.isDigit = false ∧ c ∉ ['e', 'E'] ∧ c ≠ '.' := by
  have hgaps : ∀ c ∈ Token.gaps, c.isDigit = false ∧ c ∉ ['e', 'E'] ∧ c ≠ '.' := by
    simp [Token.gaps]
  exact hgaps c (Token.mem_gaps h)

theorem Spelling.head_not_digit {L : List Lexeme} {text : List Char} (h : Spelling L text)
    (hL : ∀ l ∈ L.head?, ∀ n, l ≠ .number n) : ∀ c ∈ text.head?, c.isDigit = false := by
  cases h with
  | nil => exact nofun
  | gap hgap _ =>
    rintro d ⟨⟩
    exact (gap_head hgap).1
  | cons hl _ _ =>
    obtain ⟨c, rest, rfl, hdigit, -, -⟩ := hl.head
    rintro d ⟨⟩
    exact hdigit (hL _ rfl)

/-- A numeral is not made longer by what it may be followed by. -/
theorem Spelling.numeralEnds {n : Binary64} {L : List Lexeme} {text : List Char}
    (h : Spelling L text) (hL : Fluent (.number n :: L)) : NumeralEnds text := by
  obtain ⟨hadmits, hfluent⟩ := List.isChain_cons.mp hL
  have hnumber : ∀ l ∈ L.head?, ∀ m, l ≠ .number m := by
    rintro l hl m rfl
    exact hadmits _ hl
  refine ⟨h.head_not_digit hnumber, ?_, ?_⟩
  · cases h with
    | nil => exact nofun
    | gap hgap _ =>
      rintro d ⟨⟩
      exact (gap_head hgap).2.1
    | @cons l _ _ _ hl _ _ =>
      obtain ⟨c, rest, rfl, -, hpower, -⟩ := hl.head
      rintro d ⟨⟩
      refine hpower ?_
      rintro name rfl
      exact hadmits _ rfl
  · rintro rest rfl
    generalize htext : '.' :: rest = text at h
    cases h with
    | nil => cases htext
    | gap hgap _ =>
      cases htext
      exact absurd rfl (gap_head hgap).2.2
    | @cons l L chars others hl _ hothers =>
      -- A dot is followed by something that is not a numeral.
      obtain ⟨c, tail, rfl, -, -, hpoint⟩ := hl.head
      cases htext
      obtain ⟨rfl, rfl⟩ := hpoint rfl
      refine hothers.head_not_digit ?_
      rintro l hl m rfl
      exact (List.isChain_cons.mp hfluent).1 _ hl rfl

/-- **The tokens of a spelling are those of its lexemes, and the end.** -/
theorem scan_spelling {L : List Lexeme} {text : List Char} (h : Spelling L text)
    (hL : Fluent L) (offset : Nat) :
    ∃ T span, Token.scan 0 offset text = T ++ [⟨.finish, span⟩] ∧ Spells L T := by
  induction h generalizing offset with
  | nil => exact ⟨[], _, rfl, .nil⟩
  | @gap c _ text hgap _ ih =>
    have hskip : Token.scan 0 offset (c :: text) = Token.scan 0 (offset + c.utf8Size) text := by
      simp [Token.scan, hgap]
    rw [hskip]
    exact ih hL _
  | @cons l L chars text hl hword htext ih =>
    have hnumber : ∀ n, l = .number n → NumeralEnds text := by
      rintro n rfl
      exact htext.numeralEnds hL
    obtain ⟨S, hS, hl⟩ := hl.scan hword hnumber offset
    obtain ⟨T, span, hT, hspells⟩ := ih (List.isChain_cons.mp hL).2 (offset + Text.byteLength chars)
    exact ⟨S ++ T, span, by rw [hS, hT, List.append_assoc], .cons hl hspells⟩

/-! ## Lexemes that can be written -/

theorem Spelling.written {L : List Lexeme} {text : List Char} (h : Spelling L text) :
    ∀ l ∈ L, ∃ chars, l.Written chars := by
  induction h with
  | nil => exact nofun
  | gap _ _ ih => exact ih
  | cons hl _ _ ih =>
    intro l hmem
    rcases List.mem_cons.mp hmem with rfl | hmem
    · exact ⟨_, hl⟩
    · exact ih l hmem

/-- Lexemes that can be written make a text, with a space after each. -/
theorem exists_spelling {L : List Lexeme} (h : ∀ l ∈ L, ∃ chars, l.Written chars) :
    ∃ text, Spelling L text := by
  induction L with
  | nil => exact ⟨[], .nil⟩
  | cons l L ih =>
    obtain ⟨chars, hl⟩ := h l List.mem_cons_self
    obtain ⟨text, htext⟩ := ih fun m hm => h m (List.mem_cons_of_mem l hm)
    exact ⟨chars ++ ' ' :: text,
      .cons hl (fun _ => parted_space text) (.gap (by decide) htext)⟩

end JsonTemplate
