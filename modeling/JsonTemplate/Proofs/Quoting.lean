/-
String literals. A text between quotes is one token whatever it holds (`parse_quoted`), so a
literal is what its body is decoded to. Every string has a body that is decoded to it
(`parse_quoted_string`). A body is read element by element, one character or escape after the other
(`Escape.Reads`); the decoder gives that reading as long as what follows a `\u` that names no
character is clear of escapes (`Escape.Clear`), because it takes four characters there unseen.
-/
import JsonTemplate.Proofs.Spelling
import Mathlib.Logic.Relation

namespace JsonTemplate

/-! ## A text between quotes is one token -/

namespace Expr

/-- **A body between quotes is parsed as the literal it is decoded to**, over the whole text. -/
theorem parse_quoted {quote : Char} {body : List Char} (hquote : Token.isQuote quote)
    (h : IsBody quote body) :
    parse (String.ofList (quote :: (body ++ [quote]))) =
      .ok (.literal ⟨0, Text.byteLength (quote :: (body ++ [quote]))⟩
        (.string (String.ofList (Escape.decode body)))) := by
  have hscan := Token.scan_string hquote h [] 0
  rw [List.append_nil] at hscan
  simp only [parse, Token.ofSource, String.toList_ofList, hscan, Nat.zero_add]
  rfl

end Expr

/-! ## Four digits -/

namespace Text

theorem lt_of_isSome_hexDigit? {c : Char} (h : (hexDigit? c).isSome) : c.toNat < 128 := by
  have hle : ∀ d : Char, c ≤ d → c.toNat ≤ d.toNat := fun _ h => h
  unfold hexDigit? at h
  split at h
  · rename_i hdigit
    simp only [Char.isDigit, Bool.and_eq_true, decide_eq_true_eq] at hdigit
    exact Nat.lt_of_le_of_lt (hle '9' hdigit.2) (by decide)
  · split at h
    · rename_i hlower
      exact Nat.lt_of_le_of_lt (hle 'f' hlower.2) (by decide)
    · split at h
      · rename_i hupper
        exact Nat.lt_of_le_of_lt (hle 'F' hupper.2) (by decide)
      · cases h

theorem toLower_eq_self {c : Char} (h : 128 ≤ c.toNat) : c.toLower = c := by
  refine dif_neg fun hrange => ?_
  have hle : c.toNat ≤ 'Z'.toNat := hrange.2
  exact absurd (Nat.le_trans h hle) (by decide)

/-- A digit of either case has the number of the digit in lower case. -/
theorem hexDigit?_eq_some_iff {c : Char} {v : Nat} :
    hexDigit? c = some v ↔ v < 16 ∧ c.toLower = hexDigit v := by
  have hascii : ∀ n < 128, ∀ v < 16,
      hexDigit? (Char.ofNat n) = some v ↔ (Char.ofNat n).toLower = hexDigit v := by
    decide +kernel
  have hbound : ∀ n < 128, ∀ v ∈ hexDigit? (Char.ofNat n), v < 16 := by decide +kernel
  constructor
  · intro h
    have hc : c.toNat < 128 := lt_of_isSome_hexDigit? (by simp [h])
    rw [← Char.ofNat_toNat c] at h ⊢
    have hv : v < 16 := hbound _ hc v h
    exact ⟨hv, (hascii _ hc v hv).mp h⟩
  · intro h
    obtain ⟨hv, hlower⟩ := h
    have hc : c.toNat < 128 := by
      by_contra hge
      rw [toLower_eq_self (Nat.not_lt.mp hge)] at hlower
      have hsmall : ∀ v < 16, (hexDigit v).toNat < 128 := by decide
      rw [hlower] at hge
      exact hge (hsmall v hv)
    rw [← Char.ofNat_toNat c] at hlower ⊢
    exact (hascii _ hc v hv).mpr hlower

theorem isSome_of_hexNumber? {digits : List Char} {n : Nat} (h : hexNumber? digits = some n) :
    ∀ c ∈ digits, (hexDigit? c).isSome := by
  unfold hexNumber? at h
  generalize 0 = m at h
  induction digits generalizing m with
  | nil => simp
  | cons c digits ih =>
    obtain ⟨m', hm', hdigits⟩ := Option.bind_eq_some_iff.mp h
    obtain ⟨digit, hdigit, -⟩ := Option.map_eq_some_iff.mp hm'
    exact List.forall_mem_cons.mpr ⟨by simp [hdigit], ih m' hdigits⟩

/-- The last four digits of a number. -/
def fourDigits (n : Nat) : List Char :=
  [n / 4096 % 16, n / 256 % 16, n / 16 % 16, n % 16].map hexDigit

/-- Four digits are read as the number that has them, in either case. -/
theorem hexNumber?_eq_some_iff {digits : List Char} {n : Nat} (h : digits.length = 4) :
    hexNumber? digits = some n ↔ n < 65536 ∧ digits.map Char.toLower = fourDigits n := by
  obtain ⟨a, b, c, d, rfl⟩ := List.length_eq_four.mp h
  simp only [hexNumber?, List.foldlM_cons, List.foldlM_nil, Option.bind_eq_bind,
    Option.bind_eq_some_iff, Option.map_eq_some_iff, hexDigit?_eq_some_iff, fourDigits,
    List.map_cons, List.map_nil, List.cons.injEq, and_true]
  constructor
  · intro h
    obtain ⟨_, ⟨i, ⟨hi, ha⟩, rfl⟩, _, ⟨j, ⟨hj, hb⟩, rfl⟩, _, ⟨k, ⟨hk, hc⟩, rfl⟩, _,
      ⟨l, ⟨hl, hd⟩, rfl⟩, hn⟩ := h
    cases hn
    have h₁ : (16 * (16 * (16 * (16 * 0 + i) + j) + k) + l) / 4096 % 16 = i := by omega
    have h₂ : (16 * (16 * (16 * (16 * 0 + i) + j) + k) + l) / 256 % 16 = j := by omega
    have h₃ : (16 * (16 * (16 * (16 * 0 + i) + j) + k) + l) / 16 % 16 = k := by omega
    have h₄ : (16 * (16 * (16 * (16 * 0 + i) + j) + k) + l) % 16 = l := by omega
    rw [h₁, h₂, h₃, h₄]
    exact ⟨by omega, ha, hb, hc, hd⟩
  · intro h
    obtain ⟨hn, ha, hb, hc, hd⟩ := h
    have hmod : ∀ m, m % 16 < 16 := fun m => Nat.mod_lt m (by decide)
    refine ⟨_, ⟨_, ⟨hmod _, ha⟩, rfl⟩, _, ⟨_, ⟨hmod _, hb⟩, rfl⟩, _, ⟨_, ⟨hmod _, hc⟩, rfl⟩, _,
      ⟨_, ⟨hmod _, hd⟩, rfl⟩, ?_⟩
    exact congrArg some (by omega)

end Text

/-! ## Elements of a body -/

namespace Escape

variable {body rest s : List Char}

/-- The letters of escapes, each with the character that it stands for. -/
def letters : List (Char × Char) :=
  [('n', '\n'), ('t', '\t'), ('r', '\r'), ('"', '"'), ('\'', '\''), ('\\', '\\')]

/-- The text is the number of a character in four digits of either case. -/
def Names (text : List Char) (c : Char) : Prop :=
  c.toNat < 65536 ∧ text.map Char.toLower = Text.fourDigits c.toNat

instance (text : List Char) (c : Char) : Decidable (Names text c) :=
  inferInstanceAs (Decidable (_ ∧ _))

/-- The first element of a body, the text it stands for, and what follows it: a character, an
escape by letter or by four digits, or a backslash and a character that are kept as written. -/
inductive Takes : List Char → List Char → List Char → Prop
  | plain {c rest} : c ≠ '\\' → Takes (c :: rest) [c] rest
  | letter {c d rest} : letters.lookup c = some d → Takes ('\\' :: c :: rest) [d] rest
  | number {d rest} : Names (rest.take 4) d → Takes ('\\' :: 'u' :: rest) [d] (rest.drop 4)
  | kept {c rest} : letters.lookup c = none → (c = 'u' → ∀ d, ¬Names (rest.take 4) d) →
      Takes ('\\' :: c :: rest) ['\\', c] rest

/-- A body read element by element. -/
inductive Reads : List Char → List Char → Prop
  | nil : Reads [] []
  | step {body image rest s} : Takes body image rest → Reads rest s → Reads body (image ++ s)

/-- The reading of a body comes to a place with `rest` after it. -/
def Arrives : List Char → List Char → Prop :=
  Relation.ReflTransGen fun body rest => ∃ image, Takes body image rest

/-- No letter escape and no `\u` begins among the first characters. -/
def Unescaped (count : Nat) (text : List Char) : Prop :=
  ∀ i < count, text[i]? = some '\\' → ∀ c ∈ text[i + 1]?, letters.lookup c = none ∧ c ≠ 'u'

instance (count : Nat) (text : List Char) : Decidable (Unescaped count text) :=
  inferInstanceAs (Decidable (∀ i < count, text[i]? = some '\\' → ∀ c ∈ text[i + 1]?, _))

/-- A number with a sign or with too few digits. -/
def Misnumbered (text : List Char) : Prop :=
  ∃ digits, (text = '+' :: digits ∨ text = digits ∧ digits.length < 4) ∧ digits ≠ [] ∧
    ∀ c ∈ digits, (Text.hexDigit? c).isSome

/-- After each `\u` that names no character come four characters, or all that are left, among
which no escape begins and which are not a number with a sign or with too few digits. -/
def Clear (body : List Char) : Prop :=
  ∀ rest, Arrives body ('\\' :: 'u' :: rest) → (∀ c, ¬Names (rest.take 4) c) →
    Unescaped 4 rest ∧ ¬Misnumbered (rest.take 4)

/-! ### The decoder at each element -/

theorem decode_plain {c : Char} (h : c ≠ '\\') : decode (c :: rest) = c :: decode rest := by
  simp [decode, h]

theorem letter?_eq_lookup (c : Char) : letter? c = letters.lookup c := by
  unfold letter?
  split <;> first | rfl | exact (List.lookup_eq_none_iff.mpr (by simp_all [letters])).symm

theorem decode_letter {c d : Char} (h : letters.lookup c = some d) :
    decode ('\\' :: c :: rest) = d :: decode rest := by
  have hu : c ≠ 'u' := by
    intro hc
    rw [hc] at h
    cases h
  simp [decode, letter?_eq_lookup, h, hu]

theorem decode_kept {c : Char} (h : letters.lookup c = none) (hu : c ≠ 'u') :
    decode ('\\' :: c :: rest) = '\\' :: c :: decode rest := by
  simp [decode, letter?_eq_lookup, h, hu]

theorem decode_number (rest : List Char) :
    decode ('\\' :: 'u' :: rest) = numbered (rest.take 4) ++ decode (rest.drop 4) := by
  match rest with
  | [] | [_] | [_, _] | [_, _, _] => simp [decode]
  | _ :: _ :: _ :: _ :: _ => rfl

theorem number?_of_digits {digits : List Char} {n : Nat} (h : Text.hexNumber? digits = some n)
    (hne : digits ≠ []) : number? digits = some n := by
  have hempty : digits.isEmpty = false := by simpa using hne
  have hplus : ∀ rest, digits ≠ '+' :: rest := by
    intro rest hdigits
    rw [hdigits] at h
    cases h
  unfold number?
  split
  · exact absurd rfl (hplus _)
  · simp [hempty, h]

theorem charOf?_eq_some_iff {n : Nat} {c : Char} : charOf? n = some c ↔ c.toNat = n := by
  unfold charOf?
  split
  · rename_i hvalid
    constructor
    · intro h
      have hc : Char.ofNat n = Char.ofNatAux n hvalid := dif_pos hvalid
      rw [← Option.some.inj h, hc]
      rfl
    · intro h
      rw [← h, Char.ofNat_toNat]
  · rename_i hvalid
    constructor
    · intro h
      cases h
    · intro h
      rw [← h] at hvalid
      exact absurd c.valid hvalid

theorem Names.length {text : List Char} {c : Char} (h : Names text c) : text.length = 4 := by
  simpa [Text.fourDigits] using congrArg List.length h.2

theorem names_iff {text : List Char} {c : Char} (hlength : text.length = 4) :
    Names text c ↔ Text.hexNumber? text = some c.toNat :=
  (Text.hexNumber?_eq_some_iff hlength).symm

theorem numbered_of_names {text : List Char} {c : Char} (h : Names text c) :
    numbered text = [c] := by
  have hne : text ≠ [] := by
    intro htext
    simp [htext, Names, Text.fourDigits] at h
  have hnumber := number?_of_digits ((names_iff h.length).mp h) hne
  simp [numbered, hnumber, charOf?_eq_some_iff.mpr rfl]

theorem Names.unique {text : List Char} {c d : Char} (h : Names text c) (h' : Names text d) :
    c = d := by
  simpa [numbered_of_names h] using numbered_of_names h'

theorem numbered_of_not {text : List Char} (hlength : text.length ≤ 4)
    (hnames : ∀ c, ¬Names text c) (hnumber : ¬Misnumbered text) :
    numbered text = '\\' :: 'u' :: text := by
  unfold numbered
  split
  · rename_i c hbind
    obtain ⟨n, hn, hc⟩ := Option.bind_eq_some_iff.mp hbind
    unfold number? at hn
    split at hn
    · rename_i digits
      by_cases hne : digits = []
      · simp [hne] at hn
      · have hdigits : Text.hexNumber? digits = some n := by simpa [hne] using hn
        exact absurd ⟨digits, .inl rfl, hne, Text.isSome_of_hexNumber? hdigits⟩ hnumber
    · by_cases hne : text = []
      · simp [hne] at hn
      · have hdigits : Text.hexNumber? text = some n := by simpa [hne] using hn
        obtain hfour | hless := Nat.eq_or_lt_of_le hlength
        · rw [← charOf?_eq_some_iff.mp hc] at hdigits
          exact absurd ((names_iff hfour).mpr hdigits) (hnames c)
        · exact absurd ⟨text, .inr ⟨rfl, hless⟩, hne, Text.isSome_of_hexNumber? hdigits⟩ hnumber
  · rfl

/-! ### What the decoder skips -/

theorem Takes.arrives {image : List Char} (h : Takes body image rest) : Arrives body rest :=
  .single ⟨image, h⟩

theorem Takes.length_lt {image : List Char} (h : Takes body image rest) :
    rest.length < body.length := by
  cases h <;> simp only [List.length_cons, List.length_drop] <;> omega

theorem Clear.after {image : List Char} (h : Takes body image rest) (hclear : Clear body) :
    Clear rest :=
  fun after hafter => hclear after (h.arrives.trans hafter)

/-- A body has one first element. -/
theorem Takes.unique {image image' rest' : List Char} (h : Takes body image rest)
    (h' : Takes body image' rest') : image = image' ∧ rest = rest' := by
  have hu : letters.lookup 'u' = none := rfl
  cases h with
  | plain hc => cases h' <;> simp_all
  | letter hletter => cases h' <;> simp_all
  | number hnames =>
    cases h' with
    | plain hc => exact absurd rfl hc
    | letter hletter => cases hletter
    | number hnames' => exact ⟨by rw [hnames.unique hnames'], rfl⟩
    | kept _ hno => exact absurd hnames (hno rfl _)
  | kept hletter hno => cases h' <;> simp_all

theorem clear_nil : Clear [] := by
  intro rest hrest
  obtain heq | ⟨next, ⟨image, hnext⟩, -⟩ := Relation.ReflTransGen.cases_head hrest
  · cases heq
  · cases hnext

/-- A body is clear if what follows its first element is, and so is that of a `\u` at its front
that names no character. -/
theorem Takes.clear {image : List Char} (h : Takes body image rest) (hclear : Clear rest)
    (hfirst : ∀ after, body = '\\' :: 'u' :: after → (∀ c, ¬Names (after.take 4) c) →
      Unescaped 4 after ∧ ¬Misnumbered (after.take 4)) : Clear body := by
  intro after hafter
  obtain heq | ⟨next, ⟨image', hnext⟩, hafter⟩ := Relation.ReflTransGen.cases_head hafter
  · exact hfirst after heq
  · obtain ⟨-, rfl⟩ := h.unique hnext
    exact hclear after hafter

theorem clear_plain {c : Char} (h : c ≠ '\\') (hclear : Clear rest) : Clear (c :: rest) :=
  (Takes.plain h).clear hclear fun _ heq => absurd (List.head_eq_of_cons_eq heq) h

theorem Unescaped.first {c : Char} {count : Nat} (h : Unescaped (count + 1) ('\\' :: c :: rest)) :
    letters.lookup c = none ∧ c ≠ 'u' :=
  h 0 (Nat.succ_pos _) rfl c rfl

theorem Unescaped.tail {c : Char} {count : Nat} (h : Unescaped (count + 1) (c :: rest)) :
    Unescaped count rest :=
  fun i hi hbackslash => h (i + 1) (Nat.succ_lt_succ hi) hbackslash

/-- Characters among which no escape begins are read as they stand, also if the cut after them
falls between a backslash and what it keeps. -/
theorem Reads.drop (h : Reads rest s) {count : Nat} (hclear : Clear rest)
    (hcount : Unescaped count rest) :
    ∃ s', s = rest.take count ++ s' ∧ Reads (rest.drop count) s' ∧ Clear (rest.drop count) := by
  induction h generalizing count with
  | nil => exact ⟨[], by simp, by simpa using Reads.nil, by simpa using hclear⟩
  | @step body image rest s htakes hreads ih =>
    cases count with
    | zero => exact ⟨_, rfl, .step htakes hreads, hclear⟩
    | succ count =>
      have hrest := hclear.after htakes
      cases htakes with
      | plain _ =>
        obtain ⟨s', hs, hreads', hclear'⟩ := ih hrest hcount.tail
        exact ⟨s', by simp [hs], hreads', hclear'⟩
      | letter hletter =>
        rw [hcount.first.1] at hletter
        cases hletter
      | number _ => exact absurd rfl hcount.first.2
      | @kept c rest hletter _ =>
        have hbackslash : c ≠ '\\' := by
          intro hc
          rw [hc] at hletter
          cases hletter
        cases count with
        | zero =>
          exact ⟨c :: s, rfl, .step (.plain hbackslash) hreads, clear_plain hbackslash hrest⟩
        | succ count =>
          obtain ⟨s', hs, hreads', hclear'⟩ := ih hrest hcount.tail.tail
          exact ⟨s', by simp [hs], hreads', hclear'⟩

/-- **The decoder gives the reading of a clear body.** -/
theorem Reads.decode_eq {body s : List Char} (h : Reads body s) (hclear : Clear body) :
    decode body = s := by
  -- By length, as the decoder may go on in the middle of an element.
  induction hlength : body.length using Nat.strongRecOn generalizing body s with
  | ind _ ih =>
    subst hlength
    cases h with
    | nil => rfl
    | @step _ image rest s htakes hreads =>
      have hrest : Clear rest := hclear.after htakes
      have hdecode : decode rest = s := ih _ htakes.length_lt hreads hrest rfl
      cases htakes with
      | plain hbackslash => rw [decode_plain hbackslash, hdecode]; rfl
      | letter hletter => rw [decode_letter hletter, hdecode]; rfl
      | number hnames => rw [decode_number, numbered_of_names hnames, hdecode]
      | @kept c rest hletter hu =>
        by_cases hc : c = 'u'
        · subst hc
          obtain ⟨hunescaped, hnumber⟩ := hclear rest .refl (hu rfl)
          obtain ⟨s', hs, hreads', hclear'⟩ := hreads.drop hrest hunescaped
          have hdrop : decode (rest.drop 4) = s' := ih _ (by simp; omega) hreads' hclear' rfl
          have hlength : (rest.take 4).length ≤ 4 := List.length_take_le 4 rest
          rw [decode_number, numbered_of_not hlength (hu rfl) hnumber, hdrop, hs]
          simp
        · rw [decode_kept hletter hc, hdecode]
          rfl

end Escape

/-! ## Every body has a reading -/

namespace IsBody

variable {quote : Char} {body rest : List Char}

theorem tail {c : Char} (h : IsBody quote (c :: rest)) (hc : c ≠ '\\') : IsBody quote rest := by
  cases h with
  | plain _ _ hrest => exact hrest
  | escape _ => exact absurd rfl hc

theorem drop_digits {digits : List Char} (hdigits : ∀ c ∈ digits, (Text.hexDigit? c).isSome)
    (h : IsBody quote (digits ++ rest)) : IsBody quote rest := by
  induction digits with
  | nil => exact h
  | cons c digits ih =>
    obtain ⟨hc, hdigits⟩ := List.forall_mem_cons.mp hdigits
    refine ih hdigits (h.tail ?_)
    intro hbackslash
    rw [hbackslash] at hc
    exact absurd hc (by decide)

theorem exists_reads {body : List Char} (h : IsBody quote body) : ∃ s, Escape.Reads body s := by
  induction hlength : body.length using Nat.strongRecOn generalizing body with
  | ind _ ih =>
    subst hlength
    have hread {image rest : List Char} (htakes : Escape.Takes body image rest)
        (hrest : IsBody quote rest) : ∃ s, Escape.Reads body s := by
      obtain ⟨s, hs⟩ := ih _ htakes.length_lt hrest rfl
      exact ⟨_, .step htakes hs⟩
    cases h with
    | nil => exact ⟨[], .nil⟩
    | plain _ hbackslash hrest => exact hread (.plain hbackslash) hrest
    | @escape c rest hrest =>
      cases hletter : Escape.letters.lookup c with
      | some d => exact hread (.letter hletter) hrest
      | none =>
        by_cases hnames : c = 'u' ∧ ∃ d, Escape.Names (rest.take 4) d
        · obtain ⟨rfl, d, hd⟩ := hnames
          have hdigits := Text.isSome_of_hexNumber? ((Escape.names_iff hd.length).mp hd)
          rw [← List.take_append_drop 4 rest] at hrest
          exact hread (.number hd) (hrest.drop_digits hdigits)
        · exact hread (.kept hletter fun hu d hd => hnames ⟨hu, d, hd⟩) hrest

end IsBody

/-! ## Every string has a body -/

/-- The characters that may be written by a letter, each with its letter. -/
def byLetter : List (Char × Char) := [('\n', 'n'), ('\t', 't'), ('\r', 'r')]

/-- The ways to write a string between quotes: a backslash before each backslash and before each
quote of that kind, and a line feed, tab or return as it is or by its letter. -/
inductive Quoted (quote : Char) : List Char → List Char → Prop
  | nil : Quoted quote [] []
  | plain {c s body} : c ≠ quote → c ≠ '\\' → Quoted quote s body →
      Quoted quote (c :: s) (c :: body)
  | guarded {c s body} : c = quote ∨ c = '\\' → Quoted quote s body →
      Quoted quote (c :: s) ('\\' :: c :: body)
  | letter {c l s body} : (c, l) ∈ byLetter → Quoted quote s body →
      Quoted quote (c :: s) ('\\' :: l :: body)

namespace Quoted

variable {quote : Char} {s body : List Char}

theorem isBody (h : Quoted quote s body) : IsBody quote body := by
  induction h with
  | nil => exact .nil
  | plain hquote hbackslash _ ih => exact .plain hquote hbackslash ih
  | guarded _ _ ih => exact .escape ih
  | letter _ _ ih => exact .escape ih

theorem lookup_byLetter {c l : Char} (h : (c, l) ∈ byLetter) :
    Escape.letters.lookup l = some c := by
  have hall : ∀ p ∈ byLetter, Escape.letters.lookup p.2 = some p.1 := by decide
  exact hall _ h

theorem lookup_guarded (hquote : Token.isQuote quote) {c : Char} (h : c = quote ∨ c = '\\') :
    Escape.letters.lookup c = some c := by
  have hcases : quote = '\'' ∨ quote = '"' := by simpa [Token.isQuote] using hquote
  rcases h with rfl | rfl
  · rcases hcases with rfl | rfl <;> rfl
  · rfl

theorem decode_eq (hquote : Token.isQuote quote) (h : Quoted quote s body) :
    Escape.decode body = s := by
  induction h with
  | nil => rfl
  | plain _ hbackslash _ ih => simp [Escape.decode, hbackslash, ih]
  | guarded hc _ ih => rw [Escape.decode_letter (lookup_guarded hquote hc), ih]
  | letter hl _ ih => rw [Escape.decode_letter (lookup_byLetter hl), ih]

theorem exists_body (quote : Char) (s : List Char) : ∃ body, Quoted quote s body := by
  induction s with
  | nil => exact ⟨[], .nil⟩
  | cons c s ih =>
    obtain ⟨body, hbody⟩ := ih
    by_cases hc : c = quote ∨ c = '\\'
    · exact ⟨_, .guarded hc hbody⟩
    · obtain ⟨hquote, hbackslash⟩ := not_or.mp hc
      exact ⟨_, .plain hquote hbackslash hbody⟩

end Quoted

namespace Expr

variable {quote : Char}

/-- **Every string can be written as a literal, between either quotes**, and however it is
written the literal is that string, over the whole text. -/
theorem parse_quoted_string (hquote : Token.isQuote quote) (s : String) :
    (∃ body, Quoted quote s.toList body) ∧ ∀ body, Quoted quote s.toList body →
      parse (String.ofList (quote :: (body ++ [quote]))) =
        .ok (.literal ⟨0, Text.byteLength (quote :: (body ++ [quote]))⟩ (.string s)) := by
  refine ⟨Quoted.exists_body quote s.toList, fun body hbody => ?_⟩
  rw [parse_quoted hquote hbody.isBody, hbody.decode_eq hquote, String.ofList_toList]

/-- Both quotes, a line feed by letter and one as it is, and a backslash at the end. -/
theorem parse_quoted_string_of_both_quotes : Token.isQuote '\'' ∧
    parse "'it\\'s \"\\n\n\\\\'" = .ok (.literal ⟨0, 14⟩ (.string "it's \"\n\n\\")) := by
  refine ⟨by decide, (parse_quoted_string (by decide) "it's \"\n\n\\").2
    "it\\'s \"\\n\n\\\\".toList ?_⟩
  have hend : Quoted '\'' "\n\\".toList "\n\\\\".toList :=
    .plain (by decide) (by decide) (.guarded (.inr rfl) .nil)
  have hfeed : Quoted '\'' " \"\n\n\\".toList " \"\\n\n\\\\".toList :=
    .plain (by decide) (by decide) (.plain (by decide) (by decide) (.letter (by decide) hend))
  exact .plain (by decide) (by decide) (.plain (by decide) (by decide)
    (.guarded (.inl rfl) (.plain (by decide) (by decide) hfeed)))

/-- **A body stands for its reading, element by element**, if it is clear. Every body has a
reading, and every body is accepted. -/
theorem literal_stands_for_reading {body : List Char} (hquote : Token.isQuote quote)
    (hbody : IsBody quote body) :
    (∃ s, Escape.Reads body s) ∧
      (∃ s, parse (String.ofList (quote :: (body ++ [quote]))) =
        .ok (.literal ⟨0, Text.byteLength (quote :: (body ++ [quote]))⟩ (.string s))) ∧
      (Escape.Clear body → ∀ s, Escape.Reads body s →
        parse (String.ofList (quote :: (body ++ [quote]))) =
          .ok (.literal ⟨0, Text.byteLength (quote :: (body ++ [quote]))⟩
            (.string (String.ofList s)))) := by
  have hparse := parse_quoted hquote hbody
  refine ⟨hbody.exists_reads, ⟨_, hparse⟩, fun hclear s hs => ?_⟩
  rw [hparse, hs.decode_eq hclear]

/-- A `\u` without four digits, an escape after it, and one that names a character. -/
theorem literal_stands_for_reading_of_bad_number :
    (Token.isQuote '"' ∧ IsBody '"' "\\u00g9\\n\\u0041".toList) ∧
      parse "\"\\u00g9\\n\\u0041\"" = .ok (.literal ⟨0, 16⟩ (.string "\\u00g9\nA")) := by
  have hnumber : Escape.Names ("0041".toList.take 4) 'A' := by decide
  have hbad : ∀ c, ¬Escape.Names ("00g9\\n\\u0041".toList.take 4) c := by
    intro c h
    cases (Escape.names_iff rfl).mp h
  have hfour : ¬Escape.Misnumbered "00g9".toList := by
    intro h
    obtain ⟨digits, hsign | hless, -, -⟩ := h
    · cases hsign
    · exact absurd hless.2 (by rw [← hless.1]; decide)
  have hend : IsBody '"' "\\n\\u0041".toList :=
    .escape (.escape (.plain (by decide) (by decide) (.plain (by decide) (by decide)
      (.plain (by decide) (by decide) (.plain (by decide) (by decide) .nil)))))
  have hbody : IsBody '"' "\\u00g9\\n\\u0041".toList :=
    .escape (.plain (by decide) (by decide) (.plain (by decide) (by decide)
      (.plain (by decide) (by decide) (.plain (by decide) (by decide) hend))))
  refine ⟨⟨by decide, hbody⟩, (literal_stands_for_reading (by decide) hbody).2.2 ?_
    "\\u00g9\nA".toList ?_⟩
  · have hlast : Escape.Clear "\\u0041".toList :=
      (Escape.Takes.number hnumber).clear Escape.clear_nil fun after heq h => by
        cases heq
        exact absurd hnumber (h 'A')
    have hfeed : Escape.Clear "\\n\\u0041".toList :=
      (Escape.Takes.letter rfl).clear hlast fun after heq => by cases heq
    refine (Escape.Takes.kept rfl fun _ => hbad).clear (Escape.clear_plain (by decide)
      (Escape.clear_plain (by decide) (Escape.clear_plain (by decide)
        (Escape.clear_plain (by decide) hfeed)))) fun after heq _ => ?_
    cases heq
    exact ⟨by decide, hfour⟩
  · exact .step (.kept rfl fun _ => hbad) (.step (.plain (by decide)) (.step (.plain (by decide))
      (.step (.plain (by decide)) (.step (.plain (by decide)) (.step (.letter rfl)
        (.step (.number hnumber) .nil))))))

/-- **The decoder takes the backslash of an escape after a `\u` that names no character**, so that
escape is not read. -/
theorem bad_number_hides_escape :
    (Token.isQuote '\'' ∧ IsBody '\'' "\\u12\\n".toList) ∧
      Escape.Reads "\\u12\\n".toList "\\u12\n".toList ∧
      parse "'\\u12\\n'" = .ok (.literal ⟨0, 8⟩ (.string "\\u12\\n")) ∧
      parse "'\\u12\\n'" ≠ .ok (.literal ⟨0, 8⟩ (.string "\\u12\n")) := by
  have hshort : ∀ c, ¬Escape.Names ("12\\n".toList.take 4) c := by
    intro c h
    cases (Escape.names_iff rfl).mp h
  have hparse : parse "'\\u12\\n'" = .ok (.literal ⟨0, 8⟩ (.string "\\u12\\n")) := rfl
  refine ⟨⟨by decide, ?_⟩, ?_, hparse, ?_⟩
  · exact .escape (.plain (by decide) (by decide) (.plain (by decide) (by decide) (.escape .nil)))
  · exact .step (.kept rfl fun _ => hshort) (.step (.plain (by decide)) (.step (.plain (by decide))
      (.step (.letter rfl) .nil)))
  · rw [hparse]
    simp

/-- A number with less than four digits and one with a sign are taken for characters too. -/
example : parse "'\\u41'" = .ok (.literal ⟨0, 6⟩ (.string "A")) ∧
    parse "'\\u+041'" = .ok (.literal ⟨0, 8⟩ (.string "A")) :=
  ⟨rfl, rfl⟩

end Expr

end JsonTemplate
