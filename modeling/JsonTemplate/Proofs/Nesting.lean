/-
Documents inside documents. What is read of a text is read of it too when a closing brace follows
(`tokens?_concat`), and open containers around a value do not change how it is read
(`step_inside`). So a document as the value of a key is read as it is read alone, if one more
container is allowed (`read?_member`).
-/
import JsonTemplate.Document.Reader

namespace JsonTemplate

theorem takeWhile_concat {α : Type} {p : α → Bool} {c : α} (h : p c = false) (cs : List α) :
    (cs ++ [c]).takeWhile p = cs.takeWhile p := by
  induction cs with
  | nil => simp [h]
  | cons a rest ih => simp only [List.cons_append, List.takeWhile_cons, ih]

theorem length_takeWhile_le {α : Type} (p : α → Bool) (cs : List α) :
    (cs.takeWhile p).length ≤ cs.length :=
  (List.takeWhile_sublist p).length_le

/-! ## Numerals -/

namespace Decimal

theorem digits_concat (cs : List Char) :
    (cs ++ ['\x7d']).takeWhile Char.isDigit = cs.takeWhile Char.isDigit :=
  takeWhile_concat (by decide) cs

theorem scanFraction_concat (cs : List Char) :
    scanFraction (cs ++ ['\x7d']) = scanFraction cs := by
  cases cs with
  | nil => rfl
  | cons c rest =>
    by_cases hc : c = '.'
    · subst hc
      exact digits_concat rest
    · simp [scanFraction, hc]

theorem fractionLength_le (cs : List Char) : fractionLength (scanFraction cs) ≤ cs.length := by
  unfold scanFraction
  split
  · rename_i rest
    have hdigits := length_takeWhile_le Char.isDigit rest
    unfold fractionLength
    rw [List.length_cons]
    split <;> omega
  · exact Nat.zero_le _

theorem scanSign_concat (cs : List Char) : scanSign (cs ++ ['\x7d']) = scanSign cs := by
  cases cs with
  | nil => rfl
  | cons c rest =>
    by_cases hminus : c = '-'
    · subst hminus; rfl
    · by_cases hplus : c = '+'
      · subst hplus; rfl
      · simp [scanSign, hminus, hplus]

theorem scanSign_le (cs : List Char) : (scanSign cs).2 ≤ cs.length := by
  unfold scanSign
  split <;> simp

theorem scanExponent_concat (cs : List Char) :
    scanExponent (cs ++ ['\x7d']) = scanExponent cs := by
  cases cs with
  | nil => rfl
  | cons e rest =>
    have hdigits : ((rest ++ ['\x7d']).drop (scanSign rest).2).takeWhile Char.isDigit =
        (rest.drop (scanSign rest).2).takeWhile Char.isDigit := by
      rw [List.drop_append_of_le_length (scanSign_le rest), digits_concat]
    simp only [List.cons_append, scanExponent, scanSign_concat, hdigits]

theorem scanExponent_le (cs : List Char) : (scanExponent cs).2 ≤ cs.length := by
  unfold scanExponent
  split
  · rename_i e rest
    have hsign := scanSign_le rest
    have hdigits := length_takeWhile_le Char.isDigit (rest.drop (scanSign rest).2)
    rw [List.length_drop] at hdigits
    split
    · dsimp only
      split
      · simp
      · simp only [List.length_cons]
        omega
    · simp
  · simp

theorem scan_concat (cs : List Char) : scan (cs ++ ['\x7d']) = scan cs := by
  have hwhole : (cs ++ ['\x7d']).drop (cs.takeWhile Char.isDigit).length =
      cs.drop (cs.takeWhile Char.isDigit).length ++ ['\x7d'] :=
    List.drop_append_of_le_length (length_takeWhile_le _ cs)
  simp only [scan, digits_concat, hwhole, scanFraction_concat,
    List.drop_append_of_le_length (fractionLength_le _), scanExponent_concat]

theorem scan_le (cs : List Char) : (scan cs).2 ≤ cs.length := by
  have hwhole := length_takeWhile_le Char.isDigit cs
  have hfraction := fractionLength_le (cs.drop (cs.takeWhile Char.isDigit).length)
  have hexponent := scanExponent_le ((cs.drop (cs.takeWhile Char.isDigit).length).drop
    (fractionLength (scanFraction (cs.drop (cs.takeWhile Char.isDigit).length))))
  simp only [scan]
  rw [List.length_drop] at hfraction hexponent
  rw [List.length_drop] at hexponent
  omega

end Decimal

namespace Document

theorem Numeral.read?_concat (cs : List Char) :
    Numeral.read? (cs ++ ['\x7d']) = Numeral.read? cs := by
  have hwhole : (cs ++ ['\x7d']).drop (cs.takeWhile Char.isDigit).length =
      cs.drop (cs.takeWhile Char.isDigit).length ++ ['\x7d'] :=
    List.drop_append_of_le_length (length_takeWhile_le _ cs)
  simp only [Numeral.read?, Decimal.digits_concat, hwhole, Decimal.scanFraction_concat,
    List.drop_append_of_le_length (Decimal.fractionLength_le _), Decimal.scanExponent_concat]

namespace Reading

/-! ## Tokens -/

theorem push_eq_some {c : Char} {taken : Nat} {rest : Option (List Char × Nat)}
    {found : List Char × Nat} (h : push c taken rest = some found) :
    ∃ chars length, rest = some (chars, length) ∧ found = (c :: chars, length + taken) := by
  unfold push at h
  obtain ⟨⟨chars, length⟩, hrest, rfl⟩ := Option.map_eq_some_iff.mp h
  exact ⟨chars, length, hrest, rfl⟩

theorem push_append {c : Char} {taken : Nat} (before : List Char) {rest rest' : List Char}
    (hlength : before.length = taken)
    (ih : ∀ {found : List Char × Nat}, string? rest = some found →
      string? rest' = some found ∧ found.2 ≤ rest.length) {found : List Char × Nat}
    (h : push c taken (string? rest) = some found) :
    push c taken (string? rest') = some found ∧ found.2 ≤ (before ++ rest).length := by
  obtain ⟨chars, length, hrest, rfl⟩ := push_eq_some h
  obtain ⟨hsame, hle⟩ := ih hrest
  rw [hsame, List.length_append]
  exact ⟨rfl, by dsimp only at hle ⊢; omega⟩

/-- A string that is read ends at its own quote. -/
theorem string?_append {cs : List Char} (others : List Char) : ∀ {found : List Char × Nat},
    string? cs = some found → string? (cs ++ others) = some found ∧ found.2 ≤ cs.length := by
  induction cs using string?.induct with
  | case1 => exact nofun
  | case2 tail =>
    intro found h
    cases h
    exact ⟨rfl, by simp⟩
  | case3 a b c d rest hunit => simp [string?, hunit]
  | case4 a b c d low hunit hhigh e f g h rest hlow => simp [string?, hunit, hhigh, hlow]
  | case5 a b c d low hunit hhigh e f g h rest low' hlow hrange ih =>
    intro found hfound
    simp only [string?, List.cons_append, hunit, if_pos hhigh, hlow, if_pos hrange] at hfound ⊢
    exact push_append ['\\', 'u', a, b, c, d, '\\', 'u', e, f, g, h] rfl ih hfound
  | case6 a b c d low hunit hhigh e f g h rest low' hlow hrange =>
    simp [string?, hunit, hhigh, hlow, hrange]
  | case7 a b c d rest low hunit hhigh _ => simp [string?, hunit, hhigh]
  | case8 a b c d rest low hunit hhigh hlow => simp [string?, hunit, hhigh, hlow]
  | case9 a b c d rest low hunit hhigh hlow ih =>
    intro found hfound
    simp only [string?, List.cons_append, hunit, if_neg hhigh, if_neg hlow] at hfound ⊢
    exact push_append ['\\', 'u', a, b, c, d] rfl ih hfound
  | case10 c rest hnot decoded hletter ih =>
    have hc : c ≠ 'u' := by
      rintro rfl
      cases hletter
    intro found hfound
    simp only [string?, List.cons_append, hletter, hc, false_implies, implies_true] at hfound ⊢
    exact push_append ['\\', c] rfl ih hfound
  | case11 c rest hnot hletter =>
    intro found hfound
    rw [string?] at hfound
    · rw [hletter] at hfound
      cases hfound
    · exact hnot
  | case12 c rest hquote hunicode hescape hbad =>
    intro found hfound
    rw [string?] at hfound
    · rw [if_pos hbad] at hfound
      cases hfound
    · exact hquote
    · exact hunicode
    · exact hescape
  | case13 c rest hquote hunicode hescape hgood ih =>
    have hc : c ≠ '\\' := fun h => hgood (.inr h)
    have hlow : ¬c.toNat < 32 := fun h => hgood (.inl h)
    intro found hfound
    simp only [string?, List.cons_append, hc, hlow, false_implies, implies_true, or_self,
      if_false] at hfound ⊢
    exact push_append [c] rfl ih hfound

theorem number?_concat (cs : List Char) : number? (cs ++ ['\x7d']) = number? cs := by
  cases cs with
  | nil => rfl
  | cons c rest =>
    by_cases hc : c = '-'
    · subst hc
      simp only [number?, List.cons_append, Decimal.digits_concat, Decimal.scan_concat,
        Numeral.read?_concat]
    · have hdigits := Decimal.digits_concat (c :: rest)
      have hscan := Decimal.scan_concat (c :: rest)
      have hread := Numeral.read?_concat (c :: rest)
      simp only [List.cons_append] at hdigits hscan hread
      simp [number?, hc, hdigits, hscan, hread]

/-- What stands between a sign and the end of a number, and how it is read. -/
theorem number_taken {whole text : List Char} {n : Nat} {negative : Bool} {taken : Nat}
    {value : Option Binary64} {found : Number × Nat}
    (h : (if whole.isEmpty ∨ 1 < whole.length ∧ whole.head? = some '0' then none
      else if (Decimal.scan text).2 = whole.length ∧ n < Nat.pow 2 64 ∧ ¬negative then
        some (Number.integer n, taken)
      else if (Decimal.scan text).2 = whole.length ∧ 0 < n ∧ n ≤ Nat.pow 2 63 ∧ negative then
        some (.integer (-(n : Int)), taken)
      else value.map fun value => (.double (if negative then value.neg else value), taken)) =
        some found) :
    found.2 = taken := by
  split at h
  · cases h
  · split at h
    · cases h; rfl
    · split at h
      · cases h; rfl
      · obtain ⟨_, -, rfl⟩ := Option.map_eq_some_iff.mp h
        rfl

theorem number?_le {cs : List Char} {found : Number × Nat} (h : number? cs = some found) :
    found.2 ≤ cs.length := by
  cases cs with
  | nil => cases h
  | cons c rest =>
    by_cases hc : c = '-'
    · subst hc
      have htaken : found.2 = (Decimal.scan rest).2 + 1 := number_taken h
      have hscan := Decimal.scan_le rest
      rw [List.length_cons]
      omega
    · rw [number?] at h
      · have htaken : found.2 = (Decimal.scan (c :: rest)).2 := number_taken h
        exact htaken ▸ Decimal.scan_le (c :: rest)
      · rintro rest' heq
        cases heq
        exact hc rfl

theorem keyword_concat {word rest : List Char} {token : Token} {found : Token × Nat}
    (h : (if word.isPrefixOf rest then some (token, word.length + 1) else none) = some found) :
    (if word.isPrefixOf (rest ++ ['\x7d']) then some (token, word.length + 1) else none) =
      some found ∧ found.2 ≤ rest.length + 1 := by
  split at h
  · rename_i hprefix
    cases h
    have hword := List.isPrefixOf_iff_prefix.mp hprefix
    rw [if_pos (List.isPrefixOf_iff_prefix.mpr (hword.trans (List.prefix_append _ _)))]
    exact ⟨rfl, Nat.succ_le_succ hword.length_le⟩
  · cases h

/-- A token that is read is read when a closing brace follows. -/
theorem next?_concat {c : Char} {rest : List Char} {token : Token} {length : Nat}
    (h : next? c rest = some (token, length)) :
    next? c (rest ++ ['\x7d']) = some (token, length) ∧ length ≤ rest.length + 1 := by
  unfold next? at h ⊢
  split at h
  · cases h; exact ⟨rfl, by omega⟩
  · cases h; exact ⟨rfl, by omega⟩
  · cases h; exact ⟨rfl, by omega⟩
  · cases h; exact ⟨rfl, by omega⟩
  · cases h; exact ⟨rfl, by omega⟩
  · cases h; exact ⟨rfl, by omega⟩
  · obtain ⟨⟨chars, taken⟩, hstring, heq⟩ := Option.map_eq_some_iff.mp h
    cases heq
    obtain ⟨hsame, hle⟩ := string?_append ['\x7d'] hstring
    dsimp only
    rw [hsame]
    exact ⟨rfl, Nat.succ_le_succ hle⟩
  · exact keyword_concat h
  · exact keyword_concat h
  · exact keyword_concat h
  · obtain ⟨⟨n, taken⟩, hnumber, heq⟩ := Option.map_eq_some_iff.mp h
    cases heq
    have hsame := number?_concat (c :: rest)
    rw [List.cons_append, hnumber] at hsame
    refine ⟨?_, number?_le hnumber⟩
    rw [hsame]
    rfl

/-- The tokens of a text stay when a closing brace follows. -/
theorem tokens?_concat : ∀ {cs : List Char} {skip : Nat} {tokens : List Token}, skip ≤ cs.length →
    tokens? skip cs = some tokens →
    tokens? skip (cs ++ ['\x7d']) = some (tokens ++ [.closeObject])
  | [], skip, _, hskip, h => by
    obtain rfl : skip = 0 := Nat.le_zero.mp hskip
    cases h
    rfl
  | c :: rest, skip + 1, _, hskip, h => by
    rw [List.cons_append, tokens?]
    exact tokens?_concat (Nat.le_of_succ_le_succ hskip) h
  | c :: rest, 0, _, _, h => by
    rw [tokens?] at h
    rw [List.cons_append, tokens?]
    split at h
    · rename_i hblank
      rw [if_pos hblank]
      exact tokens?_concat (Nat.zero_le _) h
    · rename_i hblank
      rw [if_neg hblank]
      split at h
      · cases h
      · rename_i token length hnext
        obtain ⟨hsame, hle⟩ := next?_concat hnext
        obtain ⟨others, hothers, rfl⟩ := Option.map_eq_some_iff.mp h
        rw [hsame]
        dsimp only
        rw [tokens?_concat (by omega) hothers]
        rfl

/-! ## Containers -/

/-- A state inside of containers that are already open. -/
def State.inside (outer : List Frame) (s : State) : State :=
  match s.want with
  | .nothing d => put d outer
  | want => ⟨s.stack ++ outer, want⟩

theorem put_inside (d : Document) (outer stack : List Frame) :
    (put d stack).inside outer = put d (stack ++ outer) := by
  rcases stack with _ | ⟨_ | _, rest⟩ <;> rfl

theorem close_inside {array : Bool} {outer stack : List Frame} {s : State}
    (h : close array stack = some s) : close array (stack ++ outer) = some (s.inside outer) := by
  rcases stack with _ | ⟨done | ⟨done, key⟩, rest⟩
  · cases h
  · cases array <;> cases h
    simp only [List.cons_append, close, put_inside, if_true]
  · cases array <;> cases h
    simp only [List.cons_append, close, put_inside, Bool.false_eq_true, if_false]

theorem setKey_inside {key : String} {outer stack : List Frame} {s : State}
    (h : setKey key stack = some s) : setKey key (stack ++ outer) = some (s.inside outer) := by
  rcases stack with _ | ⟨done | ⟨done, other⟩, rest⟩ <;> cases h
  rfl

section Depth

variable {depth depth' : Nat} {outer : List Frame} (hdepth : depth + outer.length ≤ depth')

include hdepth

theorem start_inside {stack : List Frame} {token : Token} {s : State}
    (h : start depth stack token = some s) :
    start depth' (stack ++ outer) token = some (s.inside outer) := by
  have hopen (hlt : stack.length < depth) : (stack ++ outer).length < depth' := by
    rw [List.length_append]
    omega
  cases token with
  | scalar d => cases h; simp only [start, put_inside]
  | string text => cases h; simp only [start, put_inside]
  | openArray =>
    simp only [start] at h ⊢
    split at h <;> cases h
    rw [if_pos (hopen ‹_›)]
    rfl
  | openObject =>
    simp only [start] at h ⊢
    split at h <;> cases h
    rw [if_pos (hopen ‹_›)]
    rfl
  | _ => cases h

/-- A step inside of open containers is the step of the value alone. -/
theorem step_inside {s s' : State} {token : Token} (h : step depth s token = some s') :
    step depth' (s.inside outer) token = some (s'.inside outer) := by
  obtain ⟨stack, want⟩ := s
  cases want with
  | value => exact start_inside hdepth h
  | firstItem =>
    cases token with
    | closeArray => exact close_inside h
    | _ =>
      simp only [step] at h
      exact start_inside hdepth h
  | firstKey =>
    cases token with
    | closeObject => exact close_inside h
    | string key => exact setKey_inside h
    | _ => cases h
  | key =>
    cases token with
    | string key => exact setKey_inside h
    | _ => cases h
  | colon =>
    cases token with
    | colon => cases h; rfl
    | _ => cases h
  | comma =>
    cases token with
    | closeArray => exact close_inside h
    | closeObject => exact close_inside h
    | comma => rcases stack with _ | ⟨_ | _, rest⟩ <;> cases h <;> rfl
    | _ => cases h
  | nothing d => cases h

theorem steps_inside : ∀ {tokens : List Token} {s s' : State},
    tokens.foldlM (step depth) s = some s' →
    tokens.foldlM (step depth') (s.inside outer) = some (s'.inside outer)
  | [], _, _, h => by cases h; rfl
  | token :: rest, s, _, h => by
    rw [List.foldlM_cons] at h ⊢
    obtain ⟨between, hstep, h⟩ := Option.bind_eq_some_iff.mp h
    rw [step_inside hdepth hstep]
    exact steps_inside h

end Depth

end Reading

open Reading

/-- The tokens of a document that is read, and what the stack makes of them. -/
theorem readWithin?_eq_some {depth : Nat} {text : String} {d : Document} :
    readWithin? depth text = some d ↔ ∃ tokens, tokens? 0 text.toList = some tokens ∧
      tokens.foldlM (step depth) ⟨[], .value⟩ = some ⟨[], .nothing d⟩ := by
  unfold readWithin?
  constructor
  · intro h
    obtain ⟨tokens, htokens, h⟩ := Option.bind_eq_some_iff.mp h
    obtain ⟨state, hsteps, h⟩ := Option.bind_eq_some_iff.mp h
    refine ⟨tokens, htokens, ?_⟩
    split at h
    · cases h
      exact hsteps
    · cases h
  · rintro ⟨tokens, htokens, hsteps⟩
    simp [htokens, hsteps]

/-- A document that is read is read in the same way where it may nest deeper. -/
theorem readWithin?_mono {depth depth' : Nat} (h : depth ≤ depth') {text : String} {d : Document}
    (hread : readWithin? depth text = some d) : readWithin? depth' text = some d := by
  obtain ⟨tokens, htokens, hsteps⟩ := readWithin?_eq_some.mp hread
  have hwhole : tokens.foldlM (step depth') ⟨[], .value⟩ = some ⟨[], .nothing d⟩ :=
    steps_inside (by simpa using h) hsteps
  exact readWithin?_eq_some.mpr ⟨tokens, htokens, hwhole⟩

/-- A document as the only member of an object. -/
theorem read?_member {text : String} {d : Document}
    (h : readWithin? 126 text = some d) :
    read? ("\x7b\"k\": " ++ text ++ "\x7d") = some (.object [("k", d)]) := by
  obtain ⟨tokens, htokens, hsteps⟩ := readWithin?_eq_some.mp h
  have hopening : tokens? 0 ("\x7b\"k\": " ++ text ++ "\x7d").toList =
      (tokens? 0 (text.toList ++ ['\x7d'])).map ([.openObject, .string "k", .colon] ++ ·) := by
    have htext : ("\x7b\"k\": " ++ text ++ "\x7d").toList =
        '\x7b' :: '"' :: 'k' :: '"' :: ':' :: ' ' :: (text.toList ++ ['\x7d']) := by
      simp
    rw [htext]
    simp [tokens?, next?, string?, push, Function.comp_def]
  have hall : tokens? 0 ("\x7b\"k\": " ++ text ++ "\x7d").toList =
      some ([.openObject, .string "k", .colon] ++ (tokens ++ [.closeObject])) := by
    rw [hopening, tokens?_concat (Nat.zero_le _) htokens]
    rfl
  have hinside : tokens.foldlM (step maxDepth) ⟨[.object [] "k"], .value⟩ =
      some ⟨[.object [("k", d)] "k"], .comma⟩ := steps_inside (by decide) hsteps
  have hopened : [Token.openObject, .string "k", .colon].foldlM (step maxDepth) ⟨[], .value⟩ =
      some ⟨[.object [] "k"], .value⟩ := rfl
  refine readWithin?_eq_some.mpr ⟨_, hall, ?_⟩
  rw [List.foldlM_append, hopened, Option.bind_eq_bind, Option.bind_some, List.foldlM_append]
  rw [hinside]
  rfl

end Document

end JsonTemplate
