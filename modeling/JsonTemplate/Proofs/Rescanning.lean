/-
The tokens of a slice. What comes after a token does not change it, so a text that is cut off where
no token stands has the same tokens up to there, and the same ones are scanned again from the start
of any of them (`tokens_of_slice`).
-/
import JsonTemplate.Proofs.Frames
import JsonTemplate.Proofs.Layout
import JsonTemplate.Proofs.Moving
import JsonTemplate.Proofs.Nesting

namespace JsonTemplate

/-! ## A token does not depend on what comes after it -/

theorem takeWhile_of_le {α : Type} {p : α → Bool} {s t : List α}
    (h : ((s ++ t).takeWhile p).length ≤ s.length) : s.takeWhile p = (s ++ t).takeWhile p := by
  induction s with
  | nil => exact (List.length_eq_zero_iff.mp (Nat.le_zero.mp h)).symm
  | cons a s ih =>
    rw [List.cons_append, List.takeWhile_cons] at h ⊢
    rw [List.takeWhile_cons]
    split
    · rename_i ha
      rw [if_pos ha, List.length_cons, List.length_cons] at h
      rw [ih (Nat.le_of_succ_le_succ h)]
    · rfl

namespace Decimal

theorem scanFraction_of_le {s t : List Char}
    (h : fractionLength (scanFraction (s ++ t)) ≤ s.length) :
    scanFraction s = scanFraction (s ++ t) := by
  obtain _ | ⟨c, s⟩ := s
  · have hnone : fractionLength (scanFraction t) = 0 := Nat.le_zero.mp h
    simp only [fractionLength] at hnone
    split at hnone
    · rename_i hempty
      exact (List.isEmpty_iff.mp hempty).symm
    · cases hnone
  · by_cases hc : c = '.'
    · subst hc
      refine takeWhile_of_le ?_
      simp only [List.cons_append, scanFraction, fractionLength, List.length_cons] at h
      split at h
      · rename_i hempty
        simp [List.isEmpty_iff.mp hempty]
      · exact Nat.le_of_succ_le_succ h
    · simp [scanFraction, hc]

theorem scanSign_cons (c : Char) (s t : List Char) :
    scanSign (c :: s ++ t) = scanSign (c :: s) := by
  by_cases hminus : c = '-'
  · subst hminus; rfl
  · by_cases hplus : c = '+'
    · subst hplus; rfl
    · simp [scanSign, hminus, hplus]

theorem scanExponent_of_le {s t : List Char} (h : (scanExponent (s ++ t)).2 ≤ s.length) :
    scanExponent s = scanExponent (s ++ t) := by
  obtain _ | ⟨e, s⟩ := s
  · -- What is not empty has a letter.
    obtain _ | ⟨e, t⟩ := t
    · rfl
    · simp only [List.nil_append, scanExponent, List.length_nil] at h ⊢
      split at h
      · split at h
        · simp_all
        · omega
      · simp_all
  by_cases he : e = 'e' ∨ e = 'E'
  · simp only [List.cons_append, scanExponent, if_pos he, List.length_cons] at h ⊢
    obtain _ | ⟨c, s⟩ := s
    · -- One character is not an exponent.
      have hnone : ((t.drop (scanSign t).2).takeWhile Char.isDigit).isEmpty = true := by
        by_contra hsome
        rw [List.nil_append, if_neg hsome] at h
        have hdigits := List.length_pos_iff.mpr (List.isEmpty_eq_false_iff.mp
          (Bool.eq_false_of_not_eq_true hsome))
        simp only [List.length_nil] at h
        omega
      simp [hnone]
    · have hsign := scanSign_cons c s t
      have hle := scanSign_le (c :: s)
      simp only [List.cons_append] at hsign h ⊢
      have hdigits : ((c :: s).drop (scanSign (c :: s)).2).takeWhile Char.isDigit =
          ((c :: (s ++ t)).drop (scanSign (c :: s)).2).takeWhile Char.isDigit := by
        have hdrop : (c :: (s ++ t)).drop (scanSign (c :: s)).2 =
            (c :: s).drop (scanSign (c :: s)).2 ++ t := List.drop_append_of_le_length hle
        rw [hdrop]
        refine takeWhile_of_le ?_
        rw [hsign, hdrop] at h
        rw [List.length_drop]
        split at h
        · rename_i hempty
          rw [List.isEmpty_iff.mp hempty]
          exact Nat.zero_le _
        · dsimp only at h
          omega
      rw [hsign, hdigits]
  · simp [scanExponent, he]

/-- A numeral does not depend on what comes after it. -/
theorem scan_of_le {s t : List Char} (h : (scan (s ++ t)).2 ≤ s.length) :
    scan s = scan (s ++ t) := by
  have hwhole : s.takeWhile Char.isDigit = (s ++ t).takeWhile Char.isDigit := by
    refine takeWhile_of_le (Nat.le_trans ?_ h)
    simp only [scan]
    omega
  generalize hdigits : (s ++ t).takeWhile Char.isDigit = whole at hwhole
  have hle : whole.length ≤ s.length := hwhole ▸ length_takeWhile_le _ s
  have hafter : (s ++ t).drop whole.length = s.drop whole.length ++ t :=
    List.drop_append_of_le_length hle
  simp only [scan, hdigits, hafter] at h
  have hfraction : scanFraction (s.drop whole.length) =
      scanFraction (s.drop whole.length ++ t) := by
    refine scanFraction_of_le ?_
    rw [List.length_drop]
    omega
  have hfractionLe := fractionLength_le (s.drop whole.length)
  rw [hfraction] at hfractionLe
  have hdrop : (s.drop whole.length ++ t).drop
      (fractionLength (scanFraction (s.drop whole.length ++ t))) =
      (s.drop whole.length).drop (fractionLength (scanFraction (s.drop whole.length ++ t))) ++ t :=
    List.drop_append_of_le_length hfractionLe
  have hexponent := scanExponent_of_le (t := t)
    (s := (s.drop whole.length).drop (fractionLength (scanFraction (s.drop whole.length ++ t))))
    (by rw [← hdrop, List.length_drop, List.length_drop]; omega)
  simp only [scan, hdigits, hwhole, hafter, hfraction, hdrop, hexponent]

end Decimal

namespace Token

/-- A text that has no closing quote has none if it is cut off. -/
theorem quoted?_none {quote : Char} (hquote : quote ≠ '\\') {s t : List Char}
    (h : quoted? quote (s ++ t) = none) : quoted? quote s = none := by
  cases hs : quoted? quote s with
  | none => rfl
  | some body =>
    obtain ⟨after, rfl, hbody⟩ := quoted?_taken hs
    rw [List.append_assoc, List.cons_append, quoted?_body hbody hquote] at h
    cases h

theorem isQuote_ne {c : Char} (h : isQuote c) : c ≠ '\\' := by
  rintro rfl
  exact absurd h (by decide)

/-- A token does not depend on what comes after it. -/
theorem next_of_le {c : Char} {s t : List Char} (h : (next c (s ++ t)).2 ≤ s.length + 1) :
    next c s = next c (s ++ t) := by
  unfold next at h ⊢
  split at h
  · rename_i hword
    have hsame : s.takeWhile isWordChar = (s ++ t).takeWhile isWordChar :=
      takeWhile_of_le (Nat.le_of_succ_le_succ h)
    rw [if_pos hword, if_pos hword, hsame]
  rename_i hword
  rw [if_neg hword, if_neg hword]
  split at h
  · rename_i hdigit
    have hsame : Decimal.scan (c :: s) = Decimal.scan (c :: (s ++ t)) :=
      Decimal.scan_of_le (s := c :: s) h
    rw [if_pos hdigit, if_pos hdigit, hsame]
  rename_i hdigit
  rw [if_neg hdigit, if_neg hdigit]
  split at h
  · rename_i hquote
    rw [if_pos hquote, if_pos hquote]
    cases hbody : quoted? c (s ++ t) with
    | none => rw [quoted?_none (isQuote_ne hquote) hbody]
    | some body =>
      rw [hbody] at h
      obtain ⟨after, hsplit, hinner⟩ := quoted?_taken hbody
      -- The closing quote is not cut off.
      have hs : ∃ rest, s = body ++ c :: rest := by
        have hsplit' : s ++ t = (body ++ [c]) ++ after := by simpa using hsplit
        have hprefix : body ++ [c] <+: s :=
          List.prefix_of_prefix_length_le ⟨after, hsplit'.symm⟩ (List.prefix_append s t)
            (by simpa using h)
        obtain ⟨rest, rfl⟩ := hprefix
        exact ⟨rest, by simp⟩
      obtain ⟨rest, rfl⟩ := hs
      rw [quoted?_body hinner (isQuote_ne hquote)]
  · rename_i hquote
    rw [if_neg hquote, if_neg hquote]

/-! ## A text cut off -/

/-- Characters at the start of a text are no more than those that have as many bytes. -/
theorem length_le_of_byteLength {chars rest s t : List Char} (h : chars ++ rest = s ++ t)
    (hle : Text.byteLength chars ≤ Text.byteLength s) : chars.length ≤ s.length := by
  rcases List.append_eq_append_iff.mp h with ⟨more, rfl, -⟩ | ⟨more, rfl, -⟩
  · rw [List.length_append]
    exact Nat.le_add_right _ _
  · rw [byteLength_append] at hle
    cases more with
    | nil => rw [List.append_nil]
    | cons c more =>
      have hsize : 0 < c.utf8Size := c.utf8Size_pos
      simp only [Text.byteLength] at hle
      omega

/-- The first token of a text is that of the text cut off after it. -/
theorem scan_first_of_le {c : Char} {s t : List Char} (hgap : isGap c = false)
    (h : (next c (s ++ t)).2 ≤ s.length + 1) : ∃ form chars rest, s = chars ++ rest ∧
      ∀ offset, scan 0 offset (c :: s) =
          ⟨form, ⟨offset, offset + Text.byteLength (c :: chars)⟩⟩ ::
            scan 0 (offset + Text.byteLength (c :: chars)) rest ∧
        scan 0 offset (c :: (s ++ t)) =
          ⟨form, ⟨offset, offset + Text.byteLength (c :: chars)⟩⟩ ::
            scan 0 (offset + Text.byteLength (c :: chars)) (rest ++ t) := by
  obtain ⟨chars, rest, hsplit, hcut, hlength⟩ := next_cut c s
  obtain _ | ⟨d, chars⟩ := chars
  · exact absurd rfl hcut.ne_nil
  obtain ⟨rfl, rfl⟩ : c = d ∧ s = chars ++ rest := by simpa using hsplit
  refine ⟨(next c (chars ++ rest)).1, chars, rest, rfl, fun offset => ⟨?_, ?_⟩⟩
  · exact scan_token hgap (Prod.ext rfl hlength) offset
  · rw [List.append_assoc]
    refine scan_token hgap ?_ offset
    rw [← List.append_assoc, ← next_of_le h]
    exact Prod.ext rfl hlength

/-- A first token that stops before the end of a text has no more characters than that. -/
theorem next_le_of_stop {c : Char} {s t : List Char} {offset : Nat} {token : Token}
    {tokens : List Token} (hgap : isGap c = false)
    (hscan : scan 0 offset (c :: (s ++ t)) = token :: tokens)
    (hstop : token.span.stop ≤ offset + Text.byteLength (c :: s)) :
    (next c (s ++ t)).2 ≤ s.length + 1 := by
  obtain ⟨chars, rest, hsplit, hcut, hlength⟩ := next_cut c (s ++ t)
  have htaken : token.span.stop = offset + Text.byteLength chars := by
    simp only [scan, hgap, Bool.false_eq_true, ↓reduceIte, List.cons.injEq] at hscan
    rw [← hscan.1, hlength, hsplit, List.take_left]
  rw [hlength]
  exact @length_le_of_byteLength chars rest (c :: s) t hsplit.symm (by omega)

/-- A text cut off where no token stands has the same tokens up to there. -/
theorem scan_of_cut_off {t : List Char} {rest : List Token} : ∀ {length : Nat} {s : List Char}
    {offset : Nat} {T : List Token}, s.length ≤ length → scan 0 offset (s ++ t) = T ++ rest →
      (∀ token ∈ T, token.span.start < token.span.stop ∧
        token.span.stop ≤ offset + Text.byteLength s) →
      offset + Text.byteLength s ≤ Reader.startOf rest →
      scan 0 offset s =
        T ++ [⟨.finish, ⟨offset + Text.byteLength s, offset + Text.byteLength s + 1⟩⟩] := by
  intro length
  induction length with
  | zero =>
    intro s offset T hlength hscan hT hstart
    obtain rfl := List.length_eq_zero_iff.mp (Nat.le_zero.mp hlength)
    obtain _ | ⟨token, T⟩ := T
    · rfl
    · have hfirst : offset ≤ token.span.start := by
        have htoken : token ∈ scan 0 offset ([] ++ t) := by
          rw [hscan]
          exact List.mem_cons_self
        exact scan_start token htoken
      have htoken := hT token List.mem_cons_self
      simp only [Text.byteLength] at htoken
      omega
  | succ length ih =>
    intro s offset T hlength hscan hT hstart
    obtain _ | ⟨c, s⟩ := s
    · exact ih (Nat.zero_le _) hscan hT hstart
    have hsize : 0 < c.utf8Size := c.utf8Size_pos
    rw [List.length_cons] at hlength
    rw [List.cons_append] at hscan
    cases hgap : isGap c with
    | true =>
      rw [scan_gap hgap] at hscan
      simp only [Text.byteLength, ← Nat.add_assoc] at hT hstart ⊢
      rw [scan_gap hgap]
      exact ih (Nat.le_of_succ_le_succ hlength) hscan hT hstart
    | false =>
      obtain _ | ⟨token, T⟩ := T
      · -- The first token starts at once.
        obtain ⟨form, chars, others, -, -, hfirst⟩ :=
          @scan_cut c (s ++ t) hgap offset
        rw [hfirst, List.nil_append] at hscan
        simp only [← hscan, Reader.startOf, Text.byteLength] at hstart
        omega
      rw [List.forall_mem_cons] at hT
      obtain ⟨form, chars, others, rfl, hboth⟩ :=
        scan_first_of_le hgap (next_le_of_stop hgap hscan hT.1.2)
      obtain ⟨hcut, hwhole⟩ := hboth offset
      rw [hwhole, List.cons_append, List.cons.injEq] at hscan
      have hsplit : Text.byteLength (c :: (chars ++ others)) =
          Text.byteLength (c :: chars) + Text.byteLength others :=
        byteLength_append (c :: chars) others
      rw [hsplit, ← Nat.add_assoc] at hT hstart ⊢
      have hothers := ih (by rw [List.length_append] at hlength; omega) hscan.2 hT.2 hstart
      rw [hcut, hothers, hscan.1]
      rfl

/-! ## A text from one of its tokens on -/

/-- The tokens from one of them on are those of the text from its place on. -/
theorem scan_at {first : Token} {rest : List Token} : ∀ {text : List Char} {skip offset : Nat}
    {T : List Token}, scan skip offset text = T ++ first :: rest →
      ∃ before after, text = before ++ after ∧
        first.span.start = offset + Text.byteLength before ∧
        scan 0 first.span.start after = first :: rest := by
  intro text
  induction text with
  | nil =>
    intro skip offset T hscan
    obtain _ | ⟨token, T⟩ := T
    · obtain ⟨rfl, rfl⟩ := List.cons.inj hscan
      exact ⟨[], [], rfl, rfl, rfl⟩
    · simp [scan] at hscan
  | cons c text ih =>
    intro skip offset T hscan
    have hlater {skip : Nat} {T : List Token}
        (h : scan skip (offset + c.utf8Size) text = T ++ first :: rest) :
        ∃ before after, c :: text = before ++ after ∧
          first.span.start = offset + Text.byteLength before ∧
          scan 0 first.span.start after = first :: rest := by
      obtain ⟨before, after, rfl, hstart, hafter⟩ := ih h
      exact ⟨c :: before, after, rfl, hstart.trans (Nat.add_assoc _ _ _), hafter⟩
    cases skip with
    | succ skip => exact hlater hscan
    | zero =>
      have hwhole := hscan
      rw [scan] at hscan
      split at hscan
      · exact hlater hscan
      · obtain _ | ⟨token, T⟩ := T
        · obtain ⟨rfl, hrest⟩ := List.cons.inj hscan
          exact ⟨[], c :: text, rfl, rfl, hwhole⟩
        · exact hlater (List.cons.inj hscan).2

/-- Tokens of a text that starts further on stand further on. -/
theorem scan_move {d : Nat} {text : List Char} {skip offset : Nat} (h : d ≤ offset) :
    (scan skip offset text).map (Token.move (· - d)) = scan skip (offset - d) text := by
  induction text generalizing skip offset with
  | nil =>
    have hfinish : offset + 1 - d = offset - d + 1 := by omega
    simp [scan, Token.move, Span.move, hfinish]
  | cons c rest ih =>
    have hnext : offset + c.utf8Size - d = offset - d + c.utf8Size := by omega
    have hrest {skip : Nat} := @ih skip (offset + c.utf8Size) (by omega)
    rw [hnext] at hrest
    cases skip with
    | succ skip => exact hrest
    | zero =>
      simp only [scan]
      split
      · exact hrest
      · have hstop : offset + Text.byteLength ((c :: rest).take (next c rest).2) - d =
            offset - d + Text.byteLength ((c :: rest).take (next c rest).2) := by omega
        simp only [List.map_cons, hrest, Token.move, Span.move, hstop]

end Token

/-! ## A slice of a text -/

/-- Characters before a place are given by how many bytes they take. -/
theorem append_inj_of_byteLength {s t s' t' : List Char} (h : s ++ t = s' ++ t')
    (hlength : Text.byteLength s = Text.byteLength s') : s = s' ∧ t = t' := by
  refine List.append_inj h (Nat.le_antisymm ?_ ?_)
  · exact Token.length_le_of_byteLength h (Nat.le_of_eq hlength)
  · exact Token.length_le_of_byteLength h.symm (Nat.le_of_eq hlength.symm)

namespace Reader

/-- Tokens that are laid in a text stand in a row. -/
theorem Laid.pairwise {text : List Char} {tokens : List Token} (h : Laid text tokens) :
    tokens.Pairwise Before := by
  induction h with
  | finish _ => exact List.pairwise_singleton _ _
  | @cons token tokens hspan hstop _ ih =>
    refine .cons (fun other hother => ⟨hspan.lt, Nat.le_trans hstop ?_⟩) ih
    obtain ⟨next, rest, rfl⟩ := List.exists_cons_of_ne_nil (List.ne_nil_of_mem hother)
    rcases List.mem_cons.mp hother with rfl | hother
    · exact Nat.le_refl _
    · have hbefore := (List.pairwise_cons.mp ih).1 other hother
      exact Nat.le_trans (Nat.le_of_lt hbefore.1) hbefore.2

/-- **The tokens of a slice are those that its span covers.** -/
theorem tokens_of_slice {source : String} {B T rest : List Token} {b : Token} {s : Span}
    (htokens : Token.ofSource source = B ++ (T ++ b :: rest)) (hs : s.Within source.toList)
    (hstart : ∃ first others, T = first :: others ∧ s.start = first.span.start)
    (hstop : ∀ token ∈ T, token.span.stop ≤ s.stop) (hnext : s.stop ≤ b.span.start) :
    ∃ text, Text.slice? source s = some text ∧ Token.ofSource text =
      (T ++ [Token.mk .finish ⟨s.stop, s.stop + 1⟩]).map (Token.move (· - s.start)) := by
  obtain ⟨first, others, rfl, hfirst⟩ := hstart
  have hpositive : ∀ token ∈ first :: others, token.span.start < token.span.stop := by
    have hrow := (laid_ofSource source).pairwise
    rw [htokens] at hrow
    exact fun token htoken => (before_of_row (List.pairwise_append.mp hrow).2.1 token htoken).1
  obtain ⟨before, after, hsplit, hbefore, hafter⟩ := Token.scan_at htokens
  obtain ⟨before', inside, after', hsplit', -, hbefore', hstop'⟩ := hs.start.between hs.stop hs.lt
  rw [Nat.zero_add] at hbefore
  obtain ⟨rfl, rfl⟩ := append_inj_of_byteLength
    (hsplit.symm.trans (hsplit'.trans (List.append_assoc _ _ _)))
    (hbefore.symm.trans (hfirst.symm.trans hbefore'))
  rw [byteLength_append, ← hbefore'] at hstop'
  have hwhole : Token.scan 0 s.start (inside ++ after') = (first :: others) ++ b :: rest :=
    hfirst ▸ hafter
  have hbounds : ∀ token ∈ first :: others, token.span.start < token.span.stop ∧
      token.span.stop ≤ s.start + Text.byteLength inside := by
    intro token htoken
    rw [← hstop']
    exact ⟨hpositive token htoken, hstop token htoken⟩
  have hinside := Token.scan_of_cut_off (Nat.le_refl _) hwhole hbounds (hstop' ▸ hnext)
  rw [← hstop'] at hinside
  have hmoved := @Token.scan_move s.start inside 0 s.start (Nat.le_refl _)
  have hslice := Text.slice?_append hsplit'
  rw [byteLength_append, ← hbefore', ← hstop'] at hslice
  refine ⟨String.ofList inside, hslice, ?_⟩
  rw [Token.ofSource, String.toList_ofList, ← hinside, hmoved, Nat.sub_self]

end Reader

end JsonTemplate
