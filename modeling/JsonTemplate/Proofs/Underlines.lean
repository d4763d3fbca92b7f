/-
The text of a diagnostic. It shows the line on which the span starts and its place there; the carets
under the line are as many as the span has bytes, which is one for each character of the span on
that line exactly if those are all its characters and each is a single byte
(`diagnostic_underlines_iff`).
-/
import JsonTemplate.Proofs.Lines
import JsonTemplate.Proofs.Stopping

namespace JsonTemplate

/-! ## Characters of a span -/

namespace Text

/-- How many characters of a text start in its first bytes. -/
def startsWithin : (bytes : Nat) → List Char → Nat
  | 0, _ => 0
  | _ + 1, [] => 0
  | bytes@(_ + 1), c :: rest => startsWithin (bytes - c.utf8Size) rest + 1

theorem startsWithin_zero (text : List Char) : startsWithin 0 text = 0 := by
  cases text <;> rfl

theorem startsWithin_cons {bytes : Nat} (h : 0 < bytes) (c : Char) (rest : List Char) :
    startsWithin bytes (c :: rest) = startsWithin (bytes - c.utf8Size) rest + 1 := by
  obtain ⟨count, rfl⟩ := Nat.exists_eq_succ_of_ne_zero h.ne'
  rfl

theorem startsWithin_le (bytes : Nat) (text : List Char) : startsWithin bytes text ≤ bytes := by
  induction text generalizing bytes with
  | nil => cases bytes <;> exact Nat.zero_le _
  | cons c rest ih =>
    rcases Nat.eq_zero_or_pos bytes with rfl | hpos
    · exact Nat.le_refl _
    · have hrest := ih (bytes - c.utf8Size)
      have hsize : 0 < c.utf8Size := c.utf8Size_pos
      rw [startsWithin_cons hpos]
      omega

theorem startsWithin_one (c : Char) (rest : List Char) : startsWithin 1 (c :: rest) = 1 := by
  have hsize : 0 < c.utf8Size := c.utf8Size_pos
  rw [startsWithin_cons Nat.one_pos, Nat.sub_eq_zero_of_le hsize, startsWithin_zero]

/-- Each byte of a span starts a character of the line exactly if the span does not leave the line
and has no longer characters. -/
theorem startsWithin_eq_iff {inside after line below : List Char}
    (h : inside ++ after = line ++ below) :
    byteLength inside = startsWithin (byteLength inside) line ↔
      inside <+: line ∧ ∀ c ∈ inside, c.utf8Size = 1 := by
  induction inside generalizing line with
  | nil => simp [byteLength, startsWithin]
  | cons c inside ih =>
    have hsize : 0 < c.utf8Size := c.utf8Size_pos
    have hpos : 0 < byteLength (c :: inside) := Nat.lt_of_lt_of_le hsize (Nat.le_add_right _ _)
    cases line with
    | nil =>
      have hnone : startsWithin (byteLength (c :: inside)) [] = 0 := by
        cases byteLength (c :: inside) <;> rfl
      simp [hnone, hpos.ne']
    | cons d line =>
      obtain ⟨rfl, hrest⟩ := List.cons.inj h
      have hle := startsWithin_le (byteLength inside) line
      have hbytes : byteLength (c :: inside) - c.utf8Size = byteLength inside :=
        Nat.add_sub_cancel_left _ _
      rw [startsWithin_cons hpos, hbytes, List.cons_prefix_cons, List.forall_mem_cons]
      constructor
      · intro heq
        have hlength : c.utf8Size + byteLength inside =
          startsWithin (byteLength inside) line + 1 := heq
        obtain ⟨hfront, hall⟩ := (ih hrest).mp (by omega)
        exact ⟨⟨rfl, hfront⟩, by omega, hall⟩
      · intro hright
        obtain ⟨⟨-, hfront⟩, hone, hall⟩ := hright
        rw [← (ih hrest).mpr ⟨hfront, hall⟩, byteLength, hone, Nat.add_comm]

/-- The text after a place is what it is, however it is found. -/
theorem after_unique {text before after before' after' : List Char} (h : text = before ++ after)
    (h' : text = before' ++ after') (hlength : byteLength before = byteLength before') :
    after = after' := by
  have hdrop : dropBytes? (byteLength before) text = some after := by
    rw [h, dropBytes?_append]
  rw [hlength, h', dropBytes?_append] at hdrop
  exact (Option.some.inj hdrop).symm

end Text

/-- A span that starts on a line has as many bytes as characters on that line if it is one byte, or
holds nothing but characters of one byte on that line. -/
theorem bytes_eq_characters_iff {source : String} {s : Span} {before line below : List Char}
    (hextent : s.length = 1 ∨ s.Within source.toList)
    (htext : source.toList = before ++ (line ++ below)) (hline : line ≠ [])
    (hstart : s.start = Text.byteLength before) :
    s.length = Text.startsWithin s.length line ↔
      s.length = 1 ∨ ∃ inside, Text.slice? source s = some (String.ofList inside) ∧
        inside <+: line ∧ ∀ c ∈ inside, c.utf8Size = 1 := by
  obtain ⟨c, tail, rfl⟩ := List.exists_cons_of_ne_nil hline
  obtain hone | hwithin := hextent
  · simp [hone, Text.startsWithin_one]
  -- What the span holds is at the front of the line and what is below it.
  obtain ⟨before', inside, after, htext', -, hstart', hstop⟩ :=
    hwithin.start.between hwithin.stop hwithin.lt
  have hafter : inside ++ after = c :: tail ++ below := by
    rw [List.append_assoc] at htext'
    exact Text.after_unique htext' htext (hstart'.symm.trans hstart)
  have hslice : Text.slice? source s = some (String.ofList inside) := by
    have hcut := Text.slice?_append htext'
    rwa [← hstart', ← hstop] at hcut
  have hlength : s.length = Text.byteLength inside := by
    rw [Span.length, hstart', hstop, byteLength_append, Nat.add_sub_cancel_left]
  have hiff := Text.startsWithin_eq_iff hafter
  rw [← hlength] at hiff
  constructor
  · intro heq
    exact .inr ⟨inside, hslice, hiff.mp heq⟩
  · intro hright
    obtain hone | ⟨inside', hslice', hright⟩ := hright
    · rw [hone, Text.startsWithin_one]
    · obtain rfl : inside = inside' :=
        String.ofList_injective (Option.some.inj (hslice.symm.trans hslice'))
      exact hiff.mpr hright

/-! ## The text of a diagnostic -/

namespace Diagnostic

/-- The message, a place, a line of source with carets under it from that place on, and the hint. -/
def display (wording : Wording) (d : Diagnostic) (location : Option String)
    (place : Text.Position) (line : String) (count : Nat) : String :=
  let file := match location with
    | some name => name ++ ":"
    | none => ""
  let carets := String.ofList (List.replicate count '^')
  let text :=
    s!"Error: {d.message wording}\n --> {file}{place.line}:{place.column}\n  |\n"
      ++ s!"{lineNumber place.line} | {line}\n    | {spaces (place.column - 1)}{carets}"
  match d.fault.hint? with
  | some hint => s!"{text}\n  = hint: {hint}"
  | none => text

theorem render_eq_display (wording : Wording) (d : Diagnostic) (source : String)
    (location : Option String) :
    d.render wording source location =
      d.display wording location (Text.position source d.span.start)
        (Text.line source (Text.position source d.span.start).line) (max d.span.length 1) := rfl

end Diagnostic

/-- **A diagnostic shows the line on which its span starts, and its place there**, with a caret for
each byte of the span. There is one caret for each character of the span on that line exactly if the
span is one byte, or if it holds nothing but characters of one byte on that line. -/
theorem diagnostic_underlines_iff {env : Environment} {source : String} {found : List Diagnostic}
    (h : env.compile source = .error found) :
    ∀ d ∈ found, d.span.stop ≤ Text.byteLength source.toList →
      ∃ above lead c tail below,
        Text.LineOf source.toList above (lead ++ c :: tail) below ∧
        d.span.start = Text.byteLength (above ++ lead) ∧
        (∀ wording location, d.render wording source location =
          d.display wording location ⟨above.count '\n' + 1, lead.length + 1⟩
            (String.ofList (lead ++ c :: tail)) d.span.length) ∧
        (d.span.length = Text.startsWithin d.span.length (c :: tail) ↔
          d.span.length = 1 ∨ ∃ inside, Text.slice? source d.span = some (String.ofList inside) ∧
            inside <+: c :: tail ∧ ∀ ch ∈ inside, ch.utf8Size = 1) := by
  intro d hd hstop
  obtain ⟨hstart, hextent⟩ := compile_error_shown h d hd
  have hpos : d.span.start < d.span.stop := by
    obtain hone | hwithin := hextent
    · simp only [Span.length] at hone
      omega
    · exact hwithin.lt
  obtain ⟨before, after, htext, hbefore, hsolid⟩ := hstart.solid
  obtain _ | ⟨c, after⟩ := after
  · -- Nothing starts at the end of the text.
    rw [List.append_nil] at htext
    rw [htext] at hstop
    omega
  have hgap : Token.isGap c = false := hsolid c rfl
  have hfeed : c ≠ '\n' := fun hc => by simp [hc, Token.isGap] at hgap
  have hreturn : c ≠ '\r' := fun hc => by simp [hc, Token.isGap] at hgap
  obtain ⟨above, lead, tail, below, rfl, rfl, hline⟩ := Text.exists_line hfeed hreturn htext
  refine ⟨above, lead, c, tail, below, hline, hbefore, fun wording location => ?_, ?_⟩
  · have hlength : max d.span.length 1 = d.span.length := by
      simp only [Span.length]
      omega
    rw [Diagnostic.render_eq_display, hbefore, Text.position_of_line hline,
      Text.line_of_number hline (by simp), hlength]
  · have htext' : source.toList = above ++ lead ++ (c :: tail ++ below) := by simp [htext]
    exact bytes_eq_characters_iff hextent htext' (List.cons_ne_nil c tail) hbefore

/-- A call on a second line, after a return and a character of two bytes. -/
theorem diagnostic_underlines_iff_of_second_line :
    Environment.standard.compile "[\r\n 'é', nope(x)]" =
        .error [⟨⟨10, 17⟩, .undeclaredFunction "nope"⟩] ∧
      17 ≤ Text.byteLength "[\r\n 'é', nope(x)]".toList ∧
      ∃ above lead c tail below,
        Text.LineOf "[\r\n 'é', nope(x)]".toList above (lead ++ c :: tail) below ∧
        10 = Text.byteLength (above ++ lead) ∧
        (∀ wording location, Diagnostic.render wording ⟨⟨10, 17⟩, .undeclaredFunction "nope"⟩
            "[\r\n 'é', nope(x)]" location =
          Diagnostic.display wording ⟨⟨10, 17⟩, .undeclaredFunction "nope"⟩ location
            ⟨above.count '\n' + 1, lead.length + 1⟩ (String.ofList (lead ++ c :: tail)) 7) ∧
        (7 = Text.startsWithin 7 (c :: tail) ↔
          7 = 1 ∨ ∃ inside,
            Text.slice? "[\r\n 'é', nope(x)]" ⟨10, 17⟩ = some (String.ofList inside) ∧
            inside <+: c :: tail ∧ ∀ ch ∈ inside, ch.utf8Size = 1) := by
  have hfound : Environment.standard.compile "[\r\n 'é', nope(x)]" =
      .error [⟨⟨10, 17⟩, .undeclaredFunction "nope"⟩] :=
    failure?_eq_some.mp (by decide +kernel)
  have hstop : 17 ≤ Text.byteLength "[\r\n 'é', nope(x)]".toList := by decide
  exact ⟨hfound, hstop, diagnostic_underlines_iff hfound _ (List.mem_singleton.mpr rfl) hstop⟩

/-- **A character of two bytes has two carets.** -/
theorem carets_exceed_characters :
    Environment.standard.compile "has('é')" = .error [⟨⟨0, 9⟩, .hasArgument⟩] ∧
      9 ≤ Text.byteLength "has('é')".toList ∧
      (∀ wording, Diagnostic.render wording ⟨⟨0, 9⟩, .hasArgument⟩ "has('é')" none =
        "Error: invalid argument to has() macro\n --> 1:1\n  |\n  1 | has('é')\n    | ^^^^^^^^^" ++
          "\n  = hint: has() expects a field selection such as has(data.name)") ∧
      Text.startsWithin 9 "has('é')".toList = 8 :=
  ⟨failure?_eq_some.mp (by decide +kernel), by decide, fun _ => rfl, by decide⟩

/-- The carets of a span that goes on in the next line go on past the end of its first. -/
example (wording : Wording) :
    Diagnostic.render wording ⟨⟨0, 7⟩, .undeclaredFunction "nope"⟩ "nope(\n)" none =
    "Error: undeclared reference to function 'nope'\n --> 1:1\n  |\n  1 | nope(\n    | ^^^^^^^" ++
      "\n  = hint: only registered functions can be called" := rfl

end JsonTemplate
