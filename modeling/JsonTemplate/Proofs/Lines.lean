/-
Lines of a text. A line stands between the lines above it and what ends it (`Text.LineOf`), and
every character that ends no line is on one (`exists_line`). The position of an offset is the number
of that line and the place on it (`position_of_line`), and the line of that number is the one the
offset is on (`line_of_number`).
-/
import JsonTemplate.Proofs.Layout

namespace JsonTemplate.Text

/-! ## A line and what stands around it -/

/-- Lines, each with the line feed after it. -/
inductive Above : List Char → Prop
  | nil : Above []
  | line {above l} : Above above → '\n' ∉ l → Above (above ++ (l ++ ['\n']))

/-- What may follow a line: nothing, a line feed, or a return and a line feed. A return before a
line feed is no part of the line. -/
inductive Ends (line : List Char) : List Char → Prop
  | text : Ends line []
  | feed {rest} : line.getLast? ≠ some '\r' → Ends line ('\n' :: rest)
  | returnFeed {rest} : Ends line ('\r' :: '\n' :: rest)

/-- A line of a text, with what stands above and below it. -/
structure LineOf (text above line below : List Char) : Prop where
  text_eq : text = above ++ (line ++ below)
  above : Above above
  unbroken : '\n' ∉ line
  ends : Ends line below

variable {text above line lead tail below before after rest : List Char}

theorem exists_above (before : List Char) :
    ∃ above lead, before = above ++ lead ∧ Above above ∧ '\n' ∉ lead := by
  induction before using List.reverseRecOn with
  | nil => exact ⟨[], [], rfl, .nil, by simp⟩
  | append_singleton before c ih =>
    obtain ⟨above, lead, rfl, habove, hlead⟩ := ih
    by_cases hc : c = '\n'
    · exact ⟨above ++ (lead ++ [c]), [], by simp, hc ▸ .line habove hlead, by simp⟩
    · exact ⟨above, lead ++ [c], by simp, habove, by simp [hlead, Ne.symm hc]⟩

/-- A line goes on to the next line feed, after a character that is not the return before it. -/
theorem exists_below (after : List Char) : ∀ c, (c = '\r' → after.head? ≠ some '\n') →
    ∃ tail below, after = tail ++ below ∧ '\n' ∉ tail ∧
      ∀ lead, Ends (lead ++ c :: tail) below := by
  induction after with
  | nil => exact fun c _ => ⟨[], [], rfl, by simp, fun _ => .text⟩
  | cons d rest ih =>
    intro c hc
    by_cases hfeed : d = '\n'
    · subst hfeed
      have hreturn : c ≠ '\r' := fun h => hc h rfl
      exact ⟨[], '\n' :: rest, rfl, by simp, fun _ => .feed (by simpa using hreturn)⟩
    · by_cases hreturn : d = '\r' ∧ rest.head? = some '\n'
      · obtain ⟨rfl, hhead⟩ := hreturn
        obtain ⟨others, rfl⟩ := List.head?_eq_some_iff.mp hhead
        exact ⟨[], '\r' :: '\n' :: others, rfl, by simp, fun _ => .returnFeed⟩
      · obtain ⟨tail, below, rfl, htail, hends⟩ := ih d fun hd hhead => hreturn ⟨hd, hhead⟩
        refine ⟨d :: tail, below, rfl, by simp [htail, Ne.symm hfeed], fun lead => ?_⟩
        simpa using hends (lead ++ [c])

/-- A character that ends no line is on one. -/
theorem exists_line {c : Char} (hfeed : c ≠ '\n') (hreturn : c ≠ '\r')
    (htext : text = before ++ c :: after) :
    ∃ above lead tail below, before = above ++ lead ∧ after = tail ++ below ∧
      LineOf text above (lead ++ c :: tail) below := by
  obtain ⟨above, lead, rfl, habove, hlead⟩ := exists_above before
  obtain ⟨tail, below, rfl, htail, hends⟩ := exists_below after c fun h => absurd h hreturn
  refine ⟨above, lead, tail, below, rfl, rfl, ?_, habove, ?_, hends lead⟩
  · simp [htext]
  · simp [hlead, htail, Ne.symm hfeed]

/-! ## Its number and its columns -/

/-- Where a character leads to. -/
def Position.step (p : Position) (c : Char) : Position :=
  if c = '\n' then ⟨p.line + 1, 1⟩ else ⟨p.line, p.column + 1⟩

theorem Position.advance_append (p : Position) (before after : List Char) :
    p.advance (byteLength before) (before ++ after) = before.foldl step p := by
  induction before generalizing p with
  | nil => cases after <;> rfl
  | cons c before ih =>
    obtain ⟨count, hcount, -, hrest⟩ := exists_byteLength_cons c before
    rw [hcount, List.cons_append, Position.advance, hrest, ih]
    rfl

theorem Position.foldl_unbroken (p : Position) (h : '\n' ∉ line) :
    line.foldl step p = ⟨p.line, p.column + line.length⟩ := by
  induction line generalizing p with
  | nil => rfl
  | cons c line ih =>
    obtain ⟨hc, hline⟩ := not_or.mp (mt List.mem_cons.mpr h)
    simp only [List.foldl_cons, ih _ hline, step, if_neg (Ne.symm hc), List.length_cons,
      Nat.add_assoc, Nat.add_comm 1]

theorem Position.foldl_above (h : Above above) :
    above.foldl step ⟨1, 1⟩ = ⟨above.count '\n' + 1, 1⟩ := by
  induction h with
  | nil => rfl
  | @line above l _ hl ih =>
    simp [ih, foldl_unbroken _ hl, step, List.count_eq_zero_of_not_mem hl]

/-- **The character at an offset is at the number of its line and of its place there.** -/
theorem position_of_line {source : String} (h : LineOf source.toList above (lead ++ tail) below) :
    position source (byteLength (above ++ lead)) = ⟨above.count '\n' + 1, lead.length + 1⟩ := by
  have hlead : '\n' ∉ lead := fun hmem => h.unbroken (List.mem_append_left _ hmem)
  have htext : source.toList = above ++ lead ++ (tail ++ below) := by simp [h.text_eq]
  rw [position, htext, Position.advance_append, List.foldl_append, Position.foldl_above h.above,
    Position.foldl_unbroken _ hlead, Nat.add_comm lead.length]

/-! ## The line of a number -/

theorem linesFrom_unbroken {start : List Char} (h : '\n' ∉ line) :
    linesFrom start (line ++ rest) = linesFrom (line.reverse ++ start) rest := by
  induction line generalizing start with
  | nil => rfl
  | cons c line ih =>
    obtain ⟨hc, hline⟩ := not_or.mp (mt List.mem_cons.mpr h)
    have hstep : linesFrom start (c :: (line ++ rest)) = linesFrom (c :: start) (line ++ rest) := by
      simp [linesFrom, Ne.symm hc]
    simp [hstep, ih hline]

/-- A line is cut off the rest of the text. -/
theorem linesFrom_feed (line rest : List Char) (h : '\n' ∉ line) : ∃ first,
    linesFrom [] (line ++ '\n' :: rest) = first :: linesFrom [] rest := by
  rw [linesFrom_unbroken h, List.append_nil]
  exact ⟨_, rfl⟩

theorem linesFrom_above (h : Above above) (rest : List Char) (i : Nat) :
    (linesFrom [] (above ++ rest))[above.count '\n' + i]? = (linesFrom [] rest)[i]? := by
  induction h generalizing rest i with
  | nil => simp
  | @line above l _ hl ih =>
    obtain ⟨first, hfirst⟩ := linesFrom_feed l rest hl
    have hcount : (above ++ (l ++ ['\n'])).count '\n' + i = above.count '\n' + (i + 1) := by
      simp [List.count_eq_zero_of_not_mem hl]
      omega
    rw [hcount, List.append_assoc, ih, List.append_assoc, List.singleton_append, hfirst,
      List.getElem?_cons_succ]

/-- A line feed that no return stands before cuts off all that came before it. -/
theorem linesFrom_cut {start : List Char} (h : start.head? ≠ some '\r') (rest : List Char) :
    linesFrom start ('\n' :: rest) = start.reverse :: linesFrom [] rest := by
  cases start with
  | nil => rfl
  | cons c before =>
    have hc : c ≠ '\r' := by simpa using h
    simp [linesFrom, hc]

/-- A line is its first one, without what ends it. -/
theorem linesFrom_line (hline : '\n' ∉ line) (hne : line ≠ []) (h : Ends line below) :
    (linesFrom [] (line ++ below))[0]? = some line := by
  rw [linesFrom_unbroken hline, List.append_nil]
  cases h with
  | text => simp [linesFrom, hne]
  | feed hreturn =>
    rw [← List.head?_reverse] at hreturn
    simp [linesFrom_cut hreturn]
  | returnFeed => simp [linesFrom]

/-- **The line of a number is the one on which that many line feeds stand above.** -/
theorem line_of_number {source : String} (h : LineOf source.toList above line below)
    (hne : line ≠ []) : Text.line source (above.count '\n' + 1) = String.ofList line := by
  have hlines : (linesFrom [] source.toList)[above.count '\n']? = some line := by
    have hfirst := linesFrom_above h.above (line ++ below) 0
    rwa [linesFrom_line h.unbroken hne h.ends, ← h.text_eq, Nat.add_zero] at hfirst
  simp [Text.line, lines, hlines]

end JsonTemplate.Text
