/-
Splitting and joining. A separator that is not empty cuts a text at its leftmost occurrences that do
not overlap (`Cuts`), and the pieces are what lies between the cuts (`pieces_eq_between`). So there
is one piece more than there are cuts, no piece holds the separator, and the pieces put together
again with the separator give the text (`join_undoes_split`).
-/
import JsonTemplate.Proofs.Operands

namespace JsonTemplate

namespace Text

/-! ## Cuts -/

/-- The separator stands in the text from a place on. -/
def StandsAt (separator text : List Char) (i : Nat) : Prop := separator <+: text.drop i

/-- The leftmost occurrences of a separator from a place on that do not overlap: each is the first
one that starts where the one before it has ended, or later. -/
inductive Cuts (separator text : List Char) : Nat → List Nat → Prop
  | last {start : Nat} (h : ∀ i, start ≤ i → ¬ StandsAt separator text i) :
      Cuts separator text start []
  | next {start i : Nat} {rest : List Nat} (hle : start ≤ i) (hstands : StandsAt separator text i)
      (hfirst : ∀ j, start ≤ j → j < i → ¬ StandsAt separator text j)
      (hrest : Cuts separator text (i + separator.length) rest) :
      Cuts separator text start (i :: rest)

/-- The pieces of a text from a place on, with the separator taken out where it is cut. -/
def between (separator text : List Char) : Nat → List Nat → List (List Char)
  | start, [] => [text.drop start]
  | start, i :: rest =>
    (text.drop start).take (i - start) :: between separator text (i + separator.length) rest

section

variable {separator text : List Char}

/-- There is one way to cut a text. -/
theorem Cuts.unique {start : Nat} {starts others : List Nat} (h : Cuts separator text start starts)
    (h' : Cuts separator text start others) : starts = others := by
  induction h generalizing others with
  | last hnone =>
    cases h' with
    | last => rfl
    | next hle hstands => exact absurd hstands (hnone _ hle)
  | @next start i rest hle hstands hfirst _ ih =>
    cases h' with
    | last hnone => exact absurd hstands (hnone _ hle)
    | @next _ i' _ hle' hstands' hfirst' hrest' =>
      rcases Nat.lt_trichotomy i i' with hlt | rfl | hlt
      · exact absurd hstands (hfirst' _ hle hlt)
      · rw [ih hrest']
      · exact absurd hstands' (hfirst _ hle' hlt)

theorem length_between (start : Nat) (starts : List Nat) :
    (between separator text start starts).length = starts.length + 1 := by
  induction starts generalizing start with
  | nil => rfl
  | cons i rest ih => rw [between, List.length_cons, ih, List.length_cons]

theorem between_ne_nil (start : Nat) (starts : List Nat) :
    between separator text start starts ≠ [] := by
  cases starts <;> simp [between]

/-- The pieces and the separators between them make up the text. -/
theorem Cuts.intercalate_between {start : Nat} {starts : List Nat}
    (h : Cuts separator text start starts) :
    separator.intercalate (between separator text start starts) = text.drop start := by
  induction h with
  | last _ => simp [between, List.intercalate]
  | @next start i rest hle hstands _ _ ih =>
    have hne : between separator text (i + separator.length) rest ≠ [] := between_ne_nil _ rest
    obtain ⟨piece, others, hpieces⟩ := List.exists_cons_of_ne_nil hne
    have hfrom : separator ++ text.drop (i + separator.length) = text.drop i := by
      obtain ⟨after, hafter⟩ := hstands
      rw [← List.drop_drop, ← hafter, List.drop_left]
    have hupTo : (text.drop start).take (i - start) ++ text.drop i = text.drop start := by
      conv_rhs => rw [← List.take_append_drop (i - start) (text.drop start)]
      rw [List.drop_drop, Nat.add_sub_cancel' hle]
    calc separator.intercalate (between separator text start (i :: rest))
        = (text.drop start).take (i - start) ++ separator ++
            separator.intercalate (between separator text (i + separator.length) rest) := by
          rw [between, hpieces, List.intercalate_cons_cons]
      _ = (text.drop start).take (i - start) ++ text.drop i := by
          rw [ih, List.append_assoc, hfrom]
      _ = text.drop start := hupTo

/-- A separator inside a stretch of the text stands at a place in it. -/
theorem standsAt_of_infix (hseparator : separator ≠ []) {start length : Nat}
    (h : separator <:+: (text.drop start).take length) :
    ∃ i, start ≤ i ∧ i < start + length ∧ StandsAt separator text i := by
  obtain ⟨before, after, hstretch⟩ := h
  have hlength := congrArg List.length hstretch
  have hpos : 0 < separator.length := List.length_pos_iff.mpr hseparator
  simp only [List.length_append, List.length_take] at hlength
  refine ⟨start + before.length, Nat.le_add_right _ _, by omega, ?_⟩
  have hpart : separator <+: ((text.drop start).take length).drop before.length := by
    rw [← hstretch, List.append_assoc, List.drop_left]
    exact List.prefix_append _ _
  rw [List.drop_take, List.drop_drop] at hpart
  exact hpart.trans (List.take_prefix _ _)

/-- A separator in a piece would have been cut. -/
theorem Cuts.not_infix (hseparator : separator ≠ []) {start : Nat} {starts : List Nat}
    (h : Cuts separator text start starts) :
    ∀ piece ∈ between separator text start starts, ¬ separator <:+: piece := by
  induction h with
  | @last start hnone =>
    intro piece hpiece hinfix
    rw [between, List.mem_singleton] at hpiece
    have hwhole : piece = (text.drop start).take text.length := by
      rw [hpiece, List.take_of_length_le (by simp)]
    obtain ⟨i, hle, -, hstands⟩ := standsAt_of_infix hseparator (hwhole ▸ hinfix)
    exact hnone i hle hstands
  | @next start i rest hle hstands hfirst _ ih =>
    rw [between, List.forall_mem_cons]
    refine ⟨fun hinfix => ?_, ih⟩
    obtain ⟨j, hj, hlt, hstands⟩ := standsAt_of_infix hseparator hinfix
    exact hfirst j hj (by omega) hstands

end

/-! ## The scan -/

/-- What the scan has passed when it comes to a place: the piece so far goes back to the last cut,
and no separator stands in between. What is still skipped belongs to a separator. -/
structure Passed (separator whole : List Char) (start place skip : Nat) (piece : List Char) :
    Prop where
  le : start ≤ place + skip
  piece : piece.reverse = (whole.drop start).take (place + skip - start)
  clear : ∀ j, start ≤ j → j < place + skip → ¬ StandsAt separator whole j

section

variable {separator whole : List Char} {start place skip : Nat} {piece : List Char}

theorem Passed.skipped (h : Passed separator whole start place (skip + 1) piece) :
    Passed separator whole start (place + 1) skip piece := by
  obtain ⟨hle, hpiece, hclear⟩ := h
  rw [← Nat.add_assoc, Nat.add_right_comm] at hle hpiece hclear
  exact ⟨hle, hpiece, hclear⟩

/-- A character where no separator starts goes to the piece. -/
theorem Passed.taken (h : Passed separator whole start place 0 piece) {c : Char} {rest : List Char}
    (hplace : whole.drop place = c :: rest) (hnot : ¬ StandsAt separator whole place) :
    Passed separator whole start (place + 1) 0 (c :: piece) := by
  obtain ⟨hle, hpiece, hclear⟩ := h
  simp only [Nat.add_zero] at hle hpiece hclear
  refine ⟨Nat.le_succ_of_le hle, ?_, fun j hj hlt => ?_⟩
  · have hnext : (whole.drop start)[place - start]? = some c := by
      have hget : (whole.drop place)[0]? = some c := by rw [hplace]; rfl
      rw [List.getElem?_drop, Nat.add_zero] at hget
      rw [List.getElem?_drop, Nat.add_sub_cancel' hle, hget]
    rw [List.reverse_cons, hpiece, Nat.add_zero, Nat.succ_sub hle, List.take_add_one, hnext]
    rfl
  · rcases Nat.lt_or_eq_of_le (Nat.le_of_lt_succ hlt) with hlt | rfl
    · exact hclear j hj hlt
    · exact hnot

/-- After a cut there is nothing in the piece, and the rest of the separator is skipped. -/
theorem Passed.cut (hseparator : separator ≠ []) :
    Passed separator whole (place + separator.length) (place + 1) (separator.length - 1) [] := by
  have hend : place + 1 + (separator.length - 1) = place + separator.length := by
    have := List.length_pos_iff.mpr hseparator
    omega
  refine ⟨Nat.le_of_eq hend.symm, ?_, fun j hj hlt => by omega⟩
  rw [hend, Nat.sub_self, List.take_zero, List.reverse_nil]

/-- The scan cuts the text at the leftmost occurrences of the separator. -/
theorem piecesFrom_eq_between (hseparator : separator ≠ []) {text : List Char}
    (htext : text = whole.drop place) (hpassed : Passed separator whole start place skip piece) :
    ∃ starts, Cuts separator whole start starts ∧
      piecesFrom separator skip piece text = between separator whole start starts := by
  induction text generalizing start place skip piece with
  | nil =>
    have hend : whole.length ≤ place := List.drop_eq_nil_iff.mp htext.symm
    refine ⟨[], .last fun i hi hstands => ?_, ?_⟩
    · by_cases hlt : i < place + skip
      · exact hpassed.clear i hi hlt hstands
      · rw [StandsAt, List.drop_eq_nil_of_le (by omega), List.prefix_nil] at hstands
        exact hseparator hstands
    · rw [piecesFrom, between, hpassed.piece, List.take_of_length_le (by simp; omega)]
  | cons c rest ih =>
    have hrest : rest = whole.drop (place + 1) := by
      rw [← List.drop_drop, ← htext, List.drop_one, List.tail_cons]
    cases skip with
    | succ skip =>
      rw [piecesFrom]
      exact ih hrest hpassed.skipped
    | zero =>
      have hhead : separator.isPrefixOf (c :: rest) = true ↔ StandsAt separator whole place := by
        rw [List.isPrefixOf_iff_prefix, htext, StandsAt]
      rw [piecesFrom]
      by_cases hstands : StandsAt separator whole place
      · obtain ⟨starts, hcuts, hpieces⟩ := ih hrest (Passed.cut hseparator)
        have hclear : ∀ j, start ≤ j → j < place → ¬ StandsAt separator whole j := hpassed.clear
        refine ⟨place :: starts, .next hpassed.le hstands hclear hcuts, ?_⟩
        rw [if_pos (hhead.mpr hstands), hpieces, between, hpassed.piece, Nat.add_zero]
      · rw [if_neg (mt hhead.mp hstands)]
        exact ih hrest (hpassed.taken htext.symm hstands)

end

/-- A text is cut at the leftmost occurrences of a separator that is not empty. -/
theorem pieces_eq_between {separator : List Char} (hseparator : separator ≠ [])
    (text : List Char) : ∃ starts, Cuts separator text 0 starts ∧
      pieces separator text = between separator text 0 starts := by
  have hstart : Passed separator text 0 0 0 [] := ⟨Nat.le_refl 0, rfl, fun j _ hlt => by omega⟩
  obtain ⟨starts, hcuts, hpieces⟩ := piecesFrom_eq_between hseparator rfl hstart
  refine ⟨starts, hcuts, ?_⟩
  rw [pieces, if_neg (by simpa using hseparator)]
  exact hpieces

theorem intercalate_nil (texts : List (List Char)) :
    ([] : List Char).intercalate texts = texts.flatten := by
  induction texts with
  | nil => rfl
  | cons first rest ih =>
    cases rest with
    | nil => simp
    | cons second rest => rw [List.intercalate_cons_cons, ih, List.append_nil]; rfl

/-- The pieces of a text, put together again with the separator, are the text. -/
theorem intercalate_pieces (separator text : List Char) :
    separator.intercalate (pieces separator text) = text := by
  by_cases hseparator : separator = []
  · have hpieces : pieces [] text = [] :: text.map ([·]) ++ [[]] := rfl
    have hsingle : (text.map ([·])).flatten = text := by
      rw [← List.flatMap_def, List.flatMap_singleton']
    rw [hseparator, hpieces, intercalate_nil]
    simp [hsingle]
  · obtain ⟨starts, hcuts, hpieces⟩ := pieces_eq_between hseparator text
    rw [hpieces, hcuts.intercalate_between, List.drop_zero]

end Text

namespace Standard

/-- The pieces of a string. -/
def piecesOf (separator s : String) : List String :=
  (Text.pieces separator.toList s.toList).map String.ofList

theorem map_toList_piecesOf (separator s : String) :
    (piecesOf separator s).map String.toList = Text.pieces separator.toList s.toList := by
  have hid : String.toList ∘ String.ofList = id := funext fun _ => String.toList_ofList
  rw [piecesOf, List.map_map, hid, List.map_id]

theorem split_eq (s separator : String) : split (some (.string s)) [.string separator] =
    .ok (.list ((piecesOf separator s).map .string)) := by
  rw [piecesOf, List.map_map]
  rfl

theorem join_piecesOf (s separator : String) :
    join (some (.list ((piecesOf separator s).map .string))) [.string separator] =
      .ok (.string s) := by
  have hwhole : separator.intercalate (piecesOf separator s) = s := by
    rw [← String.toList_inj, String.toList_intercalate, map_toList_piecesOf,
      Text.intercalate_pieces]
  have hjoin := join_strings (piecesOf separator s) (some separator)
  rw [Option.getD_some, hwhole] at hjoin
  exact hjoin

end Standard

open Standard (joining comparison comparisons piecesOf)

/-- **Joining undoes splitting.** A string split at any separator, the empty one included, and
joined by it again is the string. A separator that is not empty cuts the string at its leftmost
occurrences that do not overlap: there is one way to do so, the pieces are what lies between the
cuts and so one more than them, and none of them holds the separator. -/
theorem join_undoes_split (s separator : String) :
    (∃ pieces : List String,
      Standard.split (some (.string s)) [.string separator] = .ok (.list (pieces.map .string)) ∧
      Standard.join (some (.list (pieces.map .string))) [.string separator] = .ok (.string s) ∧
      (separator ≠ "" →
        (∀ piece ∈ pieces, ¬ separator.toList <:+: piece.toList) ∧
        ∃ starts, Text.Cuts separator.toList s.toList 0 starts ∧
          (∀ others, Text.Cuts separator.toList s.toList 0 others → others = starts) ∧
          pieces.map String.toList = Text.between separator.toList s.toList 0 starts ∧
          pieces.length = starts.length + 1)) ∧
    ∀ (env : Environment), env.Provides (comparison "split" Standard.split) →
      env.Provides joining →
      ∀ (span span' : Span) (x y y' : Expr) (origin : Origin) (context : Context),
        x.eval env ((origin.child 0).child 0) context = .ok (.string s) →
        y.eval env ((origin.child 0).child 2) context = .ok (.string separator) →
        y'.eval env (origin.child 2) context = .ok (.string separator) →
        (Expr.call span (some (.call span' (some x) "split" [y])) "join" [y']).eval env origin
          context = .ok (.string s) := by
  refine ⟨⟨piecesOf separator s, Standard.split_eq s separator, Standard.join_piecesOf s separator,
    fun hseparator => ?_⟩, fun env hsplit hjoin span span' x y y' origin context hx hy hy' => ?_⟩
  · have hne : separator.toList ≠ [] := fun h => hseparator (String.toList_eq_nil_iff.mp h)
    obtain ⟨starts, hcuts, hpieces⟩ := Text.pieces_eq_between hne s.toList
    rw [← Standard.map_toList_piecesOf] at hpieces
    refine ⟨fun piece hpiece => ?_, starts, hcuts, fun others h => h.unique hcuts, hpieces, ?_⟩
    · have hmem := List.mem_map_of_mem (f := String.toList) hpiece
      rw [hpieces] at hmem
      exact hcuts.not_infix hne _ hmem
    · have hlength := congrArg List.length hpieces
      rwa [List.length_map, Text.length_between] at hlength
  · have hmem : ("split", Standard.split) ∈ comparisons := by simp [comparisons]
    have hcut : env.call "split" ((origin.child 0).child 1) (some (.string s))
        [.string separator] = .ok (.list ((piecesOf separator s).map .string)) :=
      (hsplit.call_eq (.comparison hmem s separator) _).trans (Standard.split_eq s separator)
    have hput : env.call "join" (origin.child 1)
        (some (.list ((piecesOf separator s).map .string))) [.string separator] =
          .ok (.string s) :=
      (hjoin.call_eq (.joining _ (some separator)) _).trans (Standard.join_piecesOf s separator)
    simp only [Expr.eval, Expr.evalOptional, Expr.evalItems, hx, hy, hy', hcut, hput, ok_bind,
      pure_eq_ok, Outcome.located]

/-- `'aaa'.split('aa')` is `['', 'a']`: of two occurrences that overlap the first one is cut. -/
theorem join_undoes_split_of_overlapping :
    let text (s : String) : Expr := .literal default (.string s)
    (Standard.split (some (.string "aaa")) [.string "aa"] =
      .ok (.list [.string "", .string "a"]) ∧
      ∃ starts, Text.Cuts "aa".toList "aaa".toList 0 starts ∧ 2 = starts.length + 1) ∧
    (Expr.call default (some (.call default (some (text "aaa")) "split" [text "aa"])) "join"
      [text "aa"]).eval .standard default (fun _ => none) = .ok (.string "aaa") := by
  intro text
  obtain ⟨⟨pieces, hsplit, -, hcuts⟩, hexpr⟩ := join_undoes_split "aaa" "aa"
  have hpieces : Standard.split (some (.string "aaa")) [.string "aa"] =
      .ok (.list [.string "", .string "a"]) := by rfl
  obtain ⟨-, starts, hstarts, -, -, hlength⟩ := hcuts (by decide)
  refine ⟨⟨hpieces, starts, hstarts, ?_⟩, hexpr .standard (by rfl) (by rfl) default default _ _ _
    default _ rfl rfl rfl⟩
  rw [hsplit, Except.ok.injEq, Value.list.injEq] at hpieces
  rw [← hlength, ← List.length_map (f := Value.string), hpieces]
  rfl

end JsonTemplate
