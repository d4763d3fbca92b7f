/-
Where diagnostics stand. The reader never takes the end of the text, so some tokens are always left
to it (`Reader.Left`), and where it is stuck one of them starts (`readAll_stuck`). All else that is
reported is reported at a node, and nodes start where tokens do (`compile_error_shown`).
-/
import JsonTemplate.Proofs.Excerpts
import JsonTemplate.Proofs.Occurrences

namespace JsonTemplate.Reader

/-! ## The tokens that are left -/

/-- Some tokens are left of a text, the end of the text among them. -/
structure Left (tokens rest : List Token) : Prop where
  suffix : rest <:+ tokens
  finish : ∃ token ∈ rest, token.form = .finish

/-- One of the tokens starts at the offset. -/
def IsStart (tokens : List Token) (offset : Nat) : Prop :=
  ∃ token ∈ tokens, token.span.start = offset

/-- A reader has left some of the tokens, or is stuck where one of them starts. -/
def Leaves {α : Type} (tokens : List Token) : Except Nat (α × List Token) → Prop :=
  Satisfies (fun result => Left tokens result.2) (IsStart tokens)

/-- A reader leaves some of the tokens, whichever of them are left to it. -/
def Stops {α : Type} (tokens : List Token) (read : Reads α) : Prop :=
  ∀ {rest}, Left tokens rest → Leaves tokens (read rest)

section Readers

variable {α β : Type} {tokens rest : List Token} {token : Token}

theorem Left.past {T : List Token} (h : Left tokens (T ++ rest))
    (hT : ∀ token ∈ T, token.form ≠ .finish) : Left tokens rest := by
  obtain ⟨hsuffix, last, hlast, hform⟩ := h
  refine ⟨(List.suffix_append T rest).trans hsuffix, last, ?_, hform⟩
  rcases List.mem_append.mp hlast with hlast | hlast
  · exact absurd hform (hT last hlast)
  · exact hlast

theorem Left.tail (h : Left tokens (token :: rest)) (hform : token.form ≠ .finish) :
    Left tokens rest :=
  Left.past (T := [token]) h (List.forall_mem_singleton.mpr hform)

theorem Left.stuck (h : Left tokens rest) : Leaves tokens (stuck (α := α × List Token) rest) := by
  obtain ⟨hsuffix, last, hlast, -⟩ := h
  obtain ⟨token, others, rfl⟩ := List.exists_cons_of_ne_nil (List.ne_nil_of_mem hlast)
  exact ⟨token, hsuffix.subset List.mem_cons_self, rfl⟩

/-- What a step leaves is left to the next one. -/
theorem Leaves.bind {x : Except Nat (α × List Token)}
    {f : α × List Token → Except Nat (β × List Token)} (hx : Leaves tokens x)
    (hf : ∀ a rest, Left tokens rest → Leaves tokens (f (a, rest))) : Leaves tokens (x >>= f) :=
  Satisfies.bind hx fun result hresult => hf result.1 result.2 hresult

theorem mark_stops (c : Char) : Stops tokens (mark c) := by
  intro rest h
  by_cases hnext : ahead rest = some (.mark c)
  · obtain _ | ⟨⟨_, span⟩, rest⟩ := rest
    · cases hnext
    · cases hnext
      rw [mark_cons]
      exact h.tail nofun
  · rw [mark_stuck hnext]
    exact h.stuck

/-- A mark that is read leaves the tokens after it. -/
theorem Left.mark {c : Char} {after : List Token} {stop : Nat} (h : Left tokens rest)
    (hmark : Reader.mark c rest = .ok (stop, after)) : Left tokens after := by
  have hleaves : Leaves tokens (Reader.mark c rest) := mark_stops c h
  rwa [hmark] at hleaves

theorem items_stops {item : Reads α} (hitem : Stops tokens item) (close : Char)
    (budget : List Token) : Stops tokens (items item close budget) := by
  induction budget with
  | nil => exact fun h => h.stuck
  | cons _ budget ih =>
    intro rest h
    rw [items]
    split
    · rename_i hclose
      exact h.mark hclose
    · refine (hitem h).bind fun first after hafter => ?_
      dsimp only
      split
      · rename_i hcomma
        exact (ih (hafter.mark hcomma)).bind fun _ _ hothers => hothers
      · exact (mark_stops close hafter).bind fun _ _ hclose => hclose

theorem operator_form {op : BinaryOp} {T : List Token} (h : (Lexeme.operator op).Tokens T) :
    ∀ token ∈ T, token.form ≠ .finish := by
  cases h <;> simp

theorem prefixed_form {ops : List UnaryOp} {T : List Token} (h : Spells (prefixed ops) T) :
    ∀ token ∈ T, token.form ≠ .finish := by
  induction ops generalizing T with
  | nil => simp [h.of_nil]
  | cons op ops ih =>
    obtain ⟨span, U, rfl, hU⟩ := h.of_mark
    exact List.forall_mem_cons.mpr ⟨nofun, ih hU⟩

section Parts

variable {sub : Reads Expr} (hsub : Stops tokens sub)
include hsub

theorem entry_stops : Stops tokens (entry sub) := fun h =>
  (hsub h).bind fun _ _ hkey => (mark_stops ':' hkey).bind fun _ _ hcolon =>
    (hsub hcolon).bind fun _ _ hvalue => hvalue

theorem primary_word_stops {name : String} {span : Span} (h : Left tokens rest) :
    Leaves tokens (primary sub (⟨.word name, span⟩ :: rest)) := by
  by_cases hkeyword : name ∈ keywords
  · obtain rfl | ⟨b, rfl⟩ := keyword_cases hkeyword
    · rw [primary_null]
      exact h
    · rw [primary_bool]
      exact h
  · by_cases hopen : ahead rest = some (.mark '(')
    · obtain _ | ⟨⟨_, left⟩, others⟩ := rest
      · cases hopen
      · cases hopen
        rw [primary_call sub span others hkeyword]
        exact (items_stops hsub ')' others (h.tail nofun)).bind fun _ _ hargs => hargs
    · rw [primary_name sub span hkeyword hopen]
      exact h

theorem primary_mark_stops {c : Char} {span : Span}
    (hwhole : Left tokens (⟨.mark c, span⟩ :: rest)) :
    Leaves tokens (primary sub (⟨.mark c, span⟩ :: rest)) := by
  have h : Left tokens rest := hwhole.tail nofun
  rw [primary_mark]
  split
  · exact (hsub h).bind fun _ _ hinner => (mark_stops ')' hinner).bind fun _ _ hclose => hclose
  split
  · exact (items_stops hsub ']' rest h).bind fun _ _ helements => helements
  split
  · exact (items_stops (entry_stops hsub) '\x7d' rest h).bind fun _ _ hentries => hentries
  · exact hwhole.stuck

theorem primary_stops : Stops tokens (primary sub) := by
  intro rest h
  obtain _ | ⟨⟨form, span⟩, others⟩ := rest
  · exact h.stuck
  cases form with
  | number _ | string _ => exact h.tail nofun
  | finish => exact h.stuck
  | word name => exact primary_word_stops hsub (h.tail nofun)
  | mark c => exact primary_mark_stops hsub h

theorem member_stops (target : Expr) : Stops tokens (member sub target) := by
  intro rest h
  unfold member
  split
  · rename_i name span others
    have hothers : Left tokens others := h.tail nofun
    split
    · rename_i hopen
      exact (items_stops hsub ')' _ (hothers.mark hopen)).bind fun _ _ hargs => hargs
    · exact hothers
  · exact h.stuck

theorem postfixes_stops (budget : List Token) : ∀ (target : Expr) (stop : Option Nat),
    Stops tokens (postfixes sub target stop budget) := by
  induction budget with
  | nil => exact fun _ _ _ h => h
  | cons _ budget ih =>
    intro target stop rest h
    rw [postfixes]
    split
    · rename_i hdot
      exact (member_stops hsub target (h.mark hdot)).bind fun _ _ hmember => ih _ _ hmember
    · split
      · rename_i hopen
        exact (hsub (h.mark hopen)).bind fun _ _ hi => (mark_stops ']' hi).bind fun _ _ hclose =>
          ih _ _ hclose
      · exact h

theorem operand_stops : Stops tokens (operand sub) := by
  intro rest h
  obtain ⟨T, hrest, hT⟩ := unaryOps_takes rest
  have hafter : Left tokens (unaryOps rest).2 := Left.past (hrest ▸ h) (prefixed_form hT)
  exact (primary_stops hsub hafter).bind fun first after hfirst =>
    (postfixes_stops hsub after first none hfirst).bind fun _ _ hwhole => hwhole

theorem operations_stops (budget : List Token) : Stops tokens (operations sub budget) := by
  induction budget with
  | nil => exact fun h => h
  | cons _ budget ih =>
    intro rest h
    rw [operations]
    split
    · exact h
    · rename_i hop
      obtain ⟨S, rfl, hS⟩ := operator?_takes hop
      exact (operand_stops hsub (h.past (operator_form hS))).bind fun _ _ hright =>
        (ih hright).bind fun _ _ hothers => hothers

theorem choice_stops : Stops tokens (choice sub) := by
  intro rest h
  have hsequence : Leaves tokens (sequence sub rest) :=
    (operand_stops hsub h).bind fun _ after hfirst =>
      (operations_stops hsub after hfirst).bind fun _ _ hothers => hothers
  refine hsequence.bind fun condition after hcondition => ?_
  dsimp only
  split
  · exact hcondition
  · rename_i hquestion
    exact (hsub (hcondition.mark hquestion)).bind fun _ _ hyes =>
      (mark_stops ':' hyes).bind fun _ _ hcolon => (hsub hcolon).bind fun _ _ hno => hno

end Parts

theorem expression_stops (bound : Nat) : Stops tokens (expression bound) := by
  induction bound with
  | zero => exact fun h => h.stuck
  | succ bound ih => exact choice_stops ih

/-- **Where a text cannot be read, one of its tokens starts.** -/
theorem readAll_stuck {offset : Nat} (hfinish : ∃ token ∈ tokens, token.form = .finish)
    (h : readAll tokens = .error offset) : IsStart tokens offset := by
  have hexpression := expression_stops (tokens.length + 1) ⟨List.suffix_refl tokens, hfinish⟩
  rw [readAll, bind_eq_error] at h
  obtain h | ⟨⟨e, rest⟩, hread, h⟩ := h
  · rwa [h] at hexpression
  · rw [hread] at hexpression
    obtain ⟨token, htoken, hstart⟩ := Left.stuck (α := Expr) hexpression
    split at h
    · cases h
    · rename_i after heq
      cases heq
      cases h
      exact ⟨token, htoken, hstart⟩

end Readers

end JsonTemplate.Reader

namespace JsonTemplate

/-! ## Where diagnostics stand -/

namespace Text

/-- No white space stands at an offset of a text. -/
def Solid (text : List Char) (offset : Nat) : Prop :=
  ∃ before after, text = before ++ after ∧ offset = byteLength before ∧
    ∀ c ∈ after.head?, Token.isGap c = false

end Text

namespace Reader

theorem Laid.finish_mem {text : List Char} {tokens : List Token} (h : Laid text tokens) :
    ∃ token ∈ tokens, token.form = .finish := by
  induction h with
  | finish _ => exact ⟨_, List.mem_singleton.mpr rfl, rfl⟩
  | cons _ _ _ ih => exact ih.imp fun _ => And.imp_left (List.mem_cons_of_mem _)

/-- A token starts at a character, or at the end of the text. -/
theorem IsStart.solid {source : String} {offset : Nat}
    (h : IsStart (Token.ofSource source) offset) : Text.Solid source.toList offset := by
  obtain ⟨first, hfirst, rfl⟩ := h
  obtain ⟨T, rest, htokens⟩ := List.append_of_mem hfirst
  obtain ⟨before, after, htext, hstart, hscan⟩ := Token.scan_at htokens
  refine ⟨before, after, htext, by rw [hstart, Nat.zero_add], ?_⟩
  intro c hc
  obtain ⟨others, rfl⟩ := List.head?_eq_some_iff.mp hc
  cases hgap : Token.isGap c with
  | false => rfl
  | true =>
    -- The token would start after the white space.
    rw [Token.scan_gap hgap] at hscan
    have hmem : first ∈ Token.scan 0 (first.span.start + c.utf8Size) others := by simp [hscan]
    have hlater := Token.scan_start first hmem
    have hsize : 0 < c.utf8Size := c.utf8Size_pos
    omega

/-- A node starts where one of its tokens does. -/
theorem isStart_of_node {source : String} {raw n : Expr}
    (h : readAll (Token.ofSource source) = .ok raw) (hn : n ∈ raw.nodes) :
    IsStart (Token.ofSource source) n.span.start := by
  obtain ⟨T, span, htokens, hphrased⟩ := readAll_eq_ok.mp h
  obtain ⟨m, hm, hspan, huncovered⟩ := Expr.exists_uncovered (Nat.le_add_left _ _) hn
  obtain ⟨-, hstand⟩ := phrased_keeps (laid_ofSource source).pairwise hphrased raw.nodes []
    ⟨.finish, span⟩ [] htokens rfl (List.forall_mem_singleton.mpr (List.Subset.refl _)) trivial
  obtain ⟨before, U, b, after, hsplit, -, hheaded⟩ :=
    (hstand raw (List.mem_singleton.mpr rfl) m hm).resolve_left huncovered
  obtain ⟨token, htoken, hstart, -⟩ := hheaded.framed.first
  refine ⟨token, ?_, hspan ▸ hstart.symm⟩
  simp [hsplit, htoken]

end Reader

/-- A place that can be shown: a token starts there, and it is one byte or some characters. -/
structure Shown (source : String) (s : Span) : Prop where
  start : Reader.IsStart (Token.ofSource source) s.start
  extent : s.length = 1 ∨ s.Within source.toList

theorem shown_of_node {source : String} {raw n : Expr}
    (h : Reader.readAll (Token.ofSource source) = .ok raw) (hn : n ∈ raw.nodes) :
    Shown source n.span :=
  ⟨Reader.isStart_of_node h hn,
    .inr (Reader.readAll_nested (Reader.laid_ofSource source) h n hn).1⟩

/-- What is wrong with a text is shown at one of its tokens or nodes. -/
theorem parse_error_shown {source : String} {d : Diagnostic} (h : Expr.parse source = .error d) :
    Shown source d.span := by
  unfold Expr.parse at h
  split at h
  · rename_i raw hraw
    obtain ⟨n, hn, hspan⟩ := Expr.expandMacros_error h
    exact hspan ▸ shown_of_node hraw hn
  · rename_i offset hstuck
    cases h
    have hfinish := (Reader.laid_ofSource source).finish_mem
    exact ⟨Reader.readAll_stuck hfinish hstuck, .inl (Nat.add_sub_cancel_left offset 1)⟩

/-- **Each diagnostic of a text stands where one of its tokens starts**, over one byte or over some
characters. -/
theorem compile_error_shown {env : Environment} {source : String} {found : List Diagnostic}
    (h : env.compile source = .error found) : ∀ d ∈ found, Shown source d.span := by
  unfold Environment.compile at h
  split at h
  · rename_i d hparse
    cases h
    exact List.forall_mem_singleton.mpr (parse_error_shown hparse)
  · rename_i e hparse
    obtain ⟨raw, hraw, hexpand⟩ := Expr.parse_eq_ok hparse
    dsimp only at h
    split at h
    · cases h
    · obtain rfl := Except.error.inj h
      intro d hd
      rw [Expr.faults_eq_offences] at hd
      obtain ⟨o, ho, rfl⟩ := List.mem_map.mp hd
      have hnode : o.node ∈ (e.occurrences []).map Occurrence.node :=
        List.mem_map_of_mem (List.mem_of_mem_filter ho)
      have hmem : o.node ∈ e.nodes := List.mem_of_mem_filter ((e.occurrences_perm []).subset hnode)
      obtain ⟨m, hm, hmn⟩ := Expr.expandMacros_nodes hexpand hmem
      rw [o.diagnostic_span, ← o.node_span, (Expr.expandMacros_span hmn).1]
      exact shown_of_node hraw hm

end JsonTemplate
