/-
Trees that can be written down. Their names are words, their numbers are denoted by numerals up to
the sign, and a minus before a number is part of it (`Writable`). The grammar derives only such
trees from lexemes that can be written (`derives_writable`), and expansion keeps that; so every
parsed tree is one (`parse_writable`).
-/
import JsonTemplate.Proofs.Scanning
import JsonTemplate.Proofs.Macros

namespace JsonTemplate

namespace Binary64

/-- Whether the sign bit is set. -/
def isNegative : Binary64 → Bool
  | nan => false
  | infinite negative | finite negative _ _ => negative

def abs : Binary64 → Binary64
  | nan => nan
  | infinite _ => infinite false
  | finite _ units h => finite false units h

theorem abs_neg (n : Binary64) : n.neg.abs = n.abs := by
  cases n <;> rfl

theorem neg_abs {n : Binary64} (h : n.isNegative = true) : n.abs.neg = n := by
  cases n <;> cases h <;> rfl

theorem abs_eq {n : Binary64} (h : n.isNegative = false) : n.abs = n := by
  cases n <;> cases h <;> rfl

theorem isNegative_ofUnits (negative : Bool) (units : Nat) :
    (ofUnits negative units).isNegative = negative := by
  unfold ofUnits
  split <;> rfl

theorem isNegative_round (negative : Bool) (dividend divisor : Nat) :
    (round negative dividend divisor).isNegative = negative := by
  unfold round
  split
  · rfl
  · exact isNegative_ofUnits _ _

end Binary64

/-- A numeral has no sign of its own. -/
theorem IsNumeral.isNegative {chars : List Char} {n : Binary64} (h : IsNumeral chars n) :
    n.isNegative = false := by
  obtain ⟨-, -, -⟩ := h
  unfold Decimal.toBinary64
  split
  · exact Binary64.isNegative_ofUnits _ _
  · split
    · rfl
    · split
      · exact Binary64.isNegative_ofUnits _ _
      · split <;> exact Binary64.isNegative_round _ _ _

/-! ## Trees that can be written -/

/-- A word that is a name of something. -/
def IsName (name : String) : Prop := IsWord name.toList ∧ name ∉ keywords

/-- A number is denoted by a numeral up to its sign. -/
def Literal.Writable : Literal → Prop
  | number n => ∃ chars, IsNumeral chars n.abs
  | _ => True

namespace Expr

mutual

/-- Names are words, numbers are denoted by numerals, and a minus before a number is part of it. -/
def Writable : Expr → Prop
  | literal _ value => value.Writable
  | list _ items => WritableItems items
  | dict _ entries => WritableEntries entries
  | ident _ name => IsName name
  | select _ operand field | has _ operand field => operand.Writable ∧ IsWord field.toList
  | index _ operand i => operand.Writable ∧ i.Writable
  | call _ target function args => IsWord function.toList ∧
    (target = none → function ∉ keywords) ∧ WritableOptional target ∧ WritableItems args
  | quantify _ _ range name test => range.Writable ∧ IsName name ∧ test.Writable
  | collect _ range name test image =>
    range.Writable ∧ IsName name ∧ WritableOptional test ∧ image.Writable
  | conditional _ condition yes no => condition.Writable ∧ yes.Writable ∧ no.Writable
  | binary _ _ left right => left.Writable ∧ right.Writable
  | unary _ op operand =>
    operand.Writable ∧ (op = .neg → ∀ n, operand.literal? ≠ some (.number n))

def WritableOptional : Option Expr → Prop
  | none => True
  | some e => e.Writable

def WritableItems : List Expr → Prop
  | [] => True
  | e :: rest => e.Writable ∧ WritableItems rest

def WritableEntries : List (Expr × Expr) → Prop
  | [] => True
  | (key, e) :: rest => key.Writable ∧ e.Writable ∧ WritableEntries rest

end

theorem literal?_bare (e : Expr) : e.bare.literal? = e.literal? := by
  cases e <;> rfl

mutual

/-- Places do not matter. -/
theorem writable_of_bare {e : Expr} (h : e.bare.Writable) : e.Writable := by
  match e with
  | literal _ _ | ident _ _ => exact h
  | list _ items => exact writableItems_of_bare h
  | dict _ entries => exact writableEntries_of_bare h
  | select _ operand _ | has _ operand _ => exact ⟨writable_of_bare h.1, h.2⟩
  | index _ left right | binary _ _ left right =>
    exact ⟨writable_of_bare h.1, writable_of_bare h.2⟩
  | call _ target _ args =>
    obtain ⟨hfunction, hkeyword, htarget, hargs⟩ := h
    refine ⟨hfunction, ?_, writableOptional_of_bare htarget, writableItems_of_bare hargs⟩
    rintro rfl
    exact hkeyword rfl
  | quantify _ _ range _ test => exact ⟨writable_of_bare h.1, h.2.1, writable_of_bare h.2.2⟩
  | collect _ range _ test image =>
    obtain ⟨hrange, hname, htest, himage⟩ := h
    exact ⟨writable_of_bare hrange, hname, writableOptional_of_bare htest,
      writable_of_bare himage⟩
  | conditional _ condition yes no =>
    exact ⟨writable_of_bare h.1, writable_of_bare h.2.1, writable_of_bare h.2.2⟩
  | unary _ op operand =>
    refine ⟨writable_of_bare h.1, ?_⟩
    rw [← literal?_bare operand]
    exact h.2

theorem writableOptional_of_bare {e : Option Expr} (h : WritableOptional (bareOptional e)) :
    WritableOptional e := by
  match e with
  | none => exact trivial
  | some e => exact writable_of_bare (e := e) h

theorem writableItems_of_bare {es : List Expr} (h : WritableItems (bareItems es)) :
    WritableItems es := by
  match es with
  | [] => exact trivial
  | e :: rest => exact ⟨writable_of_bare h.1, writableItems_of_bare h.2⟩

theorem writableEntries_of_bare {es : List (Expr × Expr)}
    (h : WritableEntries (bareEntries es)) : WritableEntries es := by
  match es with
  | [] => exact trivial
  | (key, e) :: rest =>
    exact ⟨writable_of_bare h.1, writable_of_bare h.2.1, writableEntries_of_bare h.2.2⟩

end

/-! ### Trees that are read -/

theorem writable_toExpr {tree : OpTree Expr} (h : tree.All Writable) : tree.toExpr.Writable := by
  induction tree with
  | operand e => exact h
  | node left op right ihl ihr => exact ⟨ihl h.1, ihr h.2⟩

theorem writable_applyUnary {op : UnaryOp} {e : Expr} (h : e.Writable) :
    (Reader.applyUnary default op e).Writable := by
  cases op with
  | not => exact ⟨h, nofun⟩
  | neg =>
    by_cases hnumber : ∃ n, e.literal? = some (.number n)
    · obtain ⟨n, hn⟩ := hnumber
      cases e <;> cases hn
      obtain ⟨chars, hchars⟩ := h
      exact ⟨chars, by rwa [Binary64.abs_neg]⟩
    · have hunary : Reader.applyUnary default .neg e = unary default .neg e := by
        unfold Reader.applyUnary
        split
        · exact absurd ⟨_, rfl⟩ hnumber
        · rfl
      rw [hunary]
      exact ⟨h, fun _ n hn => hnumber ⟨n, hn⟩⟩

/-- What can be said of a result: its trees can be written, given that the operand at hand can. -/
def ResultWritable : (c : Category) → c.Result → Prop
  | .choice, e | .sequence, e | .operand, e | .primary, e => e.Writable
  | .suffixes target, e => target.Writable → e.Writable
  | .operations, steps => ∀ step ∈ steps, step.2.Writable
  | .items, es => WritableItems es
  | .entries, entries => WritableEntries entries

theorem isWord_of_written {name : String} (h : ∃ chars, (Lexeme.word name).Written chars) :
    IsWord name.toList := by
  obtain ⟨_, hchars⟩ := h
  cases hchars
  assumption

/-- **What the grammar derives from lexemes that can be written can be written.** -/
theorem derives_writable {c : Category} {L : List Lexeme} {r : c.Result} (h : Derives c L r)
    (hL : ∀ l ∈ L, ∃ chars, l.Written chars) : ResultWritable c r := by
  induction h with
  | plain _ ih => exact ih hL
  | choice _ _ _ ihcondition ihyes ihno =>
    simp only [List.forall_mem_append, List.forall_mem_cons] at hL
    exact ⟨ihcondition hL.1, ihyes hL.2.2.1, ihno hL.2.2.2.2⟩
  | sequence _ _ ihoperand ihsteps =>
    simp only [List.forall_mem_append] at hL
    exact writable_toExpr (OpTree.all_ofSequence (ihoperand hL.1) (ihsteps hL.2))
  | noOperations => exact List.forall_mem_nil _
  | operation _ _ ihoperand ihsteps =>
    simp only [List.forall_mem_append, List.forall_mem_cons] at hL
    rintro step hstep
    rcases List.mem_cons.mp hstep with rfl | hstep
    · exact ihoperand hL.2.1
    · exact ihsteps hL.2.2 step hstep
  | unary _ ih => exact writable_applyUnary (ih (List.forall_mem_cons.mp hL).2)
  | operand _ _ ihprimary ihsuffixes =>
    simp only [List.forall_mem_append] at hL
    exact ihsuffixes hL.2 (ihprimary hL.1)
  | whole => exact id
  | field _ ih =>
    simp only [List.forall_mem_cons] at hL
    exact fun h => ih hL.2.2 ⟨h, isWord_of_written hL.2.1⟩
  | method _ _ ihargs ih =>
    simp only [List.forall_mem_append, List.forall_mem_cons] at hL
    exact fun h => ih hL.2.2.2.2.2
      ⟨isWord_of_written hL.2.1, fun hnone => absurd hnone (Option.some_ne_none _), h,
        ihargs hL.2.2.2.1⟩
  | index _ _ ihindex ih =>
    simp only [List.forall_mem_append, List.forall_mem_cons] at hL
    exact fun h => ih hL.2.2.2 ⟨h, ihindex hL.2.1⟩
  | number =>
    obtain ⟨chars, hchars⟩ := hL _ List.mem_cons_self
    cases hchars with
    | number hn => exact ⟨chars, by rwa [Binary64.abs_eq hn.isNegative]⟩
  | string => exact trivial
  | bool b => exact trivial
  | null => exact trivial
  | name hname => exact ⟨isWord_of_written (hL _ List.mem_cons_self), hname⟩
  | call hname _ ihargs =>
    simp only [List.forall_mem_append, List.forall_mem_cons] at hL
    exact ⟨isWord_of_written hL.1, fun _ => hname, trivial, ihargs hL.2.2.1⟩
  | group _ ih | list _ ih | dict _ ih =>
    simp only [List.forall_mem_append, List.forall_mem_cons] at hL
    exact ih hL.2.1
  | noItems => exact trivial
  | lastItem _ ih => exact ⟨ih hL, trivial⟩
  | item _ _ ih ihitems =>
    simp only [List.forall_mem_append, List.forall_mem_cons] at hL
    exact ⟨ih hL.1, ihitems hL.2.2⟩
  | noEntries => exact trivial
  | lastEntry _ _ ihkey ih =>
    simp only [List.forall_mem_append, List.forall_mem_cons] at hL
    exact ⟨ihkey hL.1, ih hL.2.2, trivial⟩
  | entry _ _ _ ihkey ih ihentries =>
    simp only [List.forall_mem_append, List.forall_mem_cons] at hL
    exact ⟨ihkey hL.1, ih hL.2.2.1, ihentries hL.2.2.2.2⟩

/-! ### Trees that are expanded -/

theorem LoopTree.writable {span : Span} {word : LoopWord} {range : Expr} {args : List Expr}
    {t : Expr} (h : LoopTree span word range args t) (hrange : range.Writable)
    (hargs : WritableItems args) : t.Writable := by
  cases h with
  | image => exact ⟨hrange, hargs.1, trivial, hargs.2.1⟩
  | testedImage => exact ⟨hrange, hargs.1, hargs.2.1, hargs.2.2.1⟩
  | test => exact ⟨hrange, hargs.1, hargs.2.1⟩

theorem CallTree.writable {span : Span} {target : Option Expr} {function : String}
    {args : List Expr} {t : Expr} (h : CallTree span target function args t)
    (hfunction : IsWord function.toList) (hkeyword : target = none → function ∉ keywords)
    (htarget : WritableOptional target) (hargs : WritableItems args) : t.Writable := by
  cases h with
  | presence => exact hargs.1
  | function _ => exact ⟨hfunction, hkeyword, htarget, hargs⟩
  | loop _ hloop => exact hloop.writable htarget hargs
  | method _ => exact ⟨hfunction, hkeyword, htarget, hargs⟩

theorem expandOptional_none {e t : Option Expr} (h : expandOptional e = .ok t) :
    t = none → e = none := by
  cases e with
  | none => exact fun _ => rfl
  | some e =>
    obtain ⟨_, -, h⟩ := bind_eq_ok.mp h
    cases h
    exact nofun

mutual

theorem writable_expandMacros {e t : Expr} (h : e.expandMacros = .ok t) (he : e.Writable) :
    t.Writable := by
  match e with
  | literal _ _ | ident _ _ =>
    cases h
    exact he
  | list _ items =>
    obtain ⟨items', hitems, h⟩ := bind_eq_ok.mp h
    cases h
    exact writable_expandItems hitems he
  | dict _ entries =>
    obtain ⟨entries', hentries, h⟩ := bind_eq_ok.mp h
    cases h
    exact writable_expandEntries hentries he
  | select _ operand _ | has _ operand _ =>
    obtain ⟨operand', hoperand, h⟩ := bind_eq_ok.mp h
    cases h
    exact ⟨writable_expandMacros hoperand he.1, he.2⟩
  | unary _ op operand =>
    obtain ⟨operand', hoperand, h⟩ := bind_eq_ok.mp h
    cases h
    refine ⟨writable_expandMacros hoperand he.1, ?_⟩
    rw [(expandMacros_span hoperand).2]
    exact he.2
  | index _ left right | binary _ _ left right =>
    simp only [expandMacros, bind_eq_ok] at h
    obtain ⟨left', hleft, right', hright, h⟩ := h
    cases h
    exact ⟨writable_expandMacros hleft he.1, writable_expandMacros hright he.2⟩
  | call span target function args =>
    simp only [expandMacros, bind_eq_ok] at h
    obtain ⟨target', htarget, args', hargs, h⟩ := h
    obtain ⟨hfunction, hkeyword, htarget', hargs'⟩ := he
    exact (ofCall_tree h).writable hfunction
      (fun hnone => hkeyword (expandOptional_none htarget hnone))
      (writable_expandOptional htarget htarget') (writable_expandItems hargs hargs')
  | quantify _ q range name test =>
    simp only [expandMacros, bind_eq_ok] at h
    obtain ⟨range', hrange, test', htest, h⟩ := h
    cases h
    exact ⟨writable_expandMacros hrange he.1, he.2.1, writable_expandMacros htest he.2.2⟩
  | collect _ range name test image =>
    simp only [expandMacros, bind_eq_ok] at h
    obtain ⟨range', hrange, test', htest, image', himage, h⟩ := h
    cases h
    obtain ⟨hrange', hname, htest', himage'⟩ := he
    exact ⟨writable_expandMacros hrange hrange', hname, writable_expandOptional htest htest',
      writable_expandMacros himage himage'⟩
  | conditional _ condition yes no =>
    simp only [expandMacros, bind_eq_ok] at h
    obtain ⟨condition', hcondition, yes', hyes, no', hno, h⟩ := h
    cases h
    exact ⟨writable_expandMacros hcondition he.1, writable_expandMacros hyes he.2.1,
      writable_expandMacros hno he.2.2⟩

theorem writable_expandOptional {e t : Option Expr} (h : expandOptional e = .ok t)
    (he : WritableOptional e) : WritableOptional t := by
  match e with
  | none =>
    cases h
    exact trivial
  | some e =>
    obtain ⟨t', ht, h⟩ := bind_eq_ok.mp h
    cases h
    exact writable_expandMacros (t := t') ht he

theorem writable_expandItems {es ts : List Expr} (h : expandItems es = .ok ts)
    (he : WritableItems es) : WritableItems ts := by
  match es with
  | [] =>
    cases h
    exact trivial
  | e :: rest =>
    simp only [expandItems, bind_eq_ok] at h
    obtain ⟨t, ht, others, hothers, h⟩ := h
    cases h
    exact ⟨writable_expandMacros ht he.1, writable_expandItems hothers he.2⟩

theorem writable_expandEntries {es ts : List (Expr × Expr)} (h : expandEntries es = .ok ts)
    (he : WritableEntries es) : WritableEntries ts := by
  match es with
  | [] =>
    cases h
    exact trivial
  | (key, e) :: rest =>
    simp only [expandEntries, bind_eq_ok] at h
    obtain ⟨key', hkey, e', he', others, hothers, h⟩ := h
    cases h
    exact ⟨writable_expandMacros hkey he.1, writable_expandMacros he' he.2.1,
      writable_expandEntries hothers he.2.2⟩

end

theorem parse_eq_ok {source : String} {t : Expr} (h : parse source = .ok t) :
    ∃ raw, Reader.readAll (Token.ofSource source) = .ok raw ∧ raw.expandMacros = .ok t := by
  unfold parse at h
  split at h
  · exact ⟨_, by assumption, h⟩
  · cases h

/-- A parsed tree, written back as calls, is expanded to it. -/
theorem parse_written {source : String} {t : Expr} (h : parse source = .ok t) :
    t.written.expandMacros = .ok t.bare := by
  obtain ⟨raw, -, ht⟩ := parse_eq_ok h
  exact expandMacros_written ht

/-- **A tree that is parsed can be written.** -/
theorem parse_writable {source : String} {t : Expr} (h : parse source = .ok t) : t.Writable := by
  obtain ⟨raw, hread, ht⟩ := parse_eq_ok h
  obtain ⟨L, hspelling, hL⟩ := readAll_ofSource_iff.mp ⟨raw, hread, rfl⟩
  have hraw : raw.bare.Writable := derives_writable hL hspelling.written
  exact writable_expandMacros ht (writable_of_bare hraw)

end Expr

end JsonTemplate
